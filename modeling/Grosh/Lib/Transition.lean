import Mathlib.Data.List.Basic

/-!
# Runs of a labelled transition system

A system is a partial step function `step : σ → α → Option σ`: the label `α` carries
every choice the environment makes (which party moves, which outcome a call has),
so a run is determined by its start and its list of labels.

* `exec` — the state a list of labels leads to;
* `Along` — a condition on (state, label) met by every step of the run;
* `Always` — a property of every state the run visits.

The rules are the usual ones: an invariant preserved by a step is preserved by a
run (`exec_invariant`), also when the step only preserves it under a condition on
the step (`exec_invariant_along`, `always_of_along`). What the last event of a kind decides is read
off that event (`iff_atLast`). A history variable may be added to a system (`traced`): its runs are
the same (`exec_traced`).
-/

universe u v w

namespace Transition

variable {σ : Type u} {α : Type v} {step : σ → α → Option σ}

/-- The state reached from `s` by taking the labels in order, if every step is enabled. -/
def exec (step : σ → α → Option σ) : σ → List α → Option σ
  | s, [] => some s
  | s, a :: as => (step s a).bind fun s' => exec step s' as

@[simp] theorem exec_cons (s : σ) (a : α) (as : List α) :
    exec step s (a :: as) = (step s a).bind fun s' => exec step s' as := rfl

/-- Inversion: the first step of a nonempty run, and the run that follows it. -/
theorem exec_cons_eq_some {s s'' : σ} {a : α} {as : List α}
    (h : exec step s (a :: as) = some s'') :
    ∃ s', step s a = some s' ∧ exec step s' as = some s'' := by
  rw [exec_cons] at h
  exact Option.bind_eq_some_iff.mp h

theorem exec_append (s : σ) (as bs : List α) :
    exec step s (as ++ bs) = (exec step s as).bind fun s' => exec step s' bs := by
  induction as generalizing s with
  | nil => rfl
  | cons a as ih =>
    rw [List.cons_append, exec_cons, exec_cons, Option.bind_assoc]
    congr 1
    funext s'
    exact ih s'

/-- Inversion: the last step of a nonempty run, and the run up to it. -/
theorem exec_concat_eq_some {s s'' : σ} {a : α} {as : List α}
    (h : exec step s (as ++ [a]) = some s'') :
    ∃ s', exec step s as = some s' ∧ step s' a = some s'' := by
  rw [exec_append] at h
  obtain ⟨s', hs', h⟩ := Option.bind_eq_some_iff.mp h
  obtain ⟨s₁, hs₁, h₁⟩ := exec_cons_eq_some h
  obtain rfl := Option.some.inj h₁
  exact ⟨s', hs', hs₁⟩

/-- Every step of the run meets the condition `C`, which is read in the state the step starts from.
A run ends where a step is not enabled. -/
def Along (step : σ → α → Option σ) (C : σ → α → Prop) : σ → List α → Prop
  | _, [] => True
  | s, a :: as => C s a ∧ ∀ s', step s a = some s' → Along step C s' as

theorem along_cons {C : σ → α → Prop} {s : σ} {a : α} {as : List α} :
    Along step C s (a :: as) ↔ C s a ∧ ∀ s', step s a = some s' → Along step C s' as :=
  Iff.rfl

instance decidableAlong {C : σ → α → Prop} [∀ s a, Decidable (C s a)] :
    ∀ (s : σ) (as : List α), Decidable (Along step C s as)
  | _, [] => .isTrue trivial
  | s, a :: as =>
    match hs : step s a with
    | none => decidable_of_iff (C s a)
        ⟨fun h => ⟨h, fun s' hs' => by rw [hs] at hs'; cases hs'⟩, fun h => h.1⟩
    | some s₁ =>
      have : Decidable (Along step C s₁ as) := decidableAlong s₁ as
      decidable_of_iff (C s a ∧ Along step C s₁ as)
        ⟨fun h => ⟨h.1, fun s' hs' => Option.some.inj (hs.symm.trans hs') ▸ h.2⟩,
          fun h => ⟨h.1, h.2 s₁ hs⟩⟩

theorem along_append {C : σ → α → Prop} {as bs : List α} :
    ∀ {s s' : σ}, exec step s as = some s' →
      (Along step C s (as ++ bs) ↔ Along step C s as ∧ Along step C s' bs) := by
  induction as with
  | nil =>
    intro s s' he
    obtain rfl := Option.some.inj he
    exact ⟨fun h => ⟨trivial, h⟩, fun h => h.2⟩
  | cons a as ih =>
    intro s s'' he
    obtain ⟨s₁, hs₁, he₁⟩ := exec_cons_eq_some he
    rw [List.cons_append, along_cons, along_cons, and_assoc]
    refine and_congr_right fun _ => ⟨fun h => ?_, fun h s' hs' => ?_⟩
    · obtain ⟨h₁, h₂⟩ := (ih he₁).mp (h s₁ hs₁)
      refine ⟨fun s' hs' => ?_, h₂⟩
      obtain rfl := Option.some.inj (hs₁.symm.trans hs')
      exact h₁
    · obtain rfl := Option.some.inj (hs₁.symm.trans hs')
      exact (ih he₁).mpr ⟨h.1 s₁ hs₁, h.2⟩

/-- Every state the run visits satisfies `P`, the first and the last among them. -/
def Always (step : σ → α → Option σ) (P : σ → Prop) : σ → List α → Prop
  | s, [] => P s
  | s, a :: as => P s ∧ ∀ s', step s a = some s' → Always step P s' as

theorem Always.head {P : σ → Prop} {s : σ} {as : List α} (h : Always step P s as) : P s := by
  cases as with
  | nil => exact h
  | cons a as => exact h.1

/-- **Invariant rule, conditional**: what every step meeting `C` preserves, every
run whose steps meet `C` preserves. -/
theorem exec_invariant_along {C : σ → α → Prop} {I : σ → Prop}
    (hstep : ∀ s a s', I s → C s a → step s a = some s' → I s') :
    ∀ {as : List α} {s s' : σ}, I s → Along step C s as → exec step s as = some s' → I s' := by
  intro as
  induction as with
  | nil =>
    intro s s' hI _ he
    obtain rfl := Option.some.inj he
    exact hI
  | cons a as ih =>
    intro s s' hI hC he
    obtain ⟨s₁, hs₁, he₁⟩ := exec_cons_eq_some he
    exact ih (hstep s a s₁ hI hC.1 hs₁) (hC.2 s₁ hs₁) he₁

/-- **Invariant rule**: what every step preserves, every run preserves, from any state that has
it. -/
theorem exec_invariant {I : σ → Prop}
    (hstep : ∀ s a s', I s → step s a = some s' → I s') {as : List α} {s s' : σ}
    (hI : I s) (he : exec step s as = some s') : I s' := by
  have htrue : ∀ (as : List α) (s : σ), Along step (fun _ _ => True) s as := by
    intro as
    induction as with
    | nil => exact fun _ => trivial
    | cons a as ih => exact fun _ => ⟨trivial, fun s' _ => ih s'⟩
  exact exec_invariant_along (fun s a s' h _ => hstep s a s' h) hI (htrue as s) he

/-- Along a run whose steps meet `C`, an inductive invariant holds in every state
visited, and so does anything it implies. -/
theorem always_of_along {C : σ → α → Prop} {I P : σ → Prop}
    (hstep : ∀ s a s', I s → C s a → step s a = some s' → I s')
    (hP : ∀ s, I s → P s) :
    ∀ {as : List α} {s : σ}, I s → Along step C s as → Always step P s as := by
  intro as
  induction as with
  | nil => exact fun hI _ => hP _ hI
  | cons a as ih =>
    intro s hI hC
    exact ⟨hP s hI, fun s' hs' => ih (hstep s a s' hI hC.1 hs') (hC.2 s' hs')⟩

/-- Along a run whose steps meet `C`, every step has what the invariant and `C` give it. -/
theorem along_of_along {C G : σ → α → Prop} {I : σ → Prop}
    (hstep : ∀ s a s', I s → C s a → step s a = some s' → I s')
    (hG : ∀ s a, I s → C s a → G s a) :
    ∀ {as : List α} {s : σ}, I s → Along step C s as → Along step G s as := by
  intro as
  induction as with
  | nil => exact fun _ _ => trivial
  | cons a as ih =>
    intro s hI hC
    exact ⟨hG s a hI hC.1, fun s' hs' => ih (hstep s a s' hI hC.1 hs') (hC.2 s' hs')⟩

/-- Conversely, where a step that breaks `C` breaks `P`, a run that always
satisfies `P` has met `C` at every step. -/
theorem along_of_always {C : σ → α → Prop} {I P : σ → Prop}
    (hstep : ∀ s a s', I s → step s a = some s' → I s')
    (hC : ∀ s a s', I s → step s a = some s' → P s' → C s a)
    (hen : ∀ s a, step s a = none → C s a) :
    ∀ {as : List α} {s : σ}, I s → Always step P s as → Along step C s as := by
  intro as
  induction as with
  | nil => exact fun _ _ => trivial
  | cons a as ih =>
    intro s hI hA
    refine ⟨?_, fun s' hs' => ih (hstep s a s' hI hs') (hA.2 s' hs')⟩
    rcases hs : step s a with _ | s'
    · exact hen s a hs
    · exact hC s a s' hI hs (hA.2 s' hs).head

/-- Two conditions on the steps are one: what is met separately along a run is met together at each
of its steps. -/
theorem Along.and {C D : σ → α → Prop} {as : List α} :
    ∀ {s : σ}, Along step C s as → Along step D s as →
      Along step (fun s a => C s a ∧ D s a) s as := by
  induction as with
  | nil => exact fun _ _ => trivial
  | cons a as ih =>
    exact fun hC hD => ⟨⟨hC.1, hD.1⟩, fun s' hs' => ih (hC.2 s' hs') (hD.2 s' hs')⟩

/-- A condition on the labels alone is met along a run if all of its labels meet it, in whatever
states. -/
theorem along_of_labels {D : α → Prop} {as : List α} :
    ∀ {s : σ}, (∀ a ∈ as, D a) → Along step (fun _ a => D a) s as := by
  induction as with
  | nil => exact fun _ => trivial
  | cons a as ih =>
    exact fun hD => ⟨hD a (List.mem_cons_self ..),
      fun _ _ => ih fun b hb => hD b (List.mem_cons_of_mem _ hb)⟩

/-- A condition on the labels may be added to that on the steps. -/
theorem Along.and_label {C : σ → α → Prop} {D : α → Prop} {as : List α} {s : σ}
    (hC : Along step C s as) (hD : ∀ a ∈ as, D a) : Along step (fun s a => C s a ∧ D a) s as :=
  hC.and (along_of_labels hD)

/-- **A property is kept exactly where the condition is met**, if that is so for each step from a
state that has it, and the invariant is preserved by the steps from such states; of the steps only
those that meet `D` have to be looked at, if the run takes no others. -/
theorem always_iff_along_given {C D : σ → α → Prop} {I P : σ → Prop}
    (hstep : ∀ s a s', I s → P s → D s a → step s a = some s' → I s')
    (hiff : ∀ s a s', I s → P s → D s a → step s a = some s' → (P s' ↔ C s a))
    (hen : ∀ s a, step s a = none → C s a) :
    ∀ {as : List α} {s : σ}, I s → P s → Along step D s as →
      (Always step P s as ↔ Along step C s as) := by
  intro as
  induction as with
  | nil => exact fun _ hP _ => iff_of_true hP trivial
  | cons a as ih =>
    intro s hI hP hD
    rcases hs : step s a with _ | s₁
    · have hno : ∀ s', step s a ≠ some s' := fun s' hs' => by
        rw [hs] at hs'
        cases hs'
      exact iff_of_true ⟨hP, fun s' hs' => absurd hs' (hno s')⟩
        ⟨hen s a hs, fun s' hs' => absurd hs' (hno s')⟩
    have hrest : ∀ {Q : σ → Prop}, (∀ s', step s a = some s' → Q s') ↔ Q s₁ := fun {Q} =>
      ⟨fun h => h s₁ hs, fun h s' hs' => Option.some.inj (hs.symm.trans hs') ▸ h⟩
    have hC := hiff s a s₁ hI hP hD.1 hs
    have hI₁ := hstep s a s₁ hI hP hD.1 hs
    have hD₁ := hD.2 s₁ hs
    rw [along_cons, Always, hrest, hrest]
    refine ⟨fun h => ⟨hC.mp h.2.head, (ih hI₁ h.2.head hD₁).mp h.2⟩, fun h => ?_⟩
    exact ⟨hP, (ih hI₁ (hC.mpr h.1) hD₁).mpr h.2⟩

/-- The same of all steps, with an invariant that needs the property. -/
theorem always_iff_along_while {C : σ → α → Prop} {I P : σ → Prop}
    (hstep : ∀ s a s', I s → P s → step s a = some s' → I s')
    (hiff : ∀ s a s', I s → P s → step s a = some s' → (P s' ↔ C s a))
    (hen : ∀ s a, step s a = none → C s a) {as : List α} {s : σ} (hI : I s) (hP : P s) :
    Always step P s as ↔ Along step C s as :=
  always_iff_along_given (fun s a s' hI hP _ hs => hstep s a s' hI hP hs)
    (fun s a s' hI hP _ hs => hiff s a s' hI hP hs) hen hI hP
    (along_of_labels (D := fun _ => True) fun _ _ => trivial)

/-- The same with an invariant of all steps, which is what most systems have. -/
theorem always_iff_along {C : σ → α → Prop} {I P : σ → Prop}
    (hstep : ∀ s a s', I s → step s a = some s' → I s')
    (hiff : ∀ s a s', I s → P s → step s a = some s' → (P s' ↔ C s a))
    (hen : ∀ s a, step s a = none → C s a) {as : List α} {s : σ} (hI : I s) (hP : P s) :
    Always step P s as ↔ Along step C s as :=
  always_iff_along_while (fun s a s' hI _ hs => hstep s a s' hI hs) hiff hen hI hP

/-- A run from an invariant state that ends unbroken has met `C` at every step, if the first
step that misses `C` breaks something that stays broken. -/
theorem along_of_not_broken {C : σ → α → Prop} {I B : σ → Prop}
    (hI : ∀ s a s', I s → C s a → step s a = some s' → I s')
    (hbreak : ∀ s a s', I s → ¬ C s a → step s a = some s' → B s')
    (hB : ∀ s a s', B s → step s a = some s' → B s') :
    ∀ {as : List α} {s s' : σ}, I s → exec step s as = some s' → ¬ B s' → Along step C s as := by
  intro as
  induction as with
  | nil => exact fun _ _ _ => trivial
  | cons a as ih =>
    intro s s'' hs he hend
    obtain ⟨s₁, hs₁, he₁⟩ := exec_cons_eq_some he
    have hC : C s a := by
      by_contra hC
      exact hend (exec_invariant hB (hbreak s a s₁ hs hC hs₁) he₁)
    refine ⟨hC, fun s' hs' => ?_⟩
    obtain rfl := Option.some.inj (hs₁.symm.trans hs')
    exact ih (hI s a s₁ hs hC hs₁) he₁ hend

/-! ## The last event of a kind

Some properties are not kept but decided anew by each event of a kind. What holds in the end is then
what the last one decided. -/

section Last

variable {E C : σ → α → Prop}

/-- The last step of the run of the kind `E` meets `C`, if there is one. -/
def AtLast (step : σ → α → Option σ) (E C : σ → α → Prop) : σ → List α → Prop
  | _, [] => True
  | s, a :: as => ∀ s', step s a = some s' →
      (E s a → Along step (fun s a => ¬ E s a) s' as → C s a) ∧ AtLast step E C s' as

instance decidableAtLast [∀ s a, Decidable (E s a)] [∀ s a, Decidable (C s a)] :
    ∀ (s : σ) (as : List α), Decidable (AtLast step E C s as)
  | _, [] => .isTrue trivial
  | s, a :: as =>
    match hs : step s a with
    | none => .isTrue fun s' hs' => by rw [hs] at hs'; cases hs'
    | some s₁ =>
      have : Decidable (AtLast step E C s₁ as) := decidableAtLast s₁ as
      decidable_of_iff ((E s a → Along step (fun s a => ¬ E s a) s₁ as → C s a) ∧
          AtLast step E C s₁ as)
        ⟨fun h s' hs' => Option.some.inj (hs.symm.trans hs') ▸ h, fun h => h s₁ hs⟩

/-- **The last event decides**: where each event settles whether `A` holds, and no other step
matters unless an event follows, `A` holds in the end exactly if the last event was a good one, or
if there was none and it held before. -/
theorem iff_atLast {D : α → Prop} {I A End : σ → Prop}
    (hI : ∀ s a s', I s → step s a = some s' → I s')
    (hevent : ∀ s a s', I s → D a → E s a → step s a = some s' → (A s' ↔ C s a))
    (hother : ∀ s a s' as s'', I s → D a → (∀ b ∈ as, D b) → ¬ E s a → step s a = some s' →
      Along step (fun s a => ¬ E s a) s' as → exec step s' as = some s'' → End s'' →
      (A s' ↔ A s)) :
    ∀ {as : List α} {s s'' : σ}, I s → (∀ a ∈ as, D a) → exec step s as = some s'' → End s'' →
      (A s'' ↔ AtLast step E C s as ∧ (Along step (fun s a => ¬ E s a) s as → A s)) := by
  intro as
  induction as with
  | nil =>
    intro s s'' _ _ he _
    obtain rfl := Option.some.inj he
    exact ⟨fun h => ⟨trivial, fun _ => h⟩, fun h => h.2 trivial⟩
  | cons a as ih =>
    intro s s'' hs hD he hend
    obtain ⟨s₁, hs₁, he₁⟩ := exec_cons_eq_some he
    have hDa := hD a (List.mem_cons_self ..)
    have hDas : ∀ b ∈ as, D b := fun b hb => hD b (List.mem_cons_of_mem _ hb)
    have hone : ∀ {P : σ → Prop}, (∀ s', step s a = some s' → P s') ↔ P s₁ := fun {P} =>
      ⟨fun h => h s₁ hs₁, fun h s' hs' => Option.some.inj (hs₁.symm.trans hs') ▸ h⟩
    rw [ih (hI s a s₁ hs hs₁) hDas he₁ hend, AtLast, along_cons, hone, hone]
    by_cases hE : E s a
    · have hA := hevent s a s₁ hs hDa hE hs₁
      refine ⟨fun h => ⟨⟨fun _ hno => hA.mp (h.2 hno), h.1⟩, fun hno => absurd hE hno.1⟩,
        fun h => ⟨h.1.2, fun hno => hA.mpr (h.1.1 hE hno)⟩⟩
    · have hA : Along step (fun s a => ¬ E s a) s₁ as → (A s₁ ↔ A s) := fun hno =>
        hother s a s₁ as s'' hs hDa hDas hE hs₁ hno he₁ hend
      refine ⟨fun h => ⟨⟨fun hE' => absurd hE' hE, h.1⟩, fun hno => (hA hno.2).mp (h.2 hno.2)⟩,
        fun h => ⟨h.1.2, fun hno => (hA hno).mpr (h.2 ⟨hE, hno⟩)⟩⟩

end Last

/-! ## History variables

A record of what has happened, beside a system that does not read it. What is shown of the system
with its record holds of the system. -/

section Traced

variable {γ : Type w} {record : σ → γ → α → γ}

/-- The system beside a history variable: each step records something of the state it starts from
and of its label, and reads nothing of the record. -/
def traced (step : σ → α → Option σ) (record : σ → γ → α → γ) (s : σ × γ) (a : α) :
    Option (σ × γ) :=
  (step s.1 a).map fun s' => (s', record s.1 s.2 a)

/-- Inversion of a recorded step: a step of the system, and its entry. -/
theorem traced_eq_some {s s' : σ × γ} {a : α} (h : traced step record s a = some s') :
    step s.1 a = some s'.1 ∧ s'.2 = record s.1 s.2 a := by
  obtain ⟨s₁, hs₁, rfl⟩ := Option.map_eq_some_iff.mp h
  exact ⟨hs₁, rfl⟩

/-- Every run has its record: the history variable holds nothing back. -/
theorem exec_traced {as : List α} :
    ∀ {s s' : σ} (g : γ), exec step s as = some s' →
      ∃ g', exec (traced step record) (s, g) as = some (s', g') := by
  induction as with
  | nil =>
    intro s s' g he
    obtain rfl := Option.some.inj he
    exact ⟨g, rfl⟩
  | cons a as ih =>
    intro s s' g he
    obtain ⟨s₁, hs₁, he₁⟩ := exec_cons_eq_some he
    obtain ⟨g', he'⟩ := ih (record s g a) he₁
    refine ⟨g', ?_⟩
    rw [exec_cons, traced, hs₁]
    exact he'

/-- A condition on the steps that does not read the record is met with it or without. -/
theorem along_traced {C : σ → α → Prop} {as : List α} :
    ∀ {s : σ} (g : γ), Along step C s as →
      Along (traced step record) (fun x a => C x.1 a) (s, g) as := by
  induction as with
  | nil => exact fun _ _ => trivial
  | cons a as ih =>
    rintro s g ⟨hC, hrest⟩
    exact ⟨hC, fun x hx => ih x.2 (hrest x.1 (traced_eq_some hx).1)⟩

end Traced

end Transition
