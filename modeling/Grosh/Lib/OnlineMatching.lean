import Mathlib.Data.Set.Insert
import Mathlib.Data.List.Perm.Basic

/-!
# Online matching

Elements arrive one by one. An arrival looks at the elements that are there and still
unmatched; `sees a b` says that an arriving `a` accepts `b`. With exactly one offer the two
are matched for good; with none the arrival stays alone; with several the matcher may take
any one of them or none.

* `Run.link_iff` — if `sees` is symmetric and nobody sees two elements, the matching a run
  ends with is `sees` itself;
* `orderFree_iff` — and that condition is necessary: a matcher whose result is the same for
  every order of arrival has a symmetric `sees` with at most one partner for everybody.
-/

universe u

namespace OnlineMatching

variable {α : Type u}

/-- What has arrived, and who is matched with whom. A match once made is never undone. -/
@[ext] structure State (α : Type u) : Type u where
  arrived : Set α
  link : α → α → Prop

namespace State

/-- Nobody has arrived, and nobody is matched. -/
def empty : State α := ⟨∅, fun _ _ => False⟩

/-- The element is matched with nobody, and may still be offered. -/
def Free (s : State α) (b : α) : Prop := ∀ c, ¬ s.link b c

/-- An arrival that stays alone, for now: a later one may still take it. -/
def alone (s : State α) (a : α) : State α := ⟨insert a s.arrived, s.link⟩

/-- An arrival that is matched with `b`, for good and in both directions. -/
def matched (s : State α) (a b : α) : State α :=
  ⟨insert a s.arrived, fun x y => s.link x y ∨ x = a ∧ y = b ∨ x = b ∧ y = a⟩

end State

variable (sees : α → α → Prop)

/-- `b` is offered to the arriving `a`: it is there, free, and accepted by it. -/
def Offered (s : State α) (a b : α) : Prop := b ∈ s.arrived ∧ s.Free b ∧ sees a b

/-- **One arrival**: it takes the offer if there is exactly one, and stays alone otherwise. -/
inductive Step (s : State α) (a : α) : State α → Prop where
  /-- no offer, or several -/
  | alone : (∀ b, Offered sees s a b → ∃ c, Offered sees s a c ∧ c ≠ b) → Step s a (s.alone a)
  /-- an offer is taken -/
  | matched (b : α) : Offered sees s a b → Step s a (s.matched a b)

/-- Arrivals in order, each a step from where the one before it has led. -/
inductive Run : State α → List α → State α → Prop where
  | nil (s : State α) : Run s [] s
  | cons {s s' s'' : State α} {a : α} {as : List α} :
    Step sees s a s' → Run s' as s'' → Run s (a :: as) s''

variable {sees} {s s' : State α} {a : α} {as : List α}

/-! ## What a run keeps

Whatever is seen or not, the links form a matching, and they only grow. -/

/-- The links join arrived elements, symmetrically, and each has at most one. -/
structure Matching (s : State α) : Prop where
  arrived : ∀ x y, s.link x y → x ∈ s.arrived ∧ y ∈ s.arrived
  symm : ∀ x y, s.link x y → s.link y x
  unique : ∀ x y z, s.link x y → s.link x z → y = z

theorem matching_empty : Matching (State.empty : State α) :=
  ⟨fun _ _ h => h.elim, fun _ _ h => h, fun _ _ _ h => h.elim⟩

theorem Matching.step (h : Matching s) (ha : a ∉ s.arrived) (hs : Step sees s a s') :
    Matching s' := by
  have hfree : ∀ y, ¬ s.link a y := fun y hl => ha (h.arrived a y hl).1
  cases hs with
  | alone =>
    exact ⟨fun x y hl => (h.arrived x y hl).imp Or.inr Or.inr, h.symm, h.unique⟩
  | matched b hb =>
    obtain ⟨hba, hbf, -⟩ := hb
    refine ⟨?_, ?_, ?_⟩
    · rintro x y (hl | ⟨rfl, rfl⟩ | ⟨rfl, rfl⟩)
      · exact (h.arrived x y hl).imp Or.inr Or.inr
      · exact ⟨Or.inl rfl, Or.inr hba⟩
      · exact ⟨Or.inr hba, Or.inl rfl⟩
    · rintro x y (hl | ⟨rfl, rfl⟩ | ⟨rfl, rfl⟩)
      · exact Or.inl (h.symm x y hl)
      · exact Or.inr (Or.inr ⟨rfl, rfl⟩)
      · exact Or.inr (Or.inl ⟨rfl, rfl⟩)
    · rintro x y z (hl | ⟨rfl, rfl⟩ | ⟨rfl, rfl⟩) (hl' | ⟨he, rfl⟩ | ⟨he, rfl⟩)
      · exact h.unique x y z hl hl'
      · exact absurd (he ▸ hl) (hfree y)
      · exact absurd (he ▸ hl) (hbf y)
      · exact absurd hl' (hfree z)
      · rfl
      · exact he.symm
      · exact absurd hl' (hbf z)
      · exact he.symm
      · rfl

/-- The elements of a run, after the ones that were there: nobody gets lost. -/
theorem Run.arrived (h : Run sees s as s') : s'.arrived = s.arrived ∪ {x | x ∈ as} := by
  induction h with
  | nil s => simp
  | cons hstep _ ih =>
    rw [ih]
    cases hstep with
    | alone =>
      ext x
      simp [State.alone, or_assoc, or_left_comm]
    | matched =>
      ext x
      simp [State.matched, or_assoc, or_left_comm]

/-- A list of arrivals that are all new, and no two of them the same. -/
def Fresh (s : State α) (as : List α) : Prop := as.Nodup ∧ ∀ a ∈ as, a ∉ s.arrived

theorem Fresh.tail (h : Fresh s (a :: as)) (hs : Step sees s a s') : Fresh s' as := by
  obtain ⟨hnd, hnew⟩ := h
  obtain ⟨hna, hnd⟩ := List.nodup_cons.mp hnd
  refine ⟨hnd, fun b hb hba => ?_⟩
  have hins : b ∈ insert a s.arrived := by
    cases hs with
    | alone => exact hba
    | matched => exact hba
  rcases hins with rfl | hba
  · exact hna hb
  · exact hnew b (List.mem_cons_of_mem _ hb) hba

theorem Matching.run (h : Matching s) (hf : Fresh s as) (hr : Run sees s as s') :
    Matching s' := by
  induction hr with
  | nil => exact h
  | cons hstep _ ih => exact ih (h.step (hf.2 _ (List.mem_cons_self ..)) hstep) (hf.tail hstep)

/-- Between two elements that are there, a run neither makes nor breaks a match: matches are made at
arrival only. -/
theorem Run.link_of_arrived (hf : Fresh s as) (hr : Run sees s as s') {x y : α}
    (hx : x ∈ s.arrived) (hy : y ∈ s.arrived) : s'.link x y ↔ s.link x y := by
  induction hr with
  | nil => exact Iff.rfl
  | @cons s s₁ s₂ a as hstep _ ih =>
    have ha := hf.2 a (List.mem_cons_self ..)
    have hf' := hf.tail hstep
    cases hstep with
    | alone => exact ih hf' (Or.inr hx) (Or.inr hy)
    | matched b =>
      rw [ih hf' (Or.inr hx) (Or.inr hy)]
      refine ⟨?_, ?_⟩
      · rintro (hl | ⟨rfl, -⟩ | ⟨-, rfl⟩)
        · exact hl
        · exact absurd hx ha
        · exact absurd hy ha
      · exact Or.inl

/-! ## Order of arrival

When the matching is the same for every order is decided by what the elements see of each other, and
nothing else. -/

/-- Seeing is symmetric among the elements, and nobody sees two of them. -/
structure OrderFree (sees : α → α → Prop) (events : List α) : Prop where
  symm : ∀ a ∈ events, ∀ b ∈ events, sees a b → sees b a
  unique : ∀ a ∈ events, ∀ b ∈ events, ∀ c ∈ events, sees a b → sees a c → b = c

/-- One arrival of an order-free set: it is matched with the one it sees, if that one is there, and
it is offered no other. -/
theorem OrderFree.step {events : List α} (h : OrderFree sees events)
    (hsub : ∀ x ∈ s.arrived, x ∈ events) (ha : a ∈ events) (hna : a ∉ s.arrived)
    (hlink : ∀ x y, s.link x y ↔ x ∈ s.arrived ∧ y ∈ s.arrived ∧ sees x y)
    (hirr : ¬ sees a a) (hs : Step sees s a s') :
    ∀ x y, s'.link x y ↔ x ∈ s'.arrived ∧ y ∈ s'.arrived ∧ sees x y := by
  -- whoever the arrival sees is still free: it could only be matched with the arrival
  have hfree : ∀ b ∈ s.arrived, sees a b → s.Free b := by
    intro b hb hab c hl
    obtain ⟨-, hc, hbc⟩ := (hlink b c).mp hl
    have hba := h.symm a ha b (hsub b hb) hab
    exact hna (h.unique b (hsub b hb) a ha c (hsub c hc) hba hbc ▸ hc)
  intro x y
  cases hs with
  | alone hno =>
    have hnone : ∀ b ∈ s.arrived, ¬ sees a b := by
      intro b hb hab
      obtain ⟨c, ⟨hc, -, hac⟩, hne⟩ := hno b ⟨hb, hfree b hb hab, hab⟩
      exact hne (h.unique a ha c (hsub c hc) b (hsub b hb) hac hab)
    refine ⟨?_, ?_⟩
    · intro hl
      obtain ⟨hx, hy, hxy⟩ := (hlink x y).mp hl
      exact ⟨Or.inr hx, Or.inr hy, hxy⟩
    · rintro ⟨rfl | hx, rfl | hy, hxy⟩
      · exact absurd hxy hirr
      · exact absurd hxy (hnone y hy)
      · exact absurd (h.symm x (hsub x hx) y ha hxy) (hnone x hx)
      · exact (hlink x y).mpr ⟨hx, hy, hxy⟩
  | matched b hb =>
    obtain ⟨hb, -, hab⟩ := hb
    have hbe := hsub b hb
    refine ⟨?_, ?_⟩
    · rintro (hl | ⟨rfl, rfl⟩ | ⟨rfl, rfl⟩)
      · obtain ⟨hx, hy, hxy⟩ := (hlink x y).mp hl
        exact ⟨Or.inr hx, Or.inr hy, hxy⟩
      · exact ⟨Or.inl rfl, Or.inr hb, hab⟩
      · exact ⟨Or.inr hb, Or.inl rfl, h.symm y ha x hbe hab⟩
    · rintro ⟨rfl | hx, rfl | hy, hxy⟩
      · exact absurd hxy hirr
      · exact Or.inr (Or.inl ⟨rfl, h.unique x ha y (hsub y hy) b hbe hxy hab⟩)
      · have hyx := h.symm x (hsub x hx) y ha hxy
        exact Or.inr (Or.inr ⟨h.unique y ha x (hsub x hx) b hbe hyx hab, rfl⟩)
      · exact Or.inl ((hlink x y).mpr ⟨hx, hy, hxy⟩)

/-- **The matching of an order-free set is what its elements see**, in whichever order they
arrive. -/
theorem Run.link_iff {events : List α} (h : OrderFree sees events)
    (hirr : ∀ a ∈ events, ¬ sees a a) (hr : Run sees s as s') (hf : Fresh s as)
    (hsub : ∀ x ∈ s.arrived, x ∈ events) (has : ∀ x ∈ as, x ∈ events)
    (hlink : ∀ x y, s.link x y ↔ x ∈ s.arrived ∧ y ∈ s.arrived ∧ sees x y) :
    ∀ x y, s'.link x y ↔ x ∈ s'.arrived ∧ y ∈ s'.arrived ∧ sees x y := by
  induction hr with
  | nil => exact hlink
  | @cons s s₁ s₂ a as hstep _ ih =>
    have ha := has a (List.mem_cons_self ..)
    refine ih (hf.tail hstep) ?_ (fun x hx => has x (List.mem_cons_of_mem _ hx))
      (h.step hsub ha (hf.2 a (List.mem_cons_self ..)) hlink (hirr a ha) hstep)
    intro x hx
    have hins : x ∈ insert a s.arrived := by
      cases hstep with
      | alone => exact hx
      | matched => exact hx
    rcases hins with rfl | hx
    · exact ha
    · exact hsub x hx

/-- The first two arrivals of a run are matched exactly if the second sees the first: there is
nobody else to offer. -/
theorem Run.first_two {a b : α} {rest : List α} (hnd : (a :: b :: rest).Nodup)
    (hr : Run sees State.empty (a :: b :: rest) s') : s'.link b a ↔ sees b a := by
  have hf : Fresh State.empty (a :: b :: rest) := ⟨hnd, fun _ _ h => h⟩
  rcases hr with _ | ⟨hs₁, hr₁⟩
  rcases hr₁ with _ | ⟨hs₂, hr₂⟩
  have hf₂ := (hf.tail hs₁).tail hs₂
  rcases hs₁ with _ | ⟨_, ⟨hc, -⟩⟩
  swap
  · exact hc.elim
  -- only the first arrival is there when the second arrives
  have honly : ∀ c, Offered sees (State.empty.alone a) b c → c = a :=
    fun c hc => hc.1.elim id fun h => h.elim
  rcases hs₂ with hno | ⟨c, hc⟩
  · rw [Run.link_of_arrived hf₂ hr₂ (Or.inl rfl) (Or.inr (Or.inl rfl))]
    refine ⟨?_, ?_⟩
    · exact fun hl => hl.elim
    · intro hba
      obtain ⟨c, hc, hne⟩ := hno a ⟨Or.inl rfl, fun _ hl => hl, hba⟩
      exact absurd (honly c hc) hne
  · obtain rfl := honly c hc
    rw [Run.link_of_arrived hf₂ hr₂ (Or.inl rfl) (Or.inr (Or.inl rfl))]
    exact ⟨fun _ => hc.2.2, fun _ => Or.inr (Or.inl ⟨rfl, rfl⟩)⟩

/-- Two different members of a list can be moved to its front. -/
theorem exists_perm_front {events : List α} {a b : α} (ha : a ∈ events) (hb : b ∈ events)
    (hne : a ≠ b) : ∃ rest, (a :: b :: rest).Perm events := by
  obtain ⟨l₁, l₂, rfl⟩ := List.append_of_mem ha
  have hb' : b ∈ l₁ ++ l₂ := by
    rcases List.mem_append.mp hb with hb | hb
    · exact List.mem_append_left _ hb
    · rcases List.mem_cons.mp hb with rfl | hb
      · exact absurd rfl hne
      · exact List.mem_append_right _ hb
  obtain ⟨m₁, m₂, hm⟩ := List.append_of_mem hb'
  refine ⟨m₁ ++ m₂, ?_⟩
  calc (a :: b :: (m₁ ++ m₂)).Perm (a :: (m₁ ++ b :: m₂)) := (List.perm_middle.symm).cons a
    _ = a :: (l₁ ++ l₂) := by rw [hm]
    List.Perm _ (l₁ ++ a :: l₂) := List.perm_middle.symm

/-- **Order independence, exactly.** A matcher gives the same matching for every order of
arrival if and only if the set is order free. -/
theorem orderFree_iff {events : List α} (hnd : events.Nodup) (hirr : ∀ a ∈ events, ¬ sees a a)
    (result : List α → State α)
    (hrun : ∀ order, order.Perm events → Run sees State.empty order (result order)) :
    (∀ o₁ o₂, o₁.Perm events → o₂.Perm events →
      ∀ a b, (result o₁).link a b ↔ (result o₂).link a b) ↔ OrderFree sees events := by
  have hfresh : ∀ order, order.Perm events → Fresh State.empty order :=
    fun order hp => ⟨hp.nodup_iff.mpr hnd, fun _ _ h => h⟩
  have hmatch : ∀ order, order.Perm events → Matching (result order) :=
    fun order hp => matching_empty.run (hfresh order hp) (hrun order hp)
  refine ⟨?_, ?_⟩
  · intro hsame
    have hsymm : ∀ a ∈ events, ∀ b ∈ events, sees a b → sees b a := by
      intro a ha b hb hab
      have hne : a ≠ b := fun he => hirr a ha (he ▸ hab)
      obtain ⟨r₁, hp₁⟩ := exists_perm_front hb ha hne.symm
      obtain ⟨r₂, hp₂⟩ := exists_perm_front ha hb hne
      have hl := (Run.first_two (hfresh _ hp₁).1 (hrun _ hp₁)).mpr hab
      have hl' := (hmatch _ hp₂).symm a b ((hsame _ _ hp₁ hp₂ a b).mp hl)
      exact (Run.first_two (hfresh _ hp₂).1 (hrun _ hp₂)).mp hl'
    refine ⟨hsymm, fun a ha b hb c hc hab hac => ?_⟩
    -- the first to come after `a` gets it, whichever of the two it is
    have hne : ∀ x ∈ events, sees a x → a ≠ x := fun x _ hax he => hirr a ha (he ▸ hax)
    obtain ⟨r₁, hp₁⟩ := exists_perm_front ha hb (hne b hb hab)
    obtain ⟨r₂, hp₂⟩ := exists_perm_front ha hc (hne c hc hac)
    have hlb := (Run.first_two (hfresh _ hp₁).1 (hrun _ hp₁)).mpr (hsymm a ha b hb hab)
    have hlc := (Run.first_two (hfresh _ hp₂).1 (hrun _ hp₂)).mpr (hsymm a ha c hc hac)
    have hlc' := (hmatch _ hp₁).symm c a ((hsame _ _ hp₁ hp₂ c a).mpr hlc)
    exact (hmatch _ hp₁).unique a b c ((hmatch _ hp₁).symm b a hlb) hlc'
  · intro h o₁ o₂ hp₁ hp₂ a b
    have hiff : ∀ order, order.Perm events →
        ((result order).link a b ↔ a ∈ events ∧ b ∈ events ∧ sees a b) := by
      intro order hp
      have hl := Run.link_iff h hirr (hrun order hp) (hfresh order hp) (fun _ hx => hx.elim)
        (fun x hx => hp.mem_iff.mp hx) (fun x y => ⟨fun h => h.elim, fun h => h.1.elim⟩) a b
      rw [hl, (hrun order hp).arrived]
      simp [State.empty, hp.mem_iff]
    rw [hiff o₁ hp₁, hiff o₂ hp₂]

end OnlineMatching
