import Grosh.Lib.ReadCommitted

/-!
# What a transaction commits, and when

A transaction chooses each statement from what the earlier ones have returned. What it can
commit is therefore a matter of its program alone: `Program.Commits` looks at every answer the
statements may get, and `Program.Opens` ties the outcome to what the first statement has seen.

Beside a run one can keep a book (`Ledger`) of when each transaction began, on which committed
database, and when it committed. The steps do not read it (`logged`).

* `Placed.step` — in every run a transaction has not begun, or can only commit what fits the
  database it began on.
* `logged_cases` — a step commits one transaction, or leaves the database and the commits alone.
-/

universe u v w

namespace ReadCommitted

open Transition

variable {D : Type u} {κ : Type v} {τ : Type w}

/-! ## What a program can commit -/

/-- Whatever the statements return, the transaction ends with changes of which `Q` holds, or
without a commit. -/
def Program.Commits (Q : (D → D) → Prop) : Program D κ → (D → D) → Prop
  | .read next, change => ∀ d, (next d).Commits Q change
  | .lock _ found next, change =>
    ∀ d held d', (∀ k ∈ held, k ∈ found d) → (next held d').Commits Q change
  | .write f rest, change => rest.Commits Q fun d => f (change d)
  | .commit, change => Q change
  | .rollback, _ => True

theorem Program.Commits.mono {Q Q' : (D → D) → Prop} (hQ : ∀ change, Q change → Q' change)
    {p : Program D κ} : ∀ {change : D → D}, p.Commits Q change → p.Commits Q' change := by
  induction p with
  | read next ih => exact fun h d => ih d (h d)
  | lock one found next ih => exact fun h d held d' hheld => ih held d' (h d held d' hheld)
  | write f rest ih => exact fun h => ih h
  | commit => exact fun h => hQ _ h
  | rollback => exact fun _ => trivial

/-- The same of a transaction under way, from where it is. -/
def Phase.Commits (Q : (D → D) → Prop) : Phase D κ → (D → D) → Prop
  | .running p, change => p.Commits Q change
  | .locking _ _ next waiting held, change =>
    ∀ held' d, (∀ k ∈ held', k ∈ held ∨ k ∈ waiting) → (next held' d).Commits Q change
  | .ended _, _ => True

/-- Whatever the statements return, the changes the transaction commits fit the database `d` that
its first statement has seen. -/
def Program.Opens (Q : D → (D → D) → Prop) : Program D κ → Prop
  | .read next => ∀ d, (next d).Commits (Q d) id
  | .lock _ found next =>
    ∀ d held d', (∀ k ∈ held, k ∈ found d) → (next held d').Commits (Q d) id
  | .write f rest => ∀ d, rest.Commits (Q d) f
  | .commit => ∀ d, Q d id
  | .rollback => True

/-! ## The book of a run -/

/-- When each transaction began, with the database that was committed then, and when it committed.
The clock counts the steps. -/
structure Ledger (D : Type u) (τ : Type w) : Type (max u w) where
  clock : ℕ
  began : τ → Option (ℕ × D)
  committed : τ → Option ℕ

/-- Nothing has happened: no transaction has begun, and the clock shows zero. -/
def Ledger.start : Ledger D τ := ⟨0, fun _ => none, fun _ => none⟩

/-- The step is a commit: the transaction that moves has nothing left to do but that. -/
def State.commits (s : State D κ τ) : Label τ → Bool
  | .run i =>
    match (s.tx i).phase with
    | .running .commit => true
    | _ => false
  | .abort _ => false

theorem State.commits_eq_true {s : State D κ τ} {l : Label τ} :
    s.commits l = true ↔ ∃ i, l = .run i ∧ (s.tx i).phase = .running .commit := by
  cases l with
  | abort i =>
    refine iff_of_false (fun h => by cases h) ?_
    rintro ⟨j, hj, -⟩
    cases hj
  | run i =>
    simp only [State.commits]
    split
    · next hp => exact iff_of_true rfl ⟨i, rfl, hp⟩
    · next hne =>
      refine iff_of_false (fun h => by cases h) ?_
      rintro ⟨j, hj, hp⟩
      cases hj
      exact hne hp

/-- A run with its book, which is kept beside the state and never read by it. -/
abbrev Logged (D : Type u) (κ : Type v) (τ : Type w) : Type (max u v w) :=
  State D κ τ × Ledger D τ

variable [DecidableEq τ] [DecidableEq κ]

/-- What the book keeps of a step: who begins with it, and who commits. -/
def Ledger.record (s : State D κ τ) (h : Ledger D τ) (l : Label τ) : Ledger D τ where
  clock := h.clock + 1
  began := Function.update h.began l.who ((h.began l.who).or (some (h.clock, s.db)))
  committed :=
    if s.commits l then Function.update h.committed l.who (some h.clock) else h.committed

/-- A step with its entry: the step is the system's own. -/
def logged : Logged D κ τ → Label τ → Option (Logged D κ τ) :=
  traced State.step Ledger.record

variable {s s' : Logged D κ τ} {l : Label τ} {i j : τ} {Q : D → (D → D) → Prop}
  {p : Program D κ}

theorem step_of_logged (h : logged s l = some s') : s.1.step l = some s'.1 :=
  (traced_eq_some h).1

theorem clock_of_logged (h : logged s l = some s') : s'.2.clock = s.2.clock + 1 := by
  rw [(traced_eq_some h).2]
  rfl

/-- **A step commits** one transaction, or leaves the database and the commits alone. -/
theorem logged_cases (h : logged s l = some s') :
    (∃ i, l = .run i ∧ (s.1.tx i).phase = .running .commit ∧ s'.1.db = s.1.view i ∧
      s'.2.committed = Function.update s.2.committed i (some s.2.clock)) ∨
    s.1.commits l = false ∧ s'.1.db = s.1.db ∧ s'.2.committed = s.2.committed := by
  obtain ⟨hs, hh⟩ := traced_eq_some h
  rcases hc : s.1.commits l with _ | _
  · refine Or.inr ⟨rfl, ?_, by rw [hh, Ledger.record, hc]; rfl⟩
    obtain hdb | ⟨i, rfl, hp, -⟩ := State.db_step hs
    · exact hdb
    · rw [State.commits_eq_true.mpr ⟨i, rfl, hp⟩] at hc
      cases hc
  · obtain ⟨i, rfl, hp⟩ := State.commits_eq_true.mp hc
    refine Or.inl ⟨i, rfl, hp, ?_, by rw [hh, Ledger.record, hc]; rfl⟩
    simp only [State.step, State.runStep, hp] at hs
    rw [← Option.some.inj hs]
    rfl

/-- **The commit of one transaction**: its view becomes the database, at the time of the clock. -/
theorem logged_commit (h : logged s (.run j) = some s')
    (hp : (s.1.tx j).phase = .running .commit) :
    s'.1.db = s.1.view j ∧ s'.2.committed j = some s.2.clock := by
  obtain ⟨i, hl, -, hdb, hcommitted⟩ | ⟨hno, -⟩ := logged_cases h
  · cases hl
    exact ⟨hdb, by rw [hcommitted, Function.update_self]⟩
  · rw [State.commits_eq_true.mpr ⟨j, rfl, hp⟩] at hno
    cases hno

theorem began_of_ne (h : logged s l = some s') (hj : j ≠ l.who) :
    s'.2.began j = s.2.began j := by
  rw [(traced_eq_some h).2]
  exact Function.update_of_ne hj _ _

theorem began_self (h : logged s l = some s') :
    s'.2.began l.who = (s.2.began l.who).or (some (s.2.clock, s.1.db)) := by
  rw [(traced_eq_some h).2]
  exact Function.update_self ..

/-- A beginning stays in the book: a transaction begins once. -/
theorem began_mono (h : logged s l = some s') {b : ℕ × D} (hb : s.2.began j = some b) :
    s'.2.began j = some b := by
  by_cases hj : j = l.who
  · subst hj
    rw [began_self h, hb]
    rfl
  · rw [began_of_ne h hj, hb]

/-- A beginning is an old one, or the step's. -/
theorem began_cases (h : logged s l = some s') {b : ℕ × D} (hb : s'.2.began j = some b) :
    s.2.began j = some b ∨ j = l.who ∧ s.2.began j = none ∧ b = (s.2.clock, s.1.db) := by
  by_cases hj : j = l.who
  · subst hj
    rw [began_self h] at hb
    rcases hold : s.2.began l.who with _ | b'
    · rw [hold] at hb
      exact Or.inr ⟨rfl, rfl, (Option.some.inj hb).symm⟩
    · rw [hold] at hb
      exact Or.inl hb
  · rw [began_of_ne h hj] at hb
    exact Or.inl hb

/-- A commit in the book is an old one, or the step's. -/
theorem committed_cases (h : logged s l = some s') {n : ℕ} (hn : s'.2.committed j = some n) :
    s.2.committed j = some n ∨
      n = s.2.clock ∧ l = .run j ∧ (s.1.tx j).phase = .running .commit := by
  obtain ⟨i, rfl, hp, -, hc⟩ | ⟨-, -, hc⟩ := logged_cases h
  · rw [hc] at hn
    by_cases hj : j = i
    · subst hj
      rw [Function.update_self] at hn
      exact Or.inr ⟨(Option.some.inj hn).symm, rfl, hp⟩
    · rw [Function.update_of_ne hj] at hn
      exact Or.inl hn
  · rw [hc] at hn
    exact Or.inl hn

/-- The book agrees with the state, and tells the past only. It holds in every run. -/
structure Sound (s : Logged D κ τ) : Prop where
  began_lt : ∀ i b, s.2.began i = some b → b.1 < s.2.clock
  committed_lt : ∀ i n, s.2.committed i = some n → n < s.2.clock
  committed_iff : ∀ i, s.2.committed i ≠ none ↔ (s.1.tx i).phase = .ended true

omit [DecidableEq τ] [DecidableEq κ] in
theorem sound_start {db : D} {program : τ → Program D κ} :
    Sound (State.start db program, Ledger.start) :=
  ⟨fun i b h => (by cases h), fun i n h => (by cases h),
    fun i => iff_of_false (fun h => h rfl) fun h => by cases h⟩

theorem Sound.step (hsound : Sound s) (h : logged s l = some s') : Sound s' := by
  refine ⟨fun i b hb => ?_, fun i n hn => ?_, fun i => ?_⟩
  · rw [clock_of_logged h]
    obtain hb | ⟨-, -, rfl⟩ := began_cases h hb
    · exact Nat.lt_succ_of_lt (hsound.began_lt i b hb)
    · exact Nat.lt_succ_self _
  · rw [clock_of_logged h]
    obtain hn | ⟨rfl, -, -⟩ := committed_cases h hn
    · exact Nat.lt_succ_of_lt (hsound.committed_lt i n hn)
    · exact Nat.lt_succ_self _
  · have hs := step_of_logged h
    obtain ⟨j, rfl, hp, -, hc⟩ | ⟨hq, -, hc⟩ := logged_cases h
    · rw [hc]
      by_cases hij : i = j
      · subst hij
        rw [Function.update_self]
        refine iff_of_true (fun h => by cases h) ?_
        simp only [State.step, State.runStep, hp] at hs
        rw [← Option.some.inj hs, State.finish_tx]
      · rw [Function.update_of_ne hij, State.tx_of_ne hs hij]
        exact hsound.committed_iff i
    · rw [hc, hsound.committed_iff]
      by_cases hij : i = l.who
      swap
      · rw [State.tx_of_ne hs hij]
      subst hij
      refine ⟨fun he => ?_, fun he => ?_⟩
      · cases l with
        | run i => simp [State.step, State.runStep, show (s.1.tx i).phase = _ from he] at hs
        | abort i => simp [State.step, show (s.1.tx i).phase = _ from he] at hs
      · obtain ⟨i, rfl, hm⟩ | ⟨i, rfl, -, heq⟩ := State.step_cases hs
        · rw [show Label.who (.run i) = i from rfl] at he
          generalize s'.1 = t at hm he
          cases hm with
          | commit hp =>
            rw [State.commits_eq_true.mpr ⟨i, rfl, hp⟩] at hq
            cases hq
          | _ => simp at he
        · rw [heq] at he
          simp [Label.who] at he

omit [DecidableEq τ] [DecidableEq κ] in
/-- A transaction that is about to commit has not committed. -/
theorem Sound.not_committed (hsound : Sound s) (hp : (s.1.tx i).phase = .running .commit) :
    s.2.committed i = none := by
  by_contra hne
  have hend := (hsound.committed_iff i).mp hne
  rw [hp] at hend
  cases hend

/-- What has committed stays so. -/
theorem Sound.committed_mono (hsound : Sound s) (h : logged s l = some s') {n : ℕ}
    (hn : s.2.committed j = some n) : s'.2.committed j = some n := by
  obtain ⟨i, -, hp, -, hc⟩ | ⟨-, -, hc⟩ := logged_cases h
  · rw [hc, Function.update_of_ne, hn]
    rintro rfl
    rw [hsound.not_committed hp] at hn
    cases hn
  · rw [hc, hn]

/-! ## What a transaction under way can commit -/

/-- The transaction has not begun, or can only commit what fits the database it began on. -/
def Placed (Q : D → (D → D) → Prop) (p : Program D κ) (s : Logged D κ τ) (i : τ) : Prop :=
  s.2.began i = none ∧ s.1.tx i = ⟨.running p, id⟩ ∨
    ∃ n d, s.2.began i = some (n, d) ∧ (s.1.tx i).phase.Commits (Q d) (s.1.tx i).change

omit [DecidableEq τ] [DecidableEq κ] in
theorem placed_start {db : D} {program : τ → Program D κ} :
    Placed Q (program i) (State.start db program, Ledger.start) i :=
  Or.inl ⟨rfl, rfl⟩

/-- A step under way only takes one of the branches the condition has looked at. -/
theorem Phase.Commits.move {s s' : State D κ τ} {Q : (D → D) → Prop}
    (h : (s.tx i).phase.Commits Q (s.tx i).change) (hm : State.Move s i s') :
    (s'.tx i).phase.Commits Q (s'.tx i).change := by
  cases hm with
  | read next hp =>
    rw [hp] at h
    rw [State.goto_tx]
    exact h _
  | search one found next hp =>
    rw [hp] at h
    rw [State.goto_tx]
    exact fun held d hheld => h _ held d fun k hk => (hheld k hk).resolve_left List.not_mem_nil
  | write f rest hp =>
    rw [hp] at h
    rw [State.wrote_tx]
    exact h
  | commit hp =>
    rw [State.finish_tx]
    exact trivial
  | rollback hp =>
    rw [State.finish_tx]
    exact trivial
  | lock one found next k waiting held hp =>
    rw [hp] at h
    rw [State.hold_tx]
    refine fun held' d hheld => h held' d fun k' hk' => ?_
    obtain hk' | hk' := hheld k' hk'
    · obtain hk' | hk' := List.mem_append.mp hk'
      · exact Or.inl hk'
      · exact Or.inr (List.mem_singleton.mp hk' ▸ List.mem_cons_self ..)
    · exact Or.inr (List.mem_cons_of_mem _ hk')
  | drop one found next k waiting held hp =>
    rw [hp] at h
    rw [State.goto_tx]
    exact fun held' d hheld => h held' d fun k' hk' =>
      (hheld k' hk').imp_right (List.mem_cons_of_mem _)
  | gather one found next waiting held hp =>
    rw [hp] at h
    rw [State.goto_tx]
    exact h held _ fun k hk => Or.inl hk

/-- **In every run** a transaction can only commit what its program allows. -/
theorem Phase.Commits.step {s s' : State D κ τ} {Q : τ → (D → D) → Prop}
    (h : ∀ i, (s.tx i).phase.Commits (Q i) (s.tx i).change) (hs : s.step l = some s') (i : τ) :
    (s'.tx i).phase.Commits (Q i) (s'.tx i).change := by
  by_cases hi : i = l.who
  swap
  · rw [State.tx_of_ne hs hi]
    exact h i
  obtain ⟨j, rfl, hm⟩ | ⟨j, rfl, -, rfl⟩ := State.step_cases hs
  · obtain rfl : i = j := hi
    exact (h i).move hm
  · obtain rfl : i = j := hi
    rw [State.finish_tx]
    exact trivial

/-- The first step, by which the transaction begins on the database that is committed. -/
theorem Program.Opens.move {s s' : State D κ τ} (hp : p.Opens Q)
    (h : s.tx i = ⟨.running p, id⟩) (hm : State.Move s i s') :
    (s'.tx i).phase.Commits (Q s.db) (s'.tx i).change := by
  have hview : s.view i = s.db := by
    rw [State.view, h]
    rfl
  cases hm with
  | read next hq =>
    obtain rfl := Phase.running.inj ((congrArg Tx.phase h).symm.trans hq)
    rw [State.goto_tx, hview, h]
    exact hp s.db
  | search one found next hq =>
    obtain rfl := Phase.running.inj ((congrArg Tx.phase h).symm.trans hq)
    rw [State.goto_tx, hview, h]
    exact fun held d hheld => hp s.db held d fun k hk =>
      (hheld k hk).resolve_left List.not_mem_nil
  | write f rest hq =>
    obtain rfl := Phase.running.inj ((congrArg Tx.phase h).symm.trans hq)
    rw [State.wrote_tx, h]
    exact hp s.db
  | commit hq =>
    rw [State.finish_tx]
    exact trivial
  | rollback hq =>
    rw [State.finish_tx]
    exact trivial
  | lock one found next k waiting held hq => cases (congrArg Tx.phase h).symm.trans hq
  | drop one found next k waiting held hq => cases (congrArg Tx.phase h).symm.trans hq
  | gather one found next waiting held hq => cases (congrArg Tx.phase h).symm.trans hq

/-- **In every run** a transaction can only commit what fits the database it began on. -/
theorem Placed.step (hp : p.Opens Q) (h : Placed Q p s i) (hs : logged s l = some s') :
    Placed Q p s' i := by
  have hstep := step_of_logged hs
  by_cases hi : i = l.who
  swap
  · rw [Placed, began_of_ne hs hi, State.tx_of_ne hstep hi]
    exact h
  subst hi
  obtain ⟨hb, htx⟩ | ⟨n, d, hb, hc⟩ := h
  · refine Or.inr ⟨s.2.clock, s.1.db, by rw [began_self hs, hb]; rfl, ?_⟩
    obtain ⟨i, rfl, hm⟩ | ⟨i, rfl, -, heq⟩ := State.step_cases hstep
    · exact hp.move htx hm
    · rw [heq, show Label.who (.abort i) = i from rfl, State.finish_tx]
      exact trivial
  · refine Or.inr ⟨n, d, began_mono hs hb, ?_⟩
    obtain ⟨i, rfl, hm⟩ | ⟨i, rfl, -, heq⟩ := State.step_cases hstep
    · exact hc.move hm
    · rw [heq, show Label.who (.abort i) = i from rfl, State.finish_tx]
      exact trivial

omit [DecidableEq τ] [DecidableEq κ] in
/-- What a transaction commits fits the database it began on, which the book remembers. -/
theorem Placed.commit (h : Placed Q p s i) (hne : p ≠ .commit)
    (hc : (s.1.tx i).phase = .running .commit) :
    ∃ n d, s.2.began i = some (n, d) ∧ Q d (s.1.tx i).change := by
  obtain ⟨-, htx⟩ | ⟨n, d, hb, hq⟩ := h
  · rw [htx] at hc
    exact absurd (Phase.running.inj hc) hne
  · rw [hc] at hq
    exact ⟨n, d, hb, hq⟩

end ReadCommitted
