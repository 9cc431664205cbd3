import Mathlib.Logic.Function.Basic
import Grosh.Lib.Transition

/-!
# Concurrent transactions under READ COMMITTED

Any number of transactions run their statements in any order against one database. A
transaction is a `Program`: the statements it executes, each chosen from what the earlier ones
returned.

* A statement sees the committed database with the transaction's own changes.
* A statement that locks rows (`SELECT … FOR UPDATE`, or the search of an `UPDATE` or `DELETE`)
  takes the rows its condition finds when it starts, waits for each that another transaction
  holds, and then looks at the row again: a row the condition no longer finds is dropped.
* Changes become visible to others, and locks are released, when the transaction ends.

The database `D` and the keys `κ` of its rows are arbitrary. The rules are what a proof about
such a system needs: what one step does (`step_cases`), what it leaves to the other
transactions (`tx_of_ne`, `holder_iff_of_ne`), when the committed database changes (`db_step`),
and that a row somebody holds stays as it is until the holder ends (`mem_of_held`).
`Program.alone` is what a transaction does when nobody interferes (`exec_alone`), and
`Program.result` what it leaves if it commits.
-/

universe u v w

namespace ReadCommitted

open Transition

/-- What a transaction still has to do, as a tree: what a statement returns chooses the branch. -/
inductive Program (D : Type u) (κ : Type v) : Type (max u v) where
  /-- a `SELECT` -/
  | read (next : D → Program D κ)
  /-- lock the rows that are found, or with `one` the first of them, and look at what was
  locked -/
  | lock (one : Bool) (found : D → List κ) (next : List κ → D → Program D κ)
  /-- an `INSERT`, or a change of rows the transaction holds -/
  | write (change : D → D) (rest : Program D κ)
  | commit
  | rollback

/-- Where a transaction is: between two statements, inside one that locks rows, or at its end. -/
inductive Phase (D : Type u) (κ : Type v) : Type (max u v) where
  | running (rest : Program D κ)
  /-- inside a locking statement: the rows it has still to look at, and those it has locked -/
  | locking (one : Bool) (found : D → List κ) (next : List κ → D → Program D κ)
      (waiting held : List κ)
  | ended (committed : Bool)

/-- The transaction has committed: it is over, and was not rolled back. -/
def Phase.committed {D : Type u} {κ : Type v} : Phase D κ → Bool
  | .ended b => b
  | _ => false

theorem Phase.committed_iff {D : Type u} {κ : Type v} {p : Phase D κ} :
    p.committed = true ↔ p = .ended true := by
  cases p with
  | ended b => simp [committed]
  | _ => simp [committed]

/-- A transaction: where it is, and its uncommitted changes, as a function of the database they will
be applied to. -/
structure Tx (D : Type u) (κ : Type v) : Type (max u v) where
  phase : Phase D κ
  change : D → D

/-- The committed database, the holders of the row locks and the transactions. This is all that
transactions share. -/
structure State (D : Type u) (κ : Type v) (τ : Type w) : Type (max u v w) where
  db : D
  holder : κ → Option τ
  tx : τ → Tx D κ

/-- Who moves: one transaction at a time, by its own next step or by being rolled back. -/
inductive Label (τ : Type w) : Type w where
  /-- the transaction makes its next step -/
  | run (i : τ)
  /-- the transaction is rolled back from outside: a crash, a cancelled request -/
  | abort (i : τ)

/-- The transaction that moves, or is moved. -/
def Label.who {τ : Type w} : Label τ → τ
  | .run i => i
  | .abort i => i

variable {D : Type u} {κ : Type v} {τ : Type w}

/-- Transactions about to start: none has read or changed anything, and no lock is held. -/
def State.start (db : D) (program : τ → Program D κ) : State D κ τ :=
  ⟨db, fun _ => none, fun i => ⟨.running (program i), id⟩⟩

namespace State

/-- What a statement of the transaction sees: what is committed at that moment, with its own changes
on top. -/
def view (s : State D κ τ) (i : τ) : D := (s.tx i).change s.db

variable [DecidableEq τ]

/-- The transaction moves on, and nothing else changes. -/
def goto (s : State D κ τ) (i : τ) (phase : Phase D κ) : State D κ τ :=
  { s with tx := Function.update s.tx i ⟨phase, (s.tx i).change⟩ }

/-- The transaction changes its view. Nobody else sees it before the commit. -/
def wrote (s : State D κ τ) (i : τ) (change : D → D) (rest : Program D κ) : State D κ τ :=
  { s with
    tx := Function.update s.tx i ⟨.running rest, fun d => change ((s.tx i).change d)⟩ }

/-- The transaction ends: its locks are released, and `db` is what is committed from then on. -/
def finish (s : State D κ τ) (i : τ) (db : D) (committed : Bool) : State D κ τ where
  db := db
  holder := fun k => if s.holder k = some i then none else s.holder k
  tx := Function.update s.tx i ⟨.ended committed, (s.tx i).change⟩

variable [DecidableEq κ]

/-- The transaction locks a row, and keeps it until it ends. -/
def hold (s : State D κ τ) (i : τ) (k : κ) (phase : Phase D κ) : State D κ τ where
  db := s.db
  holder := Function.update s.holder k (some i)
  tx := Function.update s.tx i ⟨phase, (s.tx i).change⟩

/-- The next step of a transaction; `none` where it has ended or waits for a lock. -/
def runStep (s : State D κ τ) (i : τ) : Option (State D κ τ) :=
  match (s.tx i).phase with
  | .running (.read next) => some (s.goto i (.running (next (s.view i))))
  | .running (.lock one found next) =>
    some (s.goto i (.locking one found next (found (s.view i)) []))
  | .running (.write change rest) => some (s.wrote i change rest)
  | .running .commit => some (s.finish i (s.view i) true)
  | .running .rollback => some (s.finish i s.db false)
  | .locking _ _ next [] held => some (s.goto i (.running (next held (s.view i))))
  | .locking one found next (k :: waiting) held =>
    if one && !held.isEmpty then some (s.goto i (.running (next held (s.view i))))
    else if s.holder k ≠ none ∧ s.holder k ≠ some i then none
    else if k ∈ found (s.view i) then
      some (s.hold i k (.locking one found next waiting (held ++ [k])))
    else some (s.goto i (.locking one found next waiting held))
  | .ended _ => none

/-- **One step of the system.** A transaction that is not over can be rolled back at any time. -/
def step (s : State D κ τ) : Label τ → Option (State D κ τ)
  | .run i => s.runStep i
  | .abort i =>
    match (s.tx i).phase with
    | .ended _ => none
    | _ => some (s.finish i s.db false)

/-! ## Where the transaction is after its step -/

section Self

variable (s : State D κ τ) (i : τ)

omit [DecidableEq κ] in
@[simp] theorem goto_tx (phase : Phase D κ) :
    (s.goto i phase).tx i = ⟨phase, (s.tx i).change⟩ := Function.update_self ..

omit [DecidableEq κ] in
@[simp] theorem goto_view (phase : Phase D κ) : (s.goto i phase).view i = s.view i := by
  simp only [view, goto_tx]
  rfl

omit [DecidableEq κ] in
@[simp] theorem wrote_tx (change : D → D) (rest : Program D κ) :
    (s.wrote i change rest).tx i = ⟨.running rest, fun d => change ((s.tx i).change d)⟩ :=
  Function.update_self ..

omit [DecidableEq κ] in
@[simp] theorem finish_tx (db : D) (b : Bool) :
    (s.finish i db b).tx i = ⟨.ended b, (s.tx i).change⟩ := Function.update_self ..

@[simp] theorem hold_tx (k : κ) (phase : Phase D κ) :
    (s.hold i k phase).tx i = ⟨phase, (s.tx i).change⟩ := Function.update_self ..

@[simp] theorem hold_view (k : κ) (phase : Phase D κ) : (s.hold i k phase).view i = s.view i := by
  simp only [view, hold_tx]
  rfl

end Self

/-! ## What a step does

The inversion of a step, and what it says of the others: a step moves one transaction, takes no lock
from anybody else, and changes the database only at a commit. -/

/-- What a transaction can do, one constructor for each kind of statement and each way a lock may
go. -/
inductive Move (s : State D κ τ) (i : τ) : State D κ τ → Prop where
  | read (next : D → Program D κ) (h : (s.tx i).phase = .running (.read next)) :
      Move s i (s.goto i (.running (next (s.view i))))
  | search (one : Bool) (found : D → List κ) (next : List κ → D → Program D κ)
      (h : (s.tx i).phase = .running (.lock one found next)) :
      Move s i (s.goto i (.locking one found next (found (s.view i)) []))
  | write (change : D → D) (rest : Program D κ)
      (h : (s.tx i).phase = .running (.write change rest)) : Move s i (s.wrote i change rest)
  | commit (h : (s.tx i).phase = .running .commit) : Move s i (s.finish i (s.view i) true)
  | rollback (h : (s.tx i).phase = .running .rollback) : Move s i (s.finish i s.db false)
  /-- a row is free, or held already, and still found -/
  | lock (one : Bool) (found : D → List κ) (next : List κ → D → Program D κ) (k : κ)
      (waiting held : List κ) (h : (s.tx i).phase = .locking one found next (k :: waiting) held)
      (hone : one = true → held = []) (hfree : s.holder k = none ∨ s.holder k = some i)
      (hk : k ∈ found (s.view i)) :
      Move s i (s.hold i k (.locking one found next waiting (held ++ [k])))
  /-- a row is free and no longer found -/
  | drop (one : Bool) (found : D → List κ) (next : List κ → D → Program D κ) (k : κ)
      (waiting held : List κ) (h : (s.tx i).phase = .locking one found next (k :: waiting) held)
      (hone : one = true → held = []) (hfree : s.holder k = none ∨ s.holder k = some i)
      (hk : k ∉ found (s.view i)) : Move s i (s.goto i (.locking one found next waiting held))
  | gather (one : Bool) (found : D → List κ) (next : List κ → D → Program D κ)
      (waiting held : List κ) (h : (s.tx i).phase = .locking one found next waiting held)
      (hdone : waiting = [] ∨ one = true ∧ held ≠ []) :
      Move s i (s.goto i (.running (next held (s.view i))))

variable {s s' : State D κ τ} {l : Label τ} {i j : τ} {k : κ}

/-- **Inversion** of a step of a transaction: it is one of the moves. -/
theorem runStep_cases (h : s.runStep i = some s') : Move s i s' := by
  simp only [runStep] at h
  split at h
  · next next hp =>
    obtain rfl := Option.some.inj h
    exact .read next hp
  · next one found next hp =>
    obtain rfl := Option.some.inj h
    exact .search one found next hp
  · next change rest hp =>
    obtain rfl := Option.some.inj h
    exact .write change rest hp
  · next hp =>
    obtain rfl := Option.some.inj h
    exact .commit hp
  · next hp =>
    obtain rfl := Option.some.inj h
    exact .rollback hp
  · next one found next held hp =>
    obtain rfl := Option.some.inj h
    exact .gather one found next [] held hp (Or.inl rfl)
  · next one found next k waiting held hp =>
    split at h
    · next hdone =>
      obtain rfl := Option.some.inj h
      refine .gather one found next (k :: waiting) held hp (Or.inr ?_)
      simpa using hdone
    next hdone =>
    have hone : one = true → held = [] := by simpa using hdone
    split at h
    · cases h
    next hheld =>
    have hfree : s.holder k = none ∨ s.holder k = some i := by
      by_contra hno
      exact hheld (not_or.mp hno)
    split at h
    · next hk =>
      obtain rfl := Option.some.inj h
      exact .lock one found next k waiting held hp hone hfree hk
    · next hk =>
      obtain rfl := Option.some.inj h
      exact .drop one found next k waiting held hp hone hfree hk
  · cases h

/-- **Inversion** of a step: a move of the transaction, or its end without a commit. -/
theorem step_cases (h : s.step l = some s') :
    (∃ i, l = .run i ∧ Move s i s') ∨
    ∃ i, l = .abort i ∧ (∀ b, (s.tx i).phase ≠ .ended b) ∧ s' = s.finish i s.db false := by
  cases l with
  | run i => exact Or.inl ⟨i, rfl, runStep_cases h⟩
  | abort i =>
    simp only [step] at h
    split at h
    · cases h
    · next hne =>
      exact Or.inr ⟨i, rfl, fun b hb => hne b hb, (Option.some.inj h).symm⟩

/-- The other transactions stay where they are. -/
theorem tx_of_ne (h : s.step l = some s') (hj : j ≠ l.who) : s'.tx j = s.tx j := by
  rcases step_cases h with ⟨i, rfl, hm⟩ | ⟨i, rfl, -, rfl⟩
  · cases hm <;> exact Function.update_of_ne hj _ _
  · exact Function.update_of_ne hj _ _

omit [DecidableEq κ] in
theorem finish_holder_iff {db : D} {b : Bool} (hj : j ≠ i) :
    (s.finish i db b).holder k = some j ↔ s.holder k = some j := by
  simp only [finish]
  split
  · next hk =>
    apply iff_of_false (fun h => by cases h)
    intro h
    exact hj (Option.some.inj (h.symm.trans hk))
  · exact Iff.rfl

omit [DecidableEq κ] in
theorem finish_holder_self {db : D} {b : Bool} : (s.finish i db b).holder k ≠ some i := by
  simp only [finish]
  split
  · exact fun h => by cases h
  · next hk => exact hk

/-- The other transactions keep their locks, and get no new ones. -/
theorem holder_iff_of_ne (h : s.step l = some s') (hj : j ≠ l.who) :
    s'.holder k = some j ↔ s.holder k = some j := by
  rcases step_cases h with ⟨i, rfl, hm⟩ | ⟨i, rfl, -, rfl⟩
  · cases hm with
    | commit => exact finish_holder_iff hj
    | rollback => exact finish_holder_iff hj
    | lock one found next k' waiting held _ _ hfree =>
      simp only [hold]
      by_cases hk : k = k'
      · subst hk
        rw [Function.update_self]
        apply iff_of_false (fun he => hj (Option.some.inj he).symm)
        intro he
        rcases hfree with hfree | hfree
        · rw [hfree] at he
          cases he
        · exact hj (Option.some.inj (he.symm.trans hfree))
      · rw [Function.update_of_ne hk]
    | _ => exact Iff.rfl
  · exact finish_holder_iff hj

/-- The committed database changes at a commit alone. -/
theorem db_step (h : s.step l = some s') :
    s'.db = s.db ∨
      ∃ i, l = .run i ∧ (s.tx i).phase = .running .commit ∧ s' = s.finish i (s.view i) true := by
  rcases step_cases h with ⟨i, rfl, hm⟩ | ⟨i, rfl, -, rfl⟩
  · cases hm with
    | commit hp => exact Or.inr ⟨i, rfl, hp, rfl⟩
    | _ => exact Or.inl rfl
  · exact Or.inl rfl

/-! ## Rows that are held

A row lock protects a row from those who keep to the rule that only held rows are changed. -/

section Held

variable {ρ : Type*} {Mem : ρ → D → Prop} {key : ρ → κ} {r : ρ}

/-- The uncommitted changes of a transaction leave the rows alone that it does not hold. -/
def KeepsUnheld (Mem : ρ → D → Prop) (key : ρ → κ) (s : State D κ τ) (j : τ) : Prop :=
  ∀ r d, s.holder (key r) ≠ some j → Mem r d → Mem r ((s.tx j).change d)

/-- **A held row is stable**: as long as no transaction commits changes of rows it does not
hold, a row stays as it is until its holder ends. -/
theorem mem_of_held (hkeep : ∀ j, (s.tx j).phase = .running .commit → KeepsUnheld Mem key s j)
    (hr : Mem r s.db) (hheld : s.holder (key r) = some i) (h : s.step l = some s')
    (hi : i ≠ l.who) : Mem r s'.db := by
  rcases db_step h with hdb | ⟨j, rfl, hp, rfl⟩
  · rw [hdb]
    exact hr
  · refine hkeep j hp r s.db (fun hj => hi ?_) hr
    exact Option.some.inj (hheld.symm.trans hj)

end Held

end State

/-! ## A transaction alone

What a transaction does with nobody in between is a function of the database. Such a run exists, so
that nothing keeps a transaction from ending. -/

/-- What a transaction makes of the database when nobody interferes; `view` is what its next
statement sees. -/
def Program.alone : Program D κ → D → D → D
  | .read next, db, view => (next view).alone db view
  | .lock one found next, db, view =>
    (next (if one then (found view).take 1 else found view) view).alone db view
  | .write change rest, db, view => rest.alone db (change view)
  | .commit, _, view => view
  | .rollback, db, _ => db

/-- What a transaction leaves when nobody interferes and it commits. -/
def Program.result : Program D κ → D → Option D
  | .read next, view => (next view).result view
  | .lock one found next, view =>
    (next (if one then (found view).take 1 else found view) view).result view
  | .write change rest, view => rest.result (change view)
  | .commit, view => some view
  | .rollback, _ => none

/-- A transaction that does not commit leaves the database as it was. -/
theorem Program.alone_eq_result (p : Program D κ) (db : D) :
    ∀ view, p.alone db view = (p.result view).getD db := by
  induction p with
  | read next ih => exact fun view => ih view view
  | lock one found next ih => exact fun view => ih _ view view
  | write change rest ih => exact fun view => ih (change view)
  | commit => exact fun _ => rfl
  | rollback => exact fun _ => rfl

namespace State

variable [DecidableEq τ] [DecidableEq κ] {s s' : State D κ τ} {i : τ}

/-- Nobody else holds a lock, so that the transaction never waits. -/
def Alone (s : State D κ τ) (i : τ) : Prop := ∀ k, s.holder k = none ∨ s.holder k = some i

theorem Alone.hold (h : s.Alone i) (k : κ) (phase : Phase D κ) : (s.hold i k phase).Alone i := by
  intro k'
  simp only [State.hold]
  by_cases hk : k' = k
  · subst hk
    exact Or.inr (Function.update_self ..)
  · rw [Function.update_of_ne hk]
    exact h k'

/-- Alone, a locking statement gets every row it finds, or with `one` the first, without waiting for
any. -/
theorem exec_locking (one : Bool) (found : D → List κ) (next : List κ → D → Program D κ)
    (waiting : List κ) :
    ∀ (held : List κ) (s : State D κ τ), s.Alone i →
      (s.tx i).phase = .locking one found next waiting held →
      (∀ k ∈ waiting, k ∈ found (s.view i)) →
      ∃ labels s', exec step s labels = some s' ∧ s'.Alone i ∧ s'.db = s.db ∧
        s'.tx i = ⟨.running (next (if one && !held.isEmpty then held else
          held ++ if one then waiting.take 1 else waiting) (s.view i)), (s.tx i).change⟩ := by
  induction waiting with
  | nil =>
    intro held s ha hp _
    refine ⟨[.run i], s.goto i (.running (next held (s.view i))), ?_, ha, rfl, ?_⟩
    · simp [exec, step, runStep, hp]
    · simp
  | cons k waiting ih =>
    intro held s ha hp hfound
    by_cases hdone : (one && !held.isEmpty) = true
    · refine ⟨[.run i], s.goto i (.running (next held (s.view i))), ?_, ha, rfl, ?_⟩
      · simp [exec, step, runStep, hp, hdone]
      · simp [hdone]
    have hfree : ¬ (s.holder k ≠ none ∧ s.holder k ≠ some i) := by
      rintro ⟨hn, hi⟩
      exact (ha k).elim hn hi
    have hstep : s.step (.run i) =
        some (s.hold i k (.locking one found next waiting (held ++ [k]))) := by
      simp only [step, runStep, hp, if_neg hdone, if_neg hfree,
        if_pos (hfound k (List.mem_cons_self ..))]
    have hview : (s.hold i k (.locking one found next waiting (held ++ [k]))).view i =
        s.view i := hold_view ..
    obtain ⟨labels, s', he, ha', hdb, htx⟩ := ih (held ++ [k])
      (s.hold i k (.locking one found next waiting (held ++ [k])))
      (ha.hold k (.locking one found next waiting (held ++ [k])))
      (by rw [hold_tx]) fun k' hk' => hview ▸ hfound k' (List.mem_cons_of_mem _ hk')
    refine ⟨.run i :: labels, s', ?_, ha', hdb, ?_⟩
    · rw [exec_cons, hstep]
      exact he
    · rw [htx, hview]
      rcases one with _ | _
      · simp
      · have hnil : held = [] := by simpa using hdone
        subst hnil
        simp

/-- **Alone, a transaction ends** with the database `Program.alone` says. -/
theorem exec_alone (p : Program D κ) :
    ∀ (s : State D κ τ), s.Alone i → (s.tx i).phase = .running p →
      ∃ labels s', exec step s labels = some s' ∧ s'.db = p.alone s.db (s.view i) ∧
        ∃ b, (s'.tx i).phase = .ended b := by
  -- on the program: alone, a step reads what the transaction's last one left
  induction p with
  | read next ih =>
    intro s ha hp
    have hstep : s.step (.run i) = some (s.goto i (.running (next (s.view i)))) := by
      simp only [step, runStep, hp]
    obtain ⟨labels, s', he, hdb, hend⟩ := ih (s.view i)
      (s.goto i (.running (next (s.view i)))) ha (by rw [goto_tx])
    refine ⟨.run i :: labels, s', ?_, ?_, hend⟩
    · rw [exec_cons, hstep]
      exact he
    · rw [hdb, goto_view]
      rfl
  | lock one found next ih =>
    intro s ha hp
    have hstep : s.step (.run i) =
        some (s.goto i (.locking one found next (found (s.view i)) [])) := by
      simp only [step, runStep, hp]
    have hview : (s.goto i (.locking one found next (found (s.view i)) [])).view i =
        s.view i := goto_view ..
    -- no other transaction holds a key: the locks are taken one by one
    obtain ⟨labels, s₁, he, ha₁, hdb₁, htx⟩ := exec_locking one found next (found (s.view i)) []
      (s.goto i (.locking one found next (found (s.view i)) [])) ha (by rw [goto_tx])
      fun k hk => hview.symm ▸ hk
    have hview₁ : s₁.view i = s.view i := by
      rw [view, htx, hdb₁, goto_tx]
      rfl
    obtain ⟨labels', s', he', hdb, hend⟩ := ih _ _ s₁ ha₁ (by rw [htx])
    refine ⟨.run i :: (labels ++ labels'), s', ?_, ?_, hend⟩
    · rw [exec_cons, hstep, Option.bind_some, exec_append, he]
      exact he'
    · rw [hdb, hview₁, hdb₁, hview]
      simp only [Program.alone, List.isEmpty_nil, Bool.not_true, Bool.and_false,
        Bool.false_eq_true, if_false, List.nil_append]
      rfl
  | write change rest ih =>
    intro s ha hp
    have hstep : s.step (.run i) = some (s.wrote i change rest) := by
      simp only [step, runStep, hp]
    have hview : (s.wrote i change rest).view i = change (s.view i) := by
      rw [view, wrote_tx]
      rfl
    obtain ⟨labels, s', he, hdb, hend⟩ := ih (s.wrote i change rest) ha (by rw [wrote_tx])
    refine ⟨.run i :: labels, s', ?_, ?_, hend⟩
    · rw [exec_cons, hstep]
      exact he
    · rw [hdb, hview]
      rfl
  | commit =>
    intro s _ hp
    refine ⟨[.run i], s.finish i (s.view i) true, ?_, rfl, true, by rw [finish_tx]⟩
    simp [exec, step, runStep, hp]
  | rollback =>
    intro s _ hp
    refine ⟨[.run i], s.finish i s.db false, ?_, rfl, false, by rw [finish_tx]⟩
    simp [exec, step, runStep, hp]

end State

end ReadCommitted
