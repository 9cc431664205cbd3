import Mathlib.Logic.Function.Basic
import Mathlib.Data.List.Forall2

/-!
# Row-level security

Tables with row-level security: a statement sees the rows that a policy of its session lets
through, and may write rows that a policy admits. A request is a program of statements (`Program`)
under one session. It is answered, or it is refused and rolled back, and a refusal says which: the
program has raised (`Refusal.raised`), a grant or a policy has denied a statement
(`Refusal.denied`), or a constraint of the tables has (`Refusal.violated`).

A policy speaks about one row at a time. What a session can do is therefore known row by row, and
carries over to every program:

* `table_eval` — what each statement does to the rows of a table, a program does;
* `others_eval` — a session leaves the rows it may not write as they are, whatever it executes;
* `kept_eval` — without a grant to delete every row keeps its place in the table;
* `agree_outcome` — what comes of a program depends on the rows the session may see only, unless a
  constraint refuses it: a constraint looks at all rows;
* `agree_serve` — in a run of requests of several sessions, the requests of those that may not
  write what the others see can be left out: the others are answered or refused the same, as long
  as the constraints refuse the same of them.
-/

namespace RowSecurity

/-! ## Policies

What a session may do with a row is asked of the policies of the table, each for one command or for
all. One that lets it through is enough. -/

/-- The commands a policy is for, and those a session may be granted. -/
inductive Command : Type where
  | select
  | insert
  | update
  | delete
  deriving DecidableEq

/-- A permissive policy on rows of type `R`, read in a session. Without a check of its own it checks
what is written by what it lets be seen. -/
structure Policy (S R : Type) : Type where
  /-- `FOR c`; `none` is `FOR ALL` -/
  command : Option Command
  /-- `USING` -/
  qual : S → R → Bool
  /-- `WITH CHECK`; `none` where the policy has none -/
  check : Option (S → R → Bool)

/-- The policy is for the command, or for all of them. -/
def Policy.covers {S R : Type} (p : Policy S R) (c : Command) : Bool :=
  p.command.all fun c' => decide (c' = c)

/-- The tables, their rows and who may do what with them: grants, columns, policies and
constraints. -/
structure Schema (T S : Type) (Row : T → Type) : Type where
  /-- the commands a session may execute on a table at all -/
  granted : S → T → Command → Bool
  /-- the columns a session may update, as a relation between the row and its successor -/
  columns : S → ∀ t, Row t → Row t → Bool
  /-- the policies of a table; `none` where row security is off -/
  policies : ∀ t, Option (List (Policy S (Row t)))
  /-- the constraints of the tables -/
  admissible : (∀ t, List (Row t)) → Bool

/-- Why a request is refused. The three are told apart since only the last depends on rows that the
session does not see. -/
inductive Refusal : Type where
  /-- the program has raised an exception of its own -/
  | raised
  /-- a grant is missing, or a policy does not admit a row -/
  | denied
  /-- the tables would break a constraint -/
  | violated
  deriving DecidableEq

variable {T S : Type} {Row : T → Type} {α β : Type}

/-- The rows of each table, in physical order. -/
abbrev Db (Row : T → Type) : Type := ∀ t, List (Row t)

namespace Schema

variable (σ : Schema T S Row)

/-- A policy for the command lets the row through. A table without row security lets through all of
them. -/
def passes (c : Command) (s : S) (t : T) (r : Row t) : Bool :=
  (σ.policies t).all fun ps => ps.any fun p => p.covers c && p.qual s r

/-- A policy for the command admits the row as a new one: one that is inserted, or what an update
leaves. -/
def admits (c : Command) (s : S) (t : T) (r : Row t) : Bool :=
  (σ.policies t).all fun ps => ps.any fun p => p.covers c && (p.check.getD p.qual) s r

/-- An `UPDATE` or `DELETE` with this condition takes the row: it has to be visible too. -/
def takes (c : Command) (s : S) (t : T) (w : Row t → Bool) (r : Row t) : Bool :=
  σ.passes .select s t r && σ.passes c s t r && w r

/-- The rows after an `UPDATE`: those it takes are replaced in their places. -/
def updated (s : S) (t : T) (w : Row t → Bool) (f : Row t → Row t) (rows : List (Row t)) :
    List (Row t) :=
  rows.map fun r => if σ.takes .update s t w r then f r else r

/-- The rows a `DELETE` leaves, in their order. -/
def kept (s : S) (t : T) (w : Row t → Bool) (rows : List (Row t)) : List (Row t) :=
  rows.filter fun r => !σ.takes .delete s t w r

/-- The session may replace the row by this one, which has to be visible. -/
def mayReplace (s : S) (t : T) (r r' : Row t) : Bool :=
  σ.admits .update s t r' && σ.passes .select s t r' && σ.columns s t r r'

/-- An update of the session can put the one row in the place of the other: it may update the table,
sees the row, and the policies let it take the row and admit the other. -/
structure Replaces (s : S) (t : T) (r r' : Row t) : Prop where
  granted : σ.granted s t .update
  visible : σ.passes .select s t r
  taken : σ.passes .update s t r
  replace : σ.mayReplace s t r r'

end Schema

/-! ## Rows that keep their places -/

/-- Every row keeps its place, as it is or replaced by one that is related to it; other rows come
behind them. -/
def Kept {R : Type} (P : R → R → Prop) (rows rows' : List R) : Prop :=
  List.Forall₂ P rows (rows'.take rows.length)

namespace Kept

variable {R : Type} {P : R → R → Prop} {rows rows' rows'' : List R}

theorem refl (hrefl : ∀ r, P r r) : Kept P rows rows := by
  rw [Kept, List.take_length]
  exact List.forall₂_same.mpr fun r _ => hrefl r

theorem append (hrefl : ∀ r, P r r) : Kept P rows (rows ++ rows') := by
  rw [Kept, List.take_left]
  exact List.forall₂_same.mpr fun r _ => hrefl r

theorem map {f : R → R} (h : ∀ r ∈ rows, P r (f r)) : Kept P rows (rows.map f) := by
  rw [Kept, List.take_of_length_le (Nat.le_of_eq (List.length_map f)),
    List.forall₂_map_right_iff]
  exact List.forall₂_same.mpr h

theorem imp {P' : R → R → Prop} (h : Kept P rows rows') (himp : ∀ r r', P r r' → P' r r') :
    Kept P' rows rows' := List.Forall₂.imp (fun _ _ => himp _ _) h

theorem length_le (h : Kept P rows rows') : rows.length ≤ rows'.length := by
  have hlength := List.Forall₂.length_eq h
  rw [List.length_take] at hlength
  omega

theorem forall₂_trans (htrans : ∀ r₁ r₂ r₃, P r₁ r₂ → P r₂ r₃ → P r₁ r₃)
    (h : List.Forall₂ P rows rows') (h' : List.Forall₂ P rows' rows'') :
    List.Forall₂ P rows rows'' := by
  induction h generalizing rows'' with
  | nil => exact h'
  | cons hr _ ih =>
    obtain ⟨r₃, l₃, hr', hl', rfl⟩ := List.forall₂_cons_left_iff.mp h'
    exact .cons (htrans _ _ _ hr hr') (ih hl')

theorem trans (h : Kept P rows rows') (htrans : ∀ r₁ r₂ r₃, P r₁ r₂ → P r₂ r₃ → P r₁ r₃)
    (h' : Kept P rows' rows'') : Kept P rows rows'' := by
  have htake := List.forall₂_take rows.length h'
  rw [List.take_take, Nat.min_eq_left h.length_le] at htake
  exact forall₂_trans htrans h htake

theorem exists_mem (h : Kept P rows rows') : ∀ r ∈ rows, ∃ r' ∈ rows', P r r' := by
  intro r hr
  obtain ⟨i, hi, rfl⟩ := List.getElem_of_mem hr
  have hi' : i < (rows'.take rows.length).length := List.Forall₂.length_eq h ▸ hi
  exact ⟨_, List.mem_of_mem_take (List.getElem_mem hi'), h.get hi hi'⟩

end Kept

/-! ## Programs

A request is a tree of statements: what one returns chooses those that follow. An exception ends
it. -/

/-- The statements of a request, each with the rows it returns. -/
inductive Program (Row : T → Type) (α : Type) : Type where
  | answer (a : α)
  /-- an exception -/
  | raise
  | select (t : T) (w : Row t → Bool) (k : List (Row t) → Program Row α)
  | insert (t : T) (r : Row t) (returning : Bool) (k : Program Row α)
  | update (t : T) (w : Row t → Bool) (f : Row t → Row t) (k : List (Row t) → Program Row α)
  | delete (t : T) (w : Row t → Bool) (k : List (Row t) → Program Row α)

namespace Program

/-- One program after another: the second is chosen by the answer of the first. -/
protected def bind : Program Row α → (α → Program Row β) → Program Row β
  | answer a, g => g a
  | raise, _ => raise
  | select t w k, g => select t w fun rows => (k rows).bind g
  | insert t r returning k, g => insert t r returning (k.bind g)
  | update t w f k, g => update t w f fun rows => (k rows).bind g
  | delete t w k, g => delete t w fun rows => (k rows).bind g

instance : Monad (Program Row) where
  pure := answer
  bind := Program.bind

/-- `SELECT`: the rows the condition asks for, of those the session sees. -/
def fetch (t : T) (w : Row t → Bool) : Program Row (List (Row t)) := select t w answer

/-- `INSERT`, with or without `RETURNING`. -/
def create (t : T) (r : Row t) (returning : Bool) : Program Row Unit :=
  insert t r returning (answer ())

/-- `UPDATE … RETURNING`: the rows as they are afterwards. -/
def modify (t : T) (w : Row t → Bool) (f : Row t → Row t) : Program Row (List (Row t)) :=
  update t w f answer

/-- `DELETE … RETURNING`: the rows as they were. -/
def remove (t : T) (w : Row t → Bool) : Program Row (List (Row t)) := delete t w answer

variable [DecidableEq T] (σ : Schema T S Row) (s : S)

/-- What comes of a program: its answer and the tables it leaves, or the first refusal. The policies
are checked before the constraints. -/
def outcome : Program Row α → Db Row → Except Refusal (α × Db Row)
  | answer a, db => .ok (a, db)
  | raise, _ => .error .raised
  | select t w k, db =>
    if σ.granted s t .select then
      (k ((db t).filter fun r => σ.passes .select s t r && w r)).outcome db
    else .error .denied
  | insert t r returning k, db =>
    if σ.granted s t .insert ∧ σ.admits .insert s t r ∧
        (returning → σ.granted s t .select ∧ σ.passes .select s t r) then
      if σ.admissible (Function.update db t (db t ++ [r])) then
        k.outcome (Function.update db t (db t ++ [r]))
      else .error .violated
    else .error .denied
  | update t w f k, db =>
    if σ.granted s t .select ∧ σ.granted s t .update ∧
        ∀ r ∈ db t, σ.takes .update s t w r → σ.mayReplace s t r (f r) then
      if σ.admissible (Function.update db t (σ.updated s t w f (db t))) then
        (k (((db t).filter (σ.takes .update s t w)).map f)).outcome
          (Function.update db t (σ.updated s t w f (db t)))
      else .error .violated
    else .error .denied
  | delete t w k, db =>
    if σ.granted s t .select ∧ σ.granted s t .delete then
      if σ.admissible (Function.update db t (σ.kept s t w (db t))) then
        (k ((db t).filter (σ.takes .delete s t w))).outcome
          (Function.update db t (σ.kept s t w (db t)))
      else .error .violated
    else .error .denied

/-- The answer of a program and the tables it leaves; `none` where it is refused, for whichever
reason. -/
def eval (p : Program Row α) (db : Db Row) : Option (α × Db Row) := (p.outcome σ s db).toOption

variable {σ s} {db db' : Db Row}

@[simp] theorem eval_pure (a : α) : (pure a : Program Row α).eval σ s db = some (a, db) := rfl

@[simp] theorem eval_answer (a : α) : (answer a : Program Row α).eval σ s db = some (a, db) := rfl

@[simp] theorem eval_raise : (raise : Program Row α).eval σ s db = none := rfl

theorem eval_eq_some_iff {p : Program Row α} {x : α × Db Row} :
    p.eval σ s db = some x ↔ p.outcome σ s db = .ok x := by
  rw [eval]
  cases p.outcome σ s db <;> simp [Except.toOption]

/-- Two checks in a row are one. -/
theorem toOption_ite {ε β : Type*} {p q : Prop} [Decidable p] [Decidable q] {x : Except ε β}
    {e e' : ε} : (if p then if q then x else .error e else .error e').toOption =
      if p ∧ q then x.toOption else none := by
  by_cases hp : p <;> by_cases hq : q <;> simp [hp, hq, Except.toOption]

theorem eval_select {t : T} {w : Row t → Bool} {k : List (Row t) → Program Row α} :
    (select t w k).eval σ s db = if σ.granted s t .select then
      (k ((db t).filter fun r => σ.passes .select s t r && w r)).eval σ s db else none := by
  rw [eval, outcome]
  split <;> rfl

theorem eval_insert {t : T} {r : Row t} {returning : Bool} {k : Program Row α} :
    (insert t r returning k).eval σ s db =
      if σ.granted s t .insert ∧ σ.admits .insert s t r ∧
          (returning → σ.granted s t .select ∧ σ.passes .select s t r) ∧
          σ.admissible (Function.update db t (db t ++ [r])) then
        k.eval σ s (Function.update db t (db t ++ [r]))
      else none := by
  rw [eval, outcome, toOption_ite]
  exact if_congr (by simp only [and_assoc]) rfl rfl

theorem eval_update {t : T} {w : Row t → Bool} {f : Row t → Row t}
    {k : List (Row t) → Program Row α} :
    (update t w f k).eval σ s db =
      if σ.granted s t .select ∧ σ.granted s t .update ∧
          (∀ r ∈ db t, σ.takes .update s t w r → σ.mayReplace s t r (f r)) ∧
          σ.admissible (Function.update db t (σ.updated s t w f (db t))) then
        (k (((db t).filter (σ.takes .update s t w)).map f)).eval σ s
          (Function.update db t (σ.updated s t w f (db t)))
      else none := by
  rw [eval, outcome, toOption_ite]
  exact if_congr (by simp only [and_assoc]) rfl rfl

theorem eval_delete {t : T} {w : Row t → Bool} {k : List (Row t) → Program Row α} :
    (delete t w k).eval σ s db =
      if σ.granted s t .select ∧ σ.granted s t .delete ∧
          σ.admissible (Function.update db t (σ.kept s t w (db t))) then
        (k ((db t).filter (σ.takes .delete s t w))).eval σ s
          (Function.update db t (σ.kept s t w (db t)))
      else none := by
  rw [eval, outcome, toOption_ite]
  exact if_congr (by simp only [and_assoc]) rfl rfl

/-- **One program after another**: what is refused in the first is refused in both. -/
theorem outcome_bind (p : Program Row α) (g : α → Program Row β) (db : Db Row) :
    (p >>= g).outcome σ s db = (p.outcome σ s db).bind fun x => (g x.1).outcome σ s x.2 := by
  change (p.bind g).outcome σ s db = _
  induction p generalizing db with
  | answer a => rfl
  | raise => rfl
  | select t w k ih =>
    simp only [Program.bind, outcome]
    split
    · exact ih _ db
    · rfl
  | insert t r returning k ih =>
    simp only [Program.bind, outcome]
    split_ifs
    · exact ih _
    · rfl
    · rfl
  | update t w f k ih =>
    simp only [Program.bind, outcome]
    split_ifs
    · exact ih _ _
    · rfl
    · rfl
  | delete t w k ih =>
    simp only [Program.bind, outcome]
    split_ifs
    · exact ih _ _
    · rfl
    · rfl

theorem eval_bind (p : Program Row α) (g : α → Program Row β) (db : Db Row) :
    (p >>= g).eval σ s db = (p.eval σ s db).bind fun x => (g x.1).eval σ s x.2 := by
  rw [eval, outcome_bind, eval]
  cases p.outcome σ s db <;> rfl

/-- No program breaks a constraint: a statement that would do so refuses the request. -/
theorem admissible_eval (h : σ.admissible db = true) {p : Program Row α} {a : α}
    (he : p.eval σ s db = some (a, db')) : σ.admissible db' = true := by
  induction p generalizing db with
  | answer a => simp_all
  | raise => cases he
  | select t w k ih =>
    simp only [eval_select] at he
    split at he
    · exact ih _ h he
    · cases he
  | insert t r returning k ih =>
    simp only [eval_insert] at he
    split at he
    · next hg => exact ih hg.2.2.2 he
    · cases he
  | update t w f k ih =>
    simp only [eval_update] at he
    split at he
    · next hg => exact ih _ hg.2.2.2 he
    · cases he
  | delete t w k ih =>
    simp only [eval_delete] at he
    split at he
    · next hg => exact ih _ hg.2.2 he
    · cases he

/-! ### The statements -/

theorem eval_fetch {t : T} {w : Row t → Bool} {rows : List (Row t)} :
    (fetch t w).eval σ s db = some (rows, db') ↔ σ.granted s t .select ∧
      rows = (db t).filter (fun r => σ.passes .select s t r && w r) ∧ db' = db := by
  simp only [fetch, eval_select, eval_answer]
  split
  · next h => simp [h, eq_comm]
  · next h => simp [h]

theorem eval_create {t : T} {r : Row t} {returning : Bool} {x : Unit} :
    (create t r returning).eval σ s db = some (x, db') ↔
      (σ.granted s t .insert ∧ σ.admits .insert s t r ∧
        (returning → σ.granted s t .select ∧ σ.passes .select s t r) ∧
        σ.admissible (Function.update db t (db t ++ [r]))) ∧
      db' = Function.update db t (db t ++ [r]) := by
  simp only [create, eval_insert, eval_answer]
  split
  · next h =>
    exact ⟨fun heq => ⟨h, (congrArg Prod.snd (Option.some.inj heq)).symm⟩, fun hx => by rw [hx.2]⟩
  · next h => exact iff_of_false (fun heq => by cases heq) fun hx => h hx.1

theorem eval_modify {t : T} {w : Row t → Bool} {f : Row t → Row t} {rows : List (Row t)} :
    (modify t w f).eval σ s db = some (rows, db') ↔
      (σ.granted s t .select ∧ σ.granted s t .update ∧
        (∀ r ∈ db t, σ.takes .update s t w r → σ.mayReplace s t r (f r)) ∧
        σ.admissible (Function.update db t (σ.updated s t w f (db t)))) ∧
      rows = ((db t).filter (σ.takes .update s t w)).map f ∧
      db' = Function.update db t (σ.updated s t w f (db t)) := by
  simp only [modify, eval_update, eval_answer]
  split
  · next h =>
    refine ⟨fun heq => ?_, fun hx => by rw [hx.2.1, hx.2.2]⟩
    obtain ⟨hrows, hdb⟩ := Prod.mk.inj (Option.some.inj heq)
    exact ⟨h, hrows.symm, hdb.symm⟩
  · next h => exact iff_of_false (fun heq => by cases heq) fun hx => h hx.1

/-! ## Programs that write in one way

What all statements of a program have in common, said of the program: which rows it may insert, and
what it may put in the place of which. -/

/-- Every row the program may insert is `new`, and every row it may put in the place of another
relates to it by `same`. -/
def Writes (new : ∀ t, Row t → Prop) (same : ∀ t, Row t → Row t → Prop) : Program Row α → Prop
  | answer _ => True
  | raise => True
  | select _ _ k => ∀ rows, (k rows).Writes new same
  | insert t r _ k => new t r ∧ k.Writes new same
  | update t _ f k => (∀ r, same t r (f r)) ∧ ∀ rows, (k rows).Writes new same
  | delete _ _ k => ∀ rows, (k rows).Writes new same

section Writes

variable {new : ∀ t, Row t → Prop} {same : ∀ t, Row t → Row t → Prop}

omit [DecidableEq T] in
theorem Writes.bind {p : Program Row α} {g : α → Program Row β} (hp : p.Writes new same)
    (hg : ∀ a, (g a).Writes new same) : (p >>= g).Writes new same := by
  change (p.bind g).Writes new same
  induction p with
  | answer a => exact hg a
  | raise => trivial
  | select t w k ih => exact fun rows => ih rows (hp rows)
  | insert t r returning k ih => exact ⟨hp.1, ih hp.2⟩
  | update t w f k ih => exact ⟨hp.1, fun rows => ih rows (hp.2 rows)⟩
  | delete t w k ih => exact fun rows => ih rows (hp rows)

omit [DecidableEq T] in
@[simp] theorem writes_pure (a : α) : (pure a : Program Row α).Writes new same := trivial

omit [DecidableEq T] in
@[simp] theorem writes_raise : (raise : Program Row α).Writes new same := trivial

omit [DecidableEq T] in
@[simp] theorem writes_fetch (t : T) (w : Row t → Bool) : (fetch t w).Writes new same :=
  fun _ => trivial

omit [DecidableEq T] in
theorem writes_create {t : T} {r : Row t} {returning : Bool} (h : new t r) :
    (create t r returning).Writes new same := ⟨h, trivial⟩

omit [DecidableEq T] in
theorem writes_modify {t : T} {w : Row t → Bool} {f : Row t → Row t} (h : ∀ r, same t r (f r)) :
    (modify t w f).Writes new same := ⟨h, fun _ => trivial⟩

omit [DecidableEq T] in
@[simp] theorem writes_remove (t : T) (w : Row t → Bool) : (remove t w).Writes new same :=
  fun _ => trivial

omit [DecidableEq T] in
/-- Every program writes in some way: the condition that asks for nothing. -/
theorem writes_any (p : Program Row α) :
    p.Writes (fun _ _ => True) (fun _ _ _ => True) := by
  induction p with
  | answer a => trivial
  | raise => trivial
  | select t w k ih => exact ih
  | insert t r returning k ih => exact ⟨trivial, ih⟩
  | update t w f k ih => exact ⟨fun _ => trivial, ih⟩
  | delete t w k ih => exact ih

omit [DecidableEq T] in
theorem passes_of_takes {c : Command} {t : T} {w : Row t → Bool} {r : Row t}
    (h : σ.takes c s t w r = true) : σ.passes .select s t r ∧ σ.passes c s t r ∧ w r := by
  simpa [Schema.takes, and_assoc] using h

/-- **The rule of one table**: what each statement that the session may execute does to the rows of
a table, a program does. A statement adds a row that the policies admit, puts in the place of rows
such that the session can replace them by, or removes the rows a condition takes. -/
theorem table_eval {t : T} {Q : List (Row t) → List (Row t) → Prop} (hrefl : ∀ rows, Q rows rows)
    (htrans : ∀ l₁ l₂ l₃, Q l₁ l₂ → Q l₂ l₃ → Q l₁ l₃)
    (hinsert : ∀ rows r, σ.granted s t .insert → σ.admits .insert s t r → new t r →
      Q rows (rows ++ [r]))
    (hupdate : ∀ rows (g : Row t → Row t),
      (∀ r ∈ rows, g r = r ∨ σ.Replaces s t r (g r) ∧ same t r (g r)) → Q rows (rows.map g))
    (hdelete : ∀ rows w, σ.granted s t .delete → Q rows (σ.kept s t w rows))
    {p : Program Row α} (hp : p.Writes new same) {a : α} (he : p.eval σ s db = some (a, db')) :
    Q (db t) (db' t) := by
  -- a statement on another table leaves this one as it is
  have hother : ∀ (db : Db Row) (t' : T) (rows : List (Row t')),
      (∀ ht : t' = t, Q (db t) (ht ▸ rows)) → Q (db t) (Function.update db t' rows t) := by
    intro db t' rows hrows
    by_cases ht : t' = t
    · subst ht
      rw [Function.update_self]
      exact hrows rfl
    · rw [Function.update_of_ne (Ne.symm ht)]
      exact hrefl _
  induction p generalizing db with
  | answer a =>
    obtain ⟨-, rfl⟩ := Prod.mk.inj (Option.some.inj he)
    exact hrefl _
  | raise => cases he
  | select t' w k ih =>
    simp only [eval_select] at he
    split at he
    · exact ih _ (hp _) he
    · cases he
  | insert t' r returning k ih =>
    simp only [eval_insert] at he
    split at he
    swap
    · cases he
    next hg =>
    refine htrans _ _ _ (hother db t' _ ?_) (ih hp.2 he)
    rintro rfl
    exact hinsert _ r hg.1 hg.2.1 hp.1
  | update t' w f k ih =>
    simp only [eval_update] at he
    split at he
    swap
    · cases he
    next hg =>
    refine htrans _ _ _ (hother db t' _ ?_) (ih _ (hp.2 _) he)
    rintro rfl
    apply hupdate
    intro r hr
    by_cases ht : σ.takes .update s t' w r = true
    · obtain ⟨hselect, htaken, -⟩ := passes_of_takes ht
      rw [if_pos ht]
      exact Or.inr ⟨⟨hg.2.1, hselect, htaken, hg.2.2.1 r hr ht⟩, hp.1 r⟩
    · exact Or.inl (if_neg ht)
  | delete t' w k ih =>
    simp only [eval_delete] at he
    split at he
    swap
    · cases he
    next hg =>
    refine htrans _ _ _ (hother db t' _ ?_) (ih _ (hp _) he)
    rintro rfl
    exact hdelete _ w hg.2.1

/-- **What new rows have and replacements keep, all rows have** after such a program. -/
theorem forall_eval {t : T} {P : Row t → Prop} (hnew : ∀ r, new t r → P r)
    (hsame : ∀ r r', same t r r' → P r → P r') {p : Program Row α} (hp : p.Writes new same) {a : α}
    (he : p.eval σ s db = some (a, db')) : (∀ r ∈ db t, P r) → ∀ r ∈ db' t, P r := by
  refine table_eval (Q := fun rows rows' => (∀ r ∈ rows, P r) → ∀ r ∈ rows', P r) (fun _ h => h)
    (fun _ _ _ h h' hP => h' (h hP)) (fun rows r _ _ hr hP r' hr' => ?_)
    (fun rows g hg hP r' hr' => ?_) (fun rows w _ hP r' hr' => hP r' (List.mem_filter.mp hr').1)
    hp he
  · rcases List.mem_append.mp hr' with hr' | hr'
    · exact hP r' hr'
    · rw [List.mem_singleton.mp hr']
      exact hnew r hr
  · obtain ⟨r, hr, rfl⟩ := List.mem_map.mp hr'
    rcases hg r hr with heq | ⟨-, hrel⟩
    · rw [heq]
      exact hP r hr
    · exact hsame r _ hrel (hP r hr)

end Writes

/-! ### Rows stay -/

section Kept

variable {t : T} {P : Row t → Row t → Prop} (hrefl : ∀ r, P r r)
  (htrans : ∀ r₁ r₂ r₃, P r₁ r₂ → P r₂ r₃ → P r₁ r₃) (hdelete : σ.granted s t .delete = false)

include hrefl htrans hdelete

/-- **Rows stay**: without a grant to delete every row keeps its place in the table, and what stands
there is the row or what the session could put in its place. -/
theorem kept_eval {new : ∀ t, Row t → Prop} {same : ∀ t, Row t → Row t → Prop}
    (hsame : ∀ r r', σ.Replaces s t r r' → same t r r' → P r r')
    {p : Program Row α} (hp : p.Writes new same) {a : α} (he : p.eval σ s db = some (a, db')) :
    Kept P (db t) (db' t) := by
  refine table_eval (fun _ => .refl hrefl) (fun _ _ _ h h' => h.trans htrans h')
    (fun _ _ _ _ _ => .append hrefl) (fun rows g hg => .map fun r hr => ?_)
    (fun _ _ hd => absurd (hdelete.symm.trans hd) Bool.false_ne_true) hp he
  rcases hg r hr with heq | ⟨hreplaces, hrel⟩
  · rw [heq]
    exact hrefl r
  · exact hsame r _ hreplaces hrel

/-- A table in which a session may neither insert nor delete keeps its rows, each replaced as the
columns allow. -/
theorem forall₂_eval (hinsert : σ.granted s t .insert = false)
    (hcolumns : ∀ r r', σ.granted s t .update → σ.columns s t r r' → P r r') {p : Program Row α}
    {a : α} (he : p.eval σ s db = some (a, db')) : List.Forall₂ P (db t) (db' t) := by
  refine table_eval (Q := List.Forall₂ P) (fun rows => List.forall₂_same.mpr fun r _ => hrefl r)
    (fun _ _ _ h h' => Kept.forall₂_trans htrans h h')
    (fun _ _ hi => absurd (hinsert.symm.trans hi) Bool.false_ne_true) (fun rows g hg => ?_)
    (fun _ _ hd => absurd (hdelete.symm.trans hd) Bool.false_ne_true) (writes_any p) he
  rw [List.forall₂_map_right_iff]
  apply List.forall₂_same.mpr
  intro r hr
  rcases hg r hr with heq | ⟨hreplaces, -⟩
  · rw [heq]
    exact hrefl r
  · have hnew := hreplaces.replace
    simp only [Schema.mayReplace, Bool.and_eq_true] at hnew
    exact hcolumns r _ hreplaces.granted hnew.2

end Kept

/-! ## What a session leaves alone

The policies bound what a session can write, whatever statements it executes. -/

/-- Every row the session may write is one of its own, before and after. -/
structure Confined (σ : Schema T S Row) (s : S) (own : ∀ t, Row t → Bool) : Prop where
  inserted : ∀ t r, σ.granted s t .insert → σ.admits .insert s t r → own t r
  replaced : ∀ t r, σ.granted s t .update → σ.passes .select s t r → σ.passes .update s t r →
    own t r
  replacing : ∀ t r, σ.granted s t .update → σ.admits .update s t r → own t r
  deleted : ∀ t r, σ.granted s t .delete → σ.passes .select s t r → σ.passes .delete s t r →
    own t r

/-- The rows of a table that are not the session's own. -/
def others (own : ∀ t, Row t → Bool) (db : Db Row) (t : T) : List (Row t) :=
  (db t).filter fun r => !own t r

variable {own near : ∀ t, Row t → Bool}

/-- Replacing rows of `own` by rows of `own` leaves the other rows as they are, in their order. -/
theorem filter_map_of_own {R : Type} {own : R → Bool} {g : R → R} {rows : List R}
    (h : ∀ r ∈ rows, g r = r ∨ own r = true ∧ own (g r) = true) :
    (rows.map g).filter (fun r => !own r) = rows.filter fun r => !own r := by
  induction rows with
  | nil => rfl
  | cons r rows ih =>
    rw [List.map_cons]
    rcases h r (List.mem_cons_self ..) with hr | ⟨hr, hg⟩
    · rw [hr, List.filter_cons, List.filter_cons,
        ih fun r' hr' => h r' (List.mem_cons_of_mem _ hr')]
    · rw [List.filter_cons_of_neg (by simp [hg]), List.filter_cons_of_neg (by simp [hr]),
        ih fun r' hr' => h r' (List.mem_cons_of_mem _ hr')]

/-- **A session leaves the rows alone that it may not write**, whatever it executes. -/
theorem others_eval (h : Confined σ s own) {p : Program Row α} {a : α}
    (he : p.eval σ s db = some (a, db')) : ∀ t, others own db' t = others own db t := by
  intro t
  refine table_eval (Q := fun rows rows' =>
      rows'.filter (fun r => !own t r) = rows.filter fun r => !own t r) (fun _ => rfl)
    (fun _ _ _ h h' => h'.trans h) (fun rows r hg ha _ => ?_) (fun rows g hg => ?_)
    (fun rows w hg => ?_) (writes_any p) he
  · -- the row inserted passes the policy's check, so it is one's own
    simp [h.inserted t r hg ha]
  · refine filter_map_of_own fun r hr => (hg r hr).imp_right fun ⟨hreplaces, _⟩ => ?_
    -- the update takes and leaves only own rows
    have hnew := hreplaces.replace
    simp only [Schema.mayReplace, Bool.and_eq_true] at hnew
    exact ⟨h.replaced t r hreplaces.granted hreplaces.visible hreplaces.taken,
      h.replacing t _ hreplaces.granted hnew.1.1⟩
  · rw [Schema.kept, List.filter_filter]
    apply List.filter_congr
    intro r _
    by_cases ht : σ.takes .delete s t w r = true
    · obtain ⟨hselect, hdelete, -⟩ := passes_of_takes ht
      simp [h.deleted t r hg hselect hdelete]
    · simp [ht]

omit [DecidableEq T] in
/-- What is not the session's own is less, the more is: a larger `own` leaves less alone. -/
theorem Confined.mono {own' : ∀ t, Row t → Bool} (h : Confined σ s own)
    (hown : ∀ t r, own t r = true → own' t r = true) : Confined σ s own' :=
  ⟨fun t r hg ha => hown t r (h.inserted t r hg ha),
    fun t r hg hs hu => hown t r (h.replaced t r hg hs hu),
    fun t r hg ha => hown t r (h.replacing t r hg ha),
    fun t r hg hs hd => hown t r (h.deleted t r hg hs hd)⟩

/-! ## What a session depends on

The policies also bound what a session can learn, but for the constraints, which look at every
row. -/

/-- Every row the session may see is near. What lies beyond can be anything. -/
def Within (σ : Schema T S Row) (s : S) (near : ∀ t, Row t → Bool) : Prop :=
  ∀ t r, σ.passes .select s t r → near t r

/-- Two states with the same near rows, in the same order. All other rows may differ. -/
def Agree (near : ∀ t, Row t → Bool) (db₁ db₂ : Db Row) : Prop :=
  ∀ t, (db₁ t).filter (near t) = (db₂ t).filter (near t)

variable {db₁ db₂ db₁' db₂' : Db Row}

theorem agree_update {t : T} {rows₁ rows₂ : List (Row t)} (h : Agree near db₁ db₂)
    (hrows : rows₁.filter (near t) = rows₂.filter (near t)) :
    Agree near (Function.update db₁ t rows₁) (Function.update db₂ t rows₂) := by
  intro t'
  by_cases ht : t' = t
  · subst ht
    rw [Function.update_self, Function.update_self]
    exact hrows
  · rw [Function.update_of_ne ht, Function.update_of_ne ht]
    exact h t'

/-- A condition on near rows selects the same of both states. -/
theorem filter_eq_of_near {R : Type} {near q : R → Bool} {rows₁ rows₂ : List R}
    (h : rows₁.filter near = rows₂.filter near) (hq : ∀ r, q r = true → near r = true) :
    rows₁.filter q = rows₂.filter q := by
  have hsplit : ∀ rows : List R, rows.filter q = (rows.filter near).filter q := by
    intro rows
    rw [List.filter_filter]
    apply List.filter_congr
    intro r _
    by_cases hr : q r = true
    · simp [hr, hq r hr]
    · simp [hr]
  rw [hsplit rows₁, h, ← hsplit rows₂]

theorem mem_iff_of_near {R : Type} {near : R → Bool} {rows₁ rows₂ : List R} {r : R}
    (h : rows₁.filter near = rows₂.filter near) (hr : near r = true) : r ∈ rows₁ ↔ r ∈ rows₂ := by
  have hmem : ∀ rows : List R, r ∈ rows ↔ r ∈ rows.filter near := fun rows => by simp [hr]
  rw [hmem rows₁, h, ← hmem rows₂]

/-- A check that is not failed has been passed, and so has the rest. -/
theorem of_not_violated {p : Prop} [Decidable p] {x : Except Refusal α}
    (h : (if p then x else .error .violated) ≠ .error .violated) : p ∧ x ≠ .error .violated := by
  split at h
  · next hp => exact ⟨hp, h⟩
  · exact absurd rfl h

/-- A function that changes near rows only leaves two states in agreement. -/
theorem filter_map_eq_of_near {R : Type} {near : R → Bool} {g : R → R} {rows₁ rows₂ : List R}
    (h : rows₁.filter near = rows₂.filter near) (hg : ∀ r, near r = false → g r = r) :
    (rows₁.map g).filter near = (rows₂.map g).filter near := by
  have hsplit : ∀ rows : List R, (rows.map g).filter near =
      ((rows.filter near).map g).filter near := by
    intro rows
    induction rows with
    | nil => rfl
    | cons r rows ih =>
      rcases hr : near r with _ | _
      · rw [List.map_cons, hg r hr, List.filter_cons_of_neg (by simp [hr]),
          List.filter_cons_of_neg (by simp [hr]), ih]
      · rw [List.filter_cons_of_pos hr, List.map_cons, List.map_cons, List.filter_cons,
          List.filter_cons, ih]
  rw [hsplit rows₁, h, ← hsplit rows₂]

/-- Two outcomes of a program a session cannot tell apart: the same refusal, or the same answer with
tables that agree near the session. -/
inductive SameOutcome (near : ∀ t, Row t → Bool) :
    Except Refusal (α × Db Row) → Except Refusal (α × Db Row) → Prop where
  | refused (e : Refusal) : SameOutcome near (.error e) (.error e)
  | answered (a : α) {db₁ db₂ : Db Row} : Agree near db₁ db₂ →
      SameOutcome near (.ok (a, db₁)) (.ok (a, db₂))

omit [DecidableEq T] in
/-- Two statements that need the same privilege, and have to pass the constraints each in its own
tables: where the constraints refuse neither, what follows decides. -/
theorem SameOutcome.ite {p q₁ q₂ : Prop} [Decidable p] [Decidable q₁] [Decidable q₂]
    {x₁ x₂ : Except Refusal (α × Db Row)}
    (h₁ : (if p then if q₁ then x₁ else .error .violated else .error .denied) ≠ .error .violated)
    (h₂ : (if p then if q₂ then x₂ else .error .violated else .error .denied) ≠ .error .violated)
    (h : x₁ ≠ .error .violated → x₂ ≠ .error .violated → SameOutcome near x₁ x₂) :
    SameOutcome near (if p then if q₁ then x₁ else .error .violated else .error .denied)
      (if p then if q₂ then x₂ else .error .violated else .error .denied) := by
  split
  swap
  · exact .refused .denied
  next hp =>
  rw [if_pos hp] at h₁ h₂
  obtain ⟨hq₁, h₁⟩ := of_not_violated h₁
  obtain ⟨hq₂, h₂⟩ := of_not_violated h₂
  rw [if_pos hq₁, if_pos hq₂]
  exact h h₁ h₂

/-- **What comes of a session's program depends on the rows it may see only**, and so does what it
changes near them, unless a constraint refuses it: a constraint looks at the rows of others too. -/
theorem agree_outcome (h : Within σ s near) {p : Program Row α} (hagree : Agree near db₁ db₂)
    (h₁ : p.outcome σ s db₁ ≠ .error .violated) (h₂ : p.outcome σ s db₂ ≠ .error .violated) :
    SameOutcome near (p.outcome σ s db₁) (p.outcome σ s db₂) := by
  have htakes : ∀ c t w r, σ.takes c s t w r = true → near t r = true := fun c t w r ht =>
    h t r (passes_of_takes ht).1
  induction p generalizing db₁ db₂ with
  | answer a => exact .answered a hagree
  | raise => exact .refused .raised
  | select t w k ih =>
    simp only [outcome] at h₁ h₂ ⊢
    split
    swap
    · exact .refused .denied
    next hg =>
    rw [if_pos hg] at h₁ h₂
    have hrows : (db₁ t).filter (fun r => σ.passes .select s t r && w r) =
        (db₂ t).filter fun r => σ.passes .select s t r && w r := by
      apply filter_eq_of_near (hagree t)
      intro r hr
      rw [Bool.and_eq_true] at hr
      exact h t r hr.1
    rw [hrows] at h₁ ⊢
    exact ih _ hagree h₁ h₂
  | insert t r returning k ih =>
    simp only [outcome] at h₁ h₂ ⊢
    apply SameOutcome.ite h₁ h₂
    intro h₁ h₂
    refine ih (agree_update hagree ?_) h₁ h₂
    rw [List.filter_append, List.filter_append, hagree t]
  | update t w f k ih =>
    -- the rows the statement takes are near, so both tables have them
    have hmay : (∀ r ∈ db₁ t, σ.takes .update s t w r → σ.mayReplace s t r (f r)) ↔
        ∀ r ∈ db₂ t, σ.takes .update s t w r → σ.mayReplace s t r (f r) := by
      have hmem := fun r (ht : σ.takes .update s t w r = true) =>
        mem_iff_of_near (hagree t) (htakes .update t w r ht)
      exact ⟨fun hall r hr ht => hall r ((hmem r ht).mpr hr) ht,
        fun hall r hr ht => hall r ((hmem r ht).mp hr) ht⟩
    simp only [outcome, hmay] at h₁ h₂ ⊢
    apply SameOutcome.ite h₁ h₂
    intro h₁ h₂
    rw [filter_eq_of_near (hagree t) fun r => htakes .update t w r] at h₁ ⊢
    refine ih _ (agree_update hagree ?_) h₁ h₂
    refine filter_map_eq_of_near (hagree t) fun r hr => if_neg fun ht => ?_
    rw [htakes .update t w r ht] at hr
    cases hr
  | delete t w k ih =>
    simp only [outcome] at h₁ h₂ ⊢
    apply SameOutcome.ite h₁ h₂
    intro h₁ h₂
    rw [filter_eq_of_near (hagree t) fun r => htakes .delete t w r] at h₁ ⊢
    refine ih _ (agree_update hagree ?_) h₁ h₂
    simp only [Schema.kept, List.filter_filter]
    apply filter_eq_of_near (hagree t)
    intro r hr
    rw [Bool.and_eq_true] at hr
    exact hr.1

end Program

/-! ## Runs

Requests are served one after another, each in its own session and its own transaction. -/

variable [DecidableEq T] {σ : Schema T S Row} {near : ∀ t, Row t → Bool} {keep : S → Bool}

/-- A request: a program under a session, both chosen by whoever sends it. -/
structure Call (S : Type) (Row : T → Type) (α : Type) : Type where
  session : S
  program : Program Row α

/-- What a request is answered and the tables it leaves: a request that is refused is rolled back,
and leaves them as they are. -/
def Call.served (σ : Schema T S Row) (q : Call S Row α) (db : Db Row) :
    Except Refusal α × Db Row :=
  match q.program.outcome σ q.session db with
  | .ok (a, db') => (.ok a, db')
  | .error refusal => (.error refusal, db)

/-- The answers of requests served one after another, refusals among them. -/
def serve (σ : Schema T S Row) : List (Call S Row α) → Db Row → List (Except Refusal α) × Db Row
  | [], db => ([], db)
  | q :: qs, db =>
    ((q.served σ db).1 :: (serve σ qs (q.served σ db).2).1, (serve σ qs (q.served σ db).2).2)

/-- The answers of the sessions that are kept, in their order. -/
def keptAnswers (keep : S → Bool) : List (Call S Row α) → List β → List β
  | q :: qs, a :: as =>
    if keep q.session then a :: keptAnswers keep qs as else keptAnswers keep qs as
  | _, _ => []

/-- A constraint has refused the request: the one refusal that can depend on rows nobody in the
session sees. -/
def isViolation : Except Refusal α → Bool
  | .error .violated => true
  | _ => false

theorem isViolation_served {q : Call S Row α} {db : Db Row} :
    isViolation (q.served σ db).1 = true ↔
      q.program.outcome σ q.session db = .error .violated := by
  rw [Call.served]
  rcases q.program.outcome σ q.session db with refusal | ⟨a, db'⟩
  · cases refusal <;> simp [isViolation]
  · simp [isViolation]

/-- A request is refused, and leaves the tables as they are, or its program has run. -/
theorem Call.served_cases (q : Call S Row α) (db : Db Row) :
    (q.served σ db).2 = db ∨
      ∃ a, q.program.eval σ q.session db = some (a, (q.served σ db).2) := by
  rw [Call.served]
  rcases ho : q.program.outcome σ q.session db with refusal | ⟨a, db'⟩
  · exact Or.inl rfl
  · exact Or.inr ⟨a, Program.eval_eq_some_iff.mpr ho⟩

/-- A request of a session that sees near rows only is served the same in tables that agree near it,
if a constraint refuses it in both or in neither. -/
theorem agree_served {q : Call S Row α} {db₁ db₂ : Db Row}
    (h : Program.Within σ q.session near) (hagree : Program.Agree near db₁ db₂)
    (hv : isViolation (q.served σ db₁).1 = isViolation (q.served σ db₂).1) :
    (q.served σ db₁).1 = (q.served σ db₂).1 ∧
      Program.Agree near (q.served σ db₁).2 (q.served σ db₂).2 := by
  by_cases h₁ : q.program.outcome σ q.session db₁ = .error .violated
  · have h₂ := isViolation_served.mp (hv.symm.trans (isViolation_served.mpr h₁))
    simp only [Call.served, h₁, h₂]
    exact ⟨trivial, hagree⟩
  · have h₂ : q.program.outcome σ q.session db₂ ≠ .error .violated := fun h₂ =>
      h₁ (isViolation_served.mp (hv.trans (isViolation_served.mpr h₂)))
    have hsame := Program.agree_outcome h hagree h₁ h₂
    simp only [Call.served]
    generalize q.program.outcome σ q.session db₁ = o₁ at hsame
    generalize q.program.outcome σ q.session db₂ = o₂ at hsame
    cases hsame with
    | refused e => exact ⟨rfl, hagree⟩
    | answered a hagree' => exact ⟨rfl, hagree'⟩

/-- **Non-interference**: where the sessions that are kept see near rows only and the others may
write no near row, the others can be left out of a run: what is kept is served the same, if the
constraints refuse the same of it. -/
theorem agree_serve {qs : List (Call S Row α)} {db₁ db₂ : Db Row}
    (hkept : ∀ q ∈ qs, keep q.session = true → Program.Within σ q.session near)
    (hothers : ∀ q ∈ qs, keep q.session = false →
      Program.Confined σ q.session fun t r => !near t r)
    (hagree : Program.Agree near db₁ db₂)
    (hv : (keptAnswers keep qs (serve σ qs db₁).1).map isViolation =
      (serve σ (qs.filter fun q => keep q.session) db₂).1.map isViolation) :
    keptAnswers keep qs (serve σ qs db₁).1 =
        (serve σ (qs.filter fun q => keep q.session) db₂).1 ∧
      Program.Agree near (serve σ qs db₁).2
        (serve σ (qs.filter fun q => keep q.session) db₂).2 := by
  induction qs generalizing db₁ db₂ with
  | nil => exact ⟨rfl, hagree⟩
  | cons q qs ih =>
    have hkept' := fun q' hq' => hkept q' (List.mem_cons_of_mem q hq')
    have hothers' := fun q' hq' => hothers q' (List.mem_cons_of_mem q hq')
    rcases hkeep : keep q.session with _ | _
    · rw [List.filter_cons_of_neg (by simp [hkeep])] at hv ⊢
      simp only [serve, keptAnswers, hkeep, Bool.false_eq_true, if_false] at hv ⊢
      refine ih hkept' hothers' (fun t => ?_) hv
      refine Eq.trans ?_ (hagree t)
      obtain hdb | ⟨a, he⟩ := q.served_cases (σ := σ) db₁
      · rw [hdb]
      · have hnear := Program.others_eval (hothers q (List.mem_cons_self ..) hkeep) he t
        simpa only [Program.others, Bool.not_not] using hnear
    · rw [List.filter_cons, if_pos hkeep] at hv ⊢
      simp only [serve, keptAnswers, hkeep, if_true, List.map_cons, List.cons.injEq] at hv ⊢
      obtain ⟨hanswer, hagree'⟩ := agree_served (hkept q (List.mem_cons_self ..) hkeep) hagree hv.1
      obtain ⟨hrest, hfinal⟩ := ih hkept' hothers' hagree' hv.2
      exact ⟨⟨hanswer, hrest⟩, hfinal⟩

/-- **What every request that is not refused keeps, a run keeps**: the rule of induction on runs. -/
theorem serve_induction {I : Db Row → Prop} {qs : List (Call S Row α)} {db : Db Row}
    (hstep : ∀ q ∈ qs, ∀ db a db', I db → q.program.eval σ q.session db = some (a, db') → I db')
    (h : I db) : I (serve σ qs db).2 := by
  induction qs generalizing db with
  | nil => exact h
  | cons q qs ih =>
    refine ih (fun q' hq' => hstep q' (List.mem_cons_of_mem _ hq')) ?_
    obtain hdb | ⟨a, he⟩ := q.served_cases (σ := σ) db
    · exact hdb.symm ▸ h
    · exact hstep q (List.mem_cons_self ..) db a _ h he

end RowSecurity
