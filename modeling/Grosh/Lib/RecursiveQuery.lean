import Mathlib.Algebra.Order.BigOperators.Group.List
import Mathlib.Algebra.Order.Group.Nat

/-!
# Recursive queries

`WITH RECURSIVE … UNION ALL …`: the first part of the query fills a working table, the second
part makes the next working table from the present one, and the result is all of them. The query
ends when a working table is empty, which no one promises.

PostgreSQL gives no order to the rows and no bound to the rounds. The result is therefore a relation
between the query and a list of rows, and not a function, and that there is one has to be shown for
each query.

* `Evaluates.unique` — a query has at most one result.
* `exists_evaluates` — a query ends if each new row is smaller than a row it is made of.
-/

universe u

namespace RecursiveQuery

variable {ρ : Type u} {step : List ρ → List ρ} {working rows rows' : List ρ}

/-- The query, from a working table on, ends with these rows. Each round replaces the working table
by what its rows lead to. -/
inductive Evaluates (step : List ρ → List ρ) : List ρ → List ρ → Prop where
  /-- an empty working table ends the query -/
  | done : Evaluates step [] []
  /-- the rows of the working table, then those of the rounds that follow -/
  | round {working rest : List ρ} (nonempty : working ≠ [])
      (next : Evaluates step (step working) rest) : Evaluates step working (working ++ rest)

/-- A working table of one row comes first, and what it leads to behind it. -/
theorem Evaluates.cons {r : ρ} (h : Evaluates step (step [r]) rows) :
    Evaluates step [r] (r :: rows) :=
  .round (List.cons_ne_nil r []) h

/-- **A query has at most one result**: nothing is left open in any round. -/
theorem Evaluates.unique (h : Evaluates step working rows) (h' : Evaluates step working rows') :
    rows = rows' := by
  induction h generalizing rows' with
  | done =>
    cases h' with
    | done => rfl
    | round nonempty => exact absurd rfl nonempty
  | round nonempty next ih =>
    cases h' with
    | done => exact absurd rfl nonempty
    | round _ next' => rw [ih next']

/-- **A query ends** if each new row is smaller than a row it is made of. The induction is on a
bound of the working table. -/
theorem exists_evaluates (size : ρ → ℕ)
    (hstep : ∀ working, ∀ r' ∈ step working, ∃ r ∈ working, size r' < size r) (working : List ρ) :
    ∃ rows, Evaluates step working rows := by
  have hbound : ∀ n, ∀ working : List ρ, (∀ r ∈ working, size r < n) →
      ∃ rows, Evaluates step working rows := by
    intro n
    induction n with
    | zero =>
      intro working hsmall
      have hempty : working = [] :=
        List.eq_nil_iff_forall_not_mem.mpr fun r hr => Nat.not_lt_zero _ (hsmall r hr)
      rw [hempty]
      exact ⟨[], .done⟩
    | succ n ih =>
      intro working hsmall
      by_cases hempty : working = []
      · rw [hempty]
        exact ⟨[], .done⟩
      obtain ⟨rest, hrest⟩ := ih (step working) fun r' hr' => by
        obtain ⟨r, hr, hlt⟩ := hstep working r' hr'
        exact Nat.lt_of_lt_of_le hlt (Nat.lt_succ_iff.mp (hsmall r hr))
      exact ⟨working ++ rest, .round hempty hrest⟩
  apply hbound ((working.map size).sum + 1) working
  intro r hr
  exact Nat.lt_succ_of_le (List.le_sum_of_mem (List.mem_map_of_mem hr))

end RecursiveQuery
