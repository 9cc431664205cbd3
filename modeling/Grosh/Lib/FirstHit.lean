import Mathlib.Data.List.Sort

/-!
# Searching in order of preference

Two ways to find the best of several things. A search probes candidates in order of preference
and stops at the first hit; a probe may raise, and then so does the search. A query sorts the
rows by a key and takes the first.

* `findSomeM?_eq_some`, `findSomeM?_eq_none` — what the outcome of a search says about its
  probes: everything before the hit missed.
* `orElse_eq_some`, `orElse_eq_none` — the same of two probes.
* `idxOf_le_of_hit` — no candidate that is not a miss is preferred to the hit.
* `head?_insertionSort` — the first of the sorted rows is a least one.
-/

universe u v w

namespace FirstHit

/-! ## The first hit -/

section Search

variable {ε : Type u} {α β : Type v} {probe : α → Except ε (Option β)} {x : α} {xs : List α}
  {b : β} {e : ε}

theorem findSomeM?_of_hit (h : probe x = .ok (some b)) :
    (x :: xs).findSomeM? probe = .ok (some b) := by
  rw [List.findSomeM?_cons, h]
  rfl

theorem findSomeM?_of_miss (h : probe x = .ok none) :
    (x :: xs).findSomeM? probe = xs.findSomeM? probe := by
  rw [List.findSomeM?_cons, h]
  rfl

theorem findSomeM?_of_error (h : probe x = .error e) :
    (x :: xs).findSomeM? probe = .error e := by
  rw [List.findSomeM?_cons, h]
  rfl

/-- A search without a hit has missed everywhere. -/
theorem findSomeM?_eq_none : xs.findSomeM? probe = .ok none ↔ ∀ x ∈ xs, probe x = .ok none := by
  induction xs with
  | nil => exact iff_of_true rfl fun _ h => absurd h List.not_mem_nil
  | cons x xs ih =>
    rw [List.forall_mem_cons]
    rcases h : probe x with e | _ | b
    · rw [findSomeM?_of_error h]
      exact iff_of_false (fun h => by cases h) fun h => by cases h.1
    · rw [findSomeM?_of_miss h, ih, and_iff_right rfl]
    · rw [findSomeM?_of_hit h]
      exact iff_of_false (fun h => by cases h) fun h => by cases h.1

/-- A search that hits has missed before. -/
theorem findSomeM?_eq_some :
    xs.findSomeM? probe = .ok (some b) ↔
      ∃ before x after, xs = before ++ x :: after ∧ (∀ y ∈ before, probe y = .ok none) ∧
        probe x = .ok (some b) := by
  constructor
  · induction xs with
    | nil => exact fun h => by cases h
    | cons x xs ih =>
      intro h
      rcases hx : probe x with e | _ | b'
      · rw [findSomeM?_of_error hx] at h
        cases h
      · rw [findSomeM?_of_miss hx] at h
        obtain ⟨before, y, after, rfl, hmiss, hy⟩ := ih h
        exact ⟨x :: before, y, after, rfl, List.forall_mem_cons.mpr ⟨hx, hmiss⟩, hy⟩
      · rw [findSomeM?_of_hit hx] at h
        exact ⟨[], x, xs, rfl, fun _ hy => absurd hy List.not_mem_nil, hx.trans h⟩
  · rintro ⟨before, x, after, rfl, hmiss, hx⟩
    induction before with
    | nil => exact findSomeM?_of_hit hx
    | cons y before ih =>
      obtain ⟨hy, hmiss⟩ := List.forall_mem_cons.mp hmiss
      rw [List.cons_append, findSomeM?_of_miss hy]
      exact ih hmiss

/-- Probes that agree on the candidates give the same search. -/
theorem findSomeM?_congr {probe' : α → Except ε (Option β)}
    (h : ∀ x ∈ xs, probe x = probe' x) : xs.findSomeM? probe = xs.findSomeM? probe' := by
  induction xs with
  | nil => rfl
  | cons x xs ih =>
    obtain ⟨hx, hxs⟩ := List.forall_mem_cons.mp h
    rw [List.findSomeM?_cons, List.findSomeM?_cons, hx, ih hxs]

/-- A search that raises has probed something that does. -/
theorem exists_of_findSomeM?_eq_error (h : xs.findSomeM? probe = .error e) :
    ∃ x ∈ xs, probe x = .error e := by
  induction xs with
  | nil => cases h
  | cons x xs ih =>
    rcases hx : probe x with e' | _ | b
    · rw [findSomeM?_of_error hx] at h
      exact ⟨x, List.mem_cons_self, hx.trans h⟩
    · rw [findSomeM?_of_miss hx] at h
      obtain ⟨y, hy, he⟩ := ih h
      exact ⟨y, List.mem_cons_of_mem _ hy, he⟩
    · rw [findSomeM?_of_hit hx] at h
      cases h

/-- **The hit is the preferred one**: nothing that does not miss comes before it. -/
theorem idxOf_le_of_hit [DecidableEq α] {before after : List α}
    (hsplit : xs = before ++ x :: after) (hmiss : ∀ y ∈ before, probe y = .ok none)
    (hx : probe x ≠ .ok none) {y : α} (hy : probe y ≠ .ok none) : xs.idxOf x ≤ xs.idxOf y := by
  have hnot : ∀ z, probe z ≠ .ok none → z ∉ before := fun z hz hmem => hz (hmiss z hmem)
  rw [hsplit, List.idxOf_append_of_notMem (hnot x hx), List.idxOf_append_of_notMem (hnot y hy),
    List.idxOf_cons_self]
  exact Nat.add_le_add_left (Nat.zero_le _) _

end Search

/-! ## Two probes -/

section Two

variable {ε : Type u} {β : Type v} {first second : Except ε (Option β)} {b : β} {e : ε}

/-- The first probe, and the second if it misses. -/
def orElse (first second : Except ε (Option β)) : Except ε (Option β) := do
  match ← first with
  | some b => return some b
  | none => second

theorem orElse_eq_none : orElse first second = .ok none ↔ first = .ok none ∧ second = .ok none := by
  rcases first with e | _ | b
  · exact iff_of_false (fun h => by cases h) fun h => by cases h.1
  · exact ⟨fun h => ⟨rfl, h⟩, fun h => h.2⟩
  · exact iff_of_false (fun h => by cases h) fun h => by cases h.1

theorem orElse_eq_some :
    orElse first second = .ok (some b) ↔
      first = .ok (some b) ∨ first = .ok none ∧ second = .ok (some b) := by
  rcases first with e | _ | b'
  · exact iff_of_false (fun h => by cases h) fun h => by rcases h with h | ⟨h, -⟩ <;> cases h
  · refine ⟨fun h => Or.inr ⟨rfl, h⟩, ?_⟩
    rintro (h | ⟨-, h⟩)
    · cases h
    · exact h
  · refine ⟨fun h => Or.inl h, ?_⟩
    rintro (h | ⟨h, -⟩)
    · exact h
    · cases h

theorem orElse_eq_error :
    orElse first second = .error e ↔ first = .error e ∨ first = .ok none ∧ second = .error e := by
  rcases first with e' | _ | b
  · refine ⟨fun h => Or.inl h, ?_⟩
    rintro (h | ⟨h, -⟩)
    · exact h
    · cases h
  · refine ⟨fun h => Or.inr ⟨rfl, h⟩, ?_⟩
    rintro (h | ⟨-, h⟩)
    · cases h
    · exact h
  · exact iff_of_false (fun h => by cases h) fun h => by rcases h with h | ⟨h, -⟩ <;> cases h

end Two

/-! ## The least row -/

/-- **The first of the sorted rows is a least one.** -/
theorem head?_insertionSort {ρ : Type u} {r : ρ → ρ → Prop} [DecidableRel r] [Std.Total r]
    [IsTrans ρ r] {rows : List ρ} {a : ρ} (h : (rows.insertionSort r).head? = some a) :
    a ∈ rows ∧ ∀ b ∈ rows, r a b := by
  obtain ⟨rest, hrest⟩ : ∃ rest, rows.insertionSort r = a :: rest := List.head?_eq_some_iff.mp h
  have hmem : ∀ b, b ∈ rows ↔ b ∈ a :: rest := by
    intro b
    rw [← hrest, List.mem_insertionSort]
  have hsorted := List.pairwise_insertionSort r rows
  rw [hrest, List.pairwise_cons] at hsorted
  refine ⟨(hmem a).mpr List.mem_cons_self, fun b hb => ?_⟩
  rcases List.mem_cons.mp ((hmem b).mp hb) with rfl | hb
  · exact (Std.Total.total b b).elim id id
  · exact hsorted.1 b hb

theorem head?_insertionSort_eq_none {ρ : Type u} {r : ρ → ρ → Prop} [DecidableRel r]
    {rows : List ρ} (h : (rows.insertionSort r).head? = none) : rows = [] := by
  rw [List.head?_eq_none_iff] at h
  exact List.perm_nil.mp (h ▸ (List.perm_insertionSort r rows).symm)

end FirstHit
