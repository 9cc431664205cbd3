import Mathlib.Data.List.Basic

/-!
# Maps that may fail

A list is decoded element by element, and not at all if one of them is rejected.

It is what a query is to the rows it returns, and a request to the items of its body: one that
cannot be shown or read makes the whole of it fail. The lemmas take such a list apart again, element
by element.

* `mapM_eq_some_iff` — a list is decoded if each of its elements is.
* `exists_mapM`, `exists_of_mem_mapM` — when that is, and where its elements come from.
* `map_eq_of_mapM_eq_some` — what decoding does not change.
-/

universe u v w

namespace PartialMap

variable {α : Type u} {β : Type v} {f : α → Option β} {xs : List α} {ys : List β}

theorem mapM_eq_some_iff : xs.mapM f = some ys ↔ xs.map f = ys.map some := by
  induction xs generalizing ys with
  | nil => cases ys <;> simp
  | cons x xs ih =>
    rcases hx : f x with _ | y
    · cases ys <;> simp [hx]
    · rcases ys with _ | ⟨y', ys⟩
      · rcases hxs : xs.mapM f with _ | zs <;> simp [hx, hxs]
      · simp only [List.mapM_cons, hx, List.map_cons, List.cons.injEq, Option.some.injEq, ← ih]
        rcases xs.mapM f with _ | zs <;> simp

/-- What is accepted element by element is accepted as a list. -/
theorem exists_mapM (h : ∀ x ∈ xs, ∃ y, f x = some y) : ∃ ys, xs.mapM f = some ys := by
  induction xs with
  | nil => exact ⟨[], rfl⟩
  | cons x xs ih =>
    obtain ⟨⟨y, hy⟩, hrest⟩ := List.forall_mem_cons.mp h
    obtain ⟨ys, hys⟩ := ih hrest
    exact ⟨y :: ys, by simp [hy, hys]⟩

/-- Each element of the result is made of one of the list. -/
theorem exists_of_mem_mapM (h : xs.mapM f = some ys) {y : β} (hy : y ∈ ys) :
    ∃ x ∈ xs, f x = some y := by
  have hmem : some y ∈ xs.map f := by
    rw [mapM_eq_some_iff.mp h]
    exact List.mem_map_of_mem hy
  exact List.mem_map.mp hmem

/-- What can be read of an element before and after is the same of the lists. -/
theorem map_eq_of_mapM_eq_some {γ : Type w} {g : α → γ} {h : β → γ}
    (hread : ∀ x y, f x = some y → h y = g x) (hxs : xs.mapM f = some ys) :
    ys.map h = xs.map g := by
  induction xs generalizing ys with
  | nil =>
    obtain rfl : [] = ys := Option.some.inj hxs
    rfl
  | cons x xs ih =>
    rw [List.mapM_cons] at hxs
    obtain ⟨y, hy, hrest⟩ := Option.bind_eq_some_iff.mp hxs
    obtain ⟨ys', hys', hcons⟩ := Option.bind_eq_some_iff.mp hrest
    obtain rfl : y :: ys' = ys := Option.some.inj hcons
    rw [List.map_cons, List.map_cons, hread x y hy, ih hys']

end PartialMap
