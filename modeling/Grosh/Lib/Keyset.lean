import Mathlib.Data.List.Sort

/-!
# Keyset pagination

A long list is served in pages: a request names a limit and, from the second page on, the
cursor the page before it gave, which stands for the key of that page's last row. The rows of a
request are `fetch`ed from the table by key, greatest first, beyond the cursor.

* `fetch_of_append` — beyond the key of the last row visited lies exactly what has not been
  visited: the rule that makes a cursor stand for a position of the sorted list.
* `Walk` — following the cursors until a page has none. A walk is unique (`Walk.unique`), and
  where each request serves the next rows of one list (`Serves`), there is one, and its pages
  are the list cut at the limit (`Serves.exists_walk`).

Nothing here depends on what the rows, the keys or the cursors are.
-/

universe u v

namespace Keyset

/-! ## The rows of a request

Rows are sorted by a key that no two of them share, so that a key stands for a place in the list. -/

section Fetch

variable {ρ : Type u} {κ : Type v} [LinearOrder κ] {key : ρ → κ} {rows : List ρ}

/-- `ORDER BY key DESC`, on rows in any order. -/
def descending (key : ρ → κ) (rows : List ρ) : List ρ :=
  rows.insertionSort fun a b => key b ≤ key a

/-- `key < cursor`, where a request has a cursor. Without one every row is beyond. -/
def beyond (key : ρ → κ) : Option κ → ρ → Bool
  | none, _ => true
  | some k, r => decide (key r < k)

/-- `SELECT … WHERE key < cursor ORDER BY key DESC LIMIT n`. -/
def fetch (key : ρ → κ) (rows : List ρ) (cursor : Option κ) (n : ℕ) : List ρ :=
  (descending key (rows.filter (beyond key cursor))).take n

theorem descending_perm (rows : List ρ) : (descending key rows).Perm rows :=
  List.perm_insertionSort _ rows

/-- Where no two rows share a key, the sorted rows strictly decrease: the order is the only one. -/
theorem descending_pairwise (h : (rows.map key).Nodup) :
    (descending key rows).Pairwise fun a b => key b < key a := by
  have : Std.Total fun a b : ρ => key b ≤ key a := ⟨fun a b => le_total (key b) (key a)⟩
  have : IsTrans ρ fun a b => key b ≤ key a := ⟨fun _ _ _ hab hbc => le_trans hbc hab⟩
  have hle := List.pairwise_insertionSort (fun a b => key b ≤ key a) rows
  have hne : (descending key rows).Pairwise fun a b => key a ≠ key b :=
    List.pairwise_map.mp (((descending_perm rows).map key).nodup_iff.mpr h)
  exact (hle.and hne).imp fun {a b} hab => lt_of_le_of_ne hab.1 (Ne.symm hab.2)

/-- Selecting and sorting commute, so that filters may be applied on either side. -/
theorem descending_filter (h : (rows.map key).Nodup) (p : ρ → Bool) :
    descending key (rows.filter p) = (descending key rows).filter p := by
  have hsub : ((rows.filter p).map key).Nodup := h.sublist (List.filter_sublist.map key)
  have hanti : ∀ a b : ρ, a ∈ descending key (rows.filter p) →
      b ∈ (descending key rows).filter p → key b < key a → key a < key b → a = b :=
    fun a b _ _ hab hba => absurd hab (lt_asymm hba)
  exact List.Perm.eq_of_pairwise hanti (descending_pairwise hsub)
    ((descending_pairwise h).sublist List.filter_sublist)
    ((descending_perm _).trans ((descending_perm rows).filter p).symm)

/-- Beyond the key of the last row visited lies exactly what has not been visited. -/
theorem fetch_of_append (h : (rows.map key).Nodup) {visited rest : List ρ}
    (hsplit : descending key rows = visited ++ rest) (n : ℕ) :
    fetch key rows (visited.getLast?.map key) n = rest.take n := by
  have hsorted := descending_pairwise h
  rw [hsplit, List.pairwise_append] at hsorted
  obtain ⟨hvisited, -, hacross⟩ := hsorted
  rw [fetch, descending_filter h, hsplit, List.filter_append]
  rcases List.eq_nil_or_concat' visited with rfl | ⟨before, r, rfl⟩
  · have hall : ∀ a ∈ rest, beyond key none a = true := fun _ _ => rfl
    simp [List.filter_eq_self.mpr hall]
  · have hbefore : ∀ a ∈ before ++ [r], ¬ beyond key (some (key r)) a = true := by
      intro a ha
      have hle : key r ≤ key a := by
        rcases List.mem_append.mp ha with ha | ha
        · exact le_of_lt ((List.pairwise_append.mp hvisited).2.2 a ha r (by simp))
        · rw [List.mem_singleton.mp ha]
      simpa [beyond] using hle
    have hrest : ∀ a ∈ rest, beyond key (some (key r)) a = true := by
      intro a ha
      exact decide_eq_true (hacross r (by simp) a ha)
    have hlast : (before ++ [r]).getLast?.map key = some (key r) := by simp
    rw [hlast, List.filter_eq_nil_iff.mpr hbefore, List.filter_eq_self.mpr hrest, List.nil_append]

end Fetch

/-! ## Walks

Whoever follows the cursors sees one page after another. A walk ends at a page without a cursor. -/

section Walk

variable {γ π ε : Type*} {serve : Option γ → Except ε π} {next : π → Option γ}

/-- The pages shown by following the next cursor from `c` until a page has none. -/
inductive Walk (serve : Option γ → Except ε π) (next : π → Option γ) :
    Option γ → List π → Prop where
  | last {c : Option γ} {p : π} (hp : serve c = .ok p) (hn : next p = none) :
      Walk serve next c [p]
  | more {c : Option γ} {p : π} {k : γ} {pages : List π} (hp : serve c = .ok p)
      (hn : next p = some k) (h : Walk serve next (some k) pages) :
      Walk serve next c (p :: pages)

/-- A walk is determined by where it starts. -/
theorem Walk.unique {c : Option γ} {pages pages' : List π} (h : Walk serve next c pages)
    (h' : Walk serve next c pages') : pages = pages' := by
  induction h generalizing pages' with
  | last hp hn =>
    cases h' with
    | last hp' hn' => rw [Except.ok.inj (hp.symm.trans hp')]
    | more hp' hn' _ =>
      rw [← Except.ok.inj (hp.symm.trans hp'), hn] at hn'
      exact absurd hn' (by simp)
  | more hp hn _ ih =>
    cases h' with
    | last hp' hn' =>
      rw [← Except.ok.inj (hp.symm.trans hp'), hn] at hn'
      exact absurd hn' (by simp)
    | more hp' hn' h' =>
      obtain rfl := Except.ok.inj (hp.symm.trans hp')
      rw [hn] at hn'
      obtain rfl := Option.some.inj hn'
      rw [ih h']

/-- What every page served has, every page of a walk has: no page comes from anywhere else. -/
theorem Walk.forall {P : π → Prop} (hserve : ∀ c p, serve c = .ok p → P p) {c : Option γ}
    {pages : List π} (h : Walk serve next c pages) : ∀ p ∈ pages, P p := by
  induction h with
  | last hp _ => simpa using hserve _ _ hp
  | more hp _ _ ih =>
    intro p hmem
    rcases List.mem_cons.mp hmem with rfl | hmem
    · exact hserve _ _ hp
    · exact ih p hmem

/-! ## Pages of one list

The rule that the handlers are instances of: it is enough to know what one request answers, wherever
it starts. -/

variable {ρ δ : Type*}

/-- The cursor that stands for the rows visited: none before the first, else that of the last. -/
def cursorAfter (encode : ρ → γ) (visited : List ρ) : Option γ :=
  visited.getLast?.map encode

/-- Each request answers with the rows of `all` after those its cursor stands for: `limit` of
them and the cursor of the last while more remain, all that remain else. -/
structure Serves (serve : Option γ → Except ε π) (next : π → Option γ) (items : π → List δ)
    (encode : ρ → γ) (respond : ρ → δ) (limit : ℕ) (all : List ρ) : Prop where
  more : ∀ {visited rest : List ρ}, all = visited ++ rest → limit < rest.length →
    ∃ p, serve (cursorAfter encode visited) = .ok p ∧ items p = (rest.take limit).map respond ∧
      next p = cursorAfter encode (rest.take limit)
  last : ∀ {visited rest : List ρ}, all = visited ++ rest → rest.length ≤ limit →
    ∃ p, serve (cursorAfter encode visited) = .ok p ∧ items p = rest.map respond ∧
      next p = none

variable {items : π → List δ} {encode : ρ → γ} {respond : ρ → δ} {limit : ℕ} {all : List ρ}

/-- From any position a walk leads to the end, through what remains. -/
theorem Serves.exists_walk_from (h : Serves serve next items encode respond limit all)
    (hlimit : 1 ≤ limit) {visited rest : List ρ} (hsplit : all = visited ++ rest) :
    ∃ pages, Walk serve next (cursorAfter encode visited) pages ∧
      pages.flatMap items = rest.map respond ∧
      ∀ p ∈ pages.dropLast, (items p).length = limit := by
  -- what remains gets shorter by the limit with each page
  induction hn : rest.length using Nat.strong_induction_on generalizing visited rest with
  | _ n ih =>
    subst hn
    by_cases hlt : limit < rest.length
    · obtain ⟨p, hp, hitems, hnext⟩ := h.more hsplit hlt
      have hsplit' : all = (visited ++ rest.take limit) ++ rest.drop limit := by
        rw [List.append_assoc, List.take_append_drop, hsplit]
      have hne : rest.take limit ≠ [] := by
        intro hnil
        have := congrArg List.length hnil
        simp only [List.length_take, List.length_nil] at this
        omega
      have hcursor : cursorAfter encode (visited ++ rest.take limit) =
          cursorAfter encode (rest.take limit) := by
        rw [cursorAfter, List.getLast?_append_of_ne_nil _ hne, cursorAfter]
      obtain ⟨pages, hwalk, hpages, hfull⟩ := ih (rest.drop limit).length
        (by rw [List.length_drop]; omega) hsplit' rfl
      have hsome : next p = some (encode ((rest.take limit).getLast hne)) := by
        rw [hnext, cursorAfter, List.getLast?_eq_some_getLast hne, Option.map_some]
      rw [hcursor, ← hnext, hsome] at hwalk
      refine ⟨p :: pages, .more hp hsome hwalk, ?_, ?_⟩
      · rw [List.flatMap_cons, hitems, hpages, ← List.map_append, List.take_append_drop]
      · have hpages_ne : pages ≠ [] := by
          cases hwalk <;> exact List.cons_ne_nil _ _
        rw [List.dropLast_cons_of_ne_nil hpages_ne]
        intro q hq
        rcases List.mem_cons.mp hq with rfl | hq
        · rw [hitems, List.length_map, List.length_take]
          omega
        · exact hfull q hq
    · obtain ⟨p, hp, hitems, hnext⟩ := h.last hsplit (not_lt.mp hlt)
      exact ⟨[p], .last hp hnext, by simp [hitems], by simp⟩

/-- Starting without a cursor, a walk leads through the whole list. -/
theorem Serves.exists_walk (h : Serves serve next items encode respond limit all)
    (hlimit : 1 ≤ limit) :
    ∃ pages, Walk serve next none pages ∧ pages.flatMap items = all.map respond ∧
      ∀ p ∈ pages.dropLast, (items p).length = limit := by
  have hnone : cursorAfter encode ([] : List ρ) = none := rfl
  rw [← hnone]
  exact h.exists_walk_from hlimit rfl

end Walk

end Keyset
