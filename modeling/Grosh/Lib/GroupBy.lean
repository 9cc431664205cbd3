import Grosh.Lib.PartialMap
import Mathlib.Algebra.BigOperators.Group.List.Basic
import Mathlib.Data.List.Dedup
import Mathlib.Data.List.ReduceOption
import Mathlib.Data.List.Sort

/-!
# Grouped queries

`SELECT …, SUM(v) FILTER (WHERE p) … GROUP BY k ORDER BY k`: the rows fall into groups by a key,
in ascending order, and a column is added up over the rows of a group that meet a condition. A
column may be `NULL`, and such values are left out.

The values are of any commutative additive monoid, and the keys of any linear order, so that a key
may be a tuple of columns. Nothing is said about the number of groups but that each has a row.

* `sum_groupBy` — the sums of the groups add up to the sum over all rows, whatever the key;
  `sum_groupBy_withKeys` — also where computing a key may raise, if it does not.
* `sumWhere_filter`, `sumWhere_add` — a condition may be checked before or within a sum, and sums
  over disjoint conditions add up.
-/

universe u v w

namespace GroupBy

open PartialMap

variable {ρ : Type u} {κ : Type v} {M : Type w} [AddCommMonoid M]

/-! ## Sums

A sum over rows, some of which have no value, and only those counted that meet a condition. -/

/-- `SUM`: `NULL` where there is no value, also if there are rows. -/
def sum? (values : List (Option M)) : Option M :=
  match values.reduceOption with
  | [] => none
  | v :: vs => some (v :: vs).sum

/-- `COALESCE(SUM(value) FILTER (WHERE p), 0)`. -/
def sumWhere (p : ρ → Bool) (value : ρ → Option M) (rows : List ρ) : M :=
  (sum? ((rows.filter p).map value)).getD 0

theorem sum?_getD (values : List (Option M)) : (sum? values).getD 0 = values.reduceOption.sum := by
  rw [sum?]
  cases values.reduceOption with
  | nil => rfl
  | cons v vs => rfl

/-- A sum is the sum of the values there are: `COALESCE` makes the empty one zero. -/
theorem sumWhere_eq_sum (p : ρ → Bool) (value : ρ → Option M) (rows : List ρ) :
    sumWhere p value rows = ((rows.filter p).filterMap value).sum := by
  rw [sumWhere, sum?_getD, List.reduceOption, List.filterMap_map]
  rfl

@[simp] theorem sumWhere_nil (p : ρ → Bool) (value : ρ → Option M) : sumWhere p value [] = 0 := rfl

/-- A row counts if it meets the condition and has a value, whatever the other rows are. -/
theorem sumWhere_cons (p : ρ → Bool) (value : ρ → Option M) (r : ρ) (rows : List ρ) :
    sumWhere p value (r :: rows) =
      (if p r = true then (value r).getD 0 else 0) + sumWhere p value rows := by
  simp only [sumWhere_eq_sum, List.filter_cons]
  split
  · cases hr : value r with
    | none => rw [List.filterMap_cons_none hr, Option.getD_none, zero_add]
    | some v => rw [List.filterMap_cons_some hr, List.sum_cons, Option.getD_some]
  · rw [zero_add]

/-- A condition may be checked before the sum as well as in it. -/
theorem sumWhere_filter (p q : ρ → Bool) (value : ρ → Option M) (rows : List ρ) :
    sumWhere p value (rows.filter q) = sumWhere (fun r => p r && q r) value rows := by
  rw [sumWhere, sumWhere, List.filter_filter]

theorem sumWhere_map {σ : Type v} (f : σ → ρ) (p : ρ → Bool) (value : ρ → Option M)
    (rows : List σ) :
    sumWhere p value (rows.map f) = sumWhere (p ∘ f) (value ∘ f) rows := by
  rw [sumWhere, sumWhere, List.filter_map, List.map_map]

theorem sumWhere_congr {p q : ρ → Bool} {rows : List ρ} (value : ρ → Option M)
    (h : ∀ r ∈ rows, p r = q r) : sumWhere p value rows = sumWhere q value rows := by
  rw [sumWhere, sumWhere, List.filter_congr h]

/-- Sums over disjoint conditions add up to the sum over both. -/
theorem sumWhere_add {p q : ρ → Bool} (value : ρ → Option M) (rows : List ρ)
    (h : ∀ r, p r = true → q r = false) :
    sumWhere p value rows + sumWhere q value rows =
      sumWhere (fun r => p r || q r) value rows := by
  induction rows with
  | nil => exact zero_add 0
  | cons r rows ih =>
    rw [sumWhere_cons, sumWhere_cons, sumWhere_cons, ← ih, add_add_add_comm]
    congr 1
    cases hp : p r with
    | false => rw [if_neg Bool.false_ne_true, zero_add, Bool.false_or]
    | true => rw [h r hp, Bool.or_false, if_neg Bool.false_ne_true, add_zero]

/-! ## Keys that may not be computed

The key of a row may be an error, which fails the query as a whole. Otherwise each row has its key
beside it. -/

/-- The rows with their keys; `none` where the key of a row is an error. -/
def withKeys (key : ρ → Option κ) (rows : List ρ) : Option (List (κ × ρ)) :=
  rows.mapM fun r => (key r).map fun k => (k, r)

theorem snd_of_withKeys {key : ρ → Option κ} {rows : List ρ} {keyed : List (κ × ρ)}
    (h : withKeys key rows = some keyed) : keyed.map Prod.snd = rows := by
  have hrows : keyed.map Prod.snd = rows.map id := by
    refine map_eq_of_mapM_eq_some (fun r kr hr => ?_) h
    obtain ⟨k, -, rfl⟩ := Option.map_eq_some_iff.mp hr
    rfl
  rw [hrows, List.map_id]

theorem exists_withKeys {key : ρ → Option κ} {rows : List ρ}
    (h : ∀ r ∈ rows, ∃ k, key r = some k) : ∃ keyed, withKeys key rows = some keyed :=
  exists_mapM fun r hr => (h r hr).elim fun k hk => ⟨(k, r), by rw [hk, Option.map_some]⟩

/-- Each key is that of a row, and none was an error. -/
theorem key_of_mem_withKeys {key : ρ → Option κ} {rows : List ρ} {keyed : List (κ × ρ)}
    (h : withKeys key rows = some keyed) {kr : κ × ρ} (hkr : kr ∈ keyed) :
    ∃ r ∈ rows, key r = some kr.1 := by
  obtain ⟨r, hr, hkey⟩ := exists_of_mem_mapM h hkr
  obtain ⟨k, hk, rfl⟩ := Option.map_eq_some_iff.mp hkey
  exact ⟨r, hr, hk⟩

/-! ## Groups

A group is a key and the rows that have it. There is one for each key that occurs, and no other. -/

section Groups

variable [LinearOrder κ]

/-- `GROUP BY key ORDER BY key`: each key there is, with its rows. -/
def groupBy (key : ρ → κ) (rows : List ρ) : List (κ × List ρ) :=
  ((rows.map key).dedup.insertionSort (· ≤ ·)).map fun k =>
    (k, rows.filter fun r => decide (key r = k))

/-- A group has the key of a row: no group is empty. -/
theorem exists_of_mem_groupBy {key : ρ → κ} {rows : List ρ} {g : κ × List ρ}
    (h : g ∈ groupBy key rows) : ∃ r ∈ rows, key r = g.1 := by
  obtain ⟨k, hk, rfl⟩ := List.mem_map.mp h
  exact List.mem_map.mp (List.mem_dedup.mp ((List.mem_insertionSort _).mp hk))

/-- Each row is in one group: over keys of which no two are equal, and that cover the rows, the
sums add up. -/
theorem sum_sumWhere_key {key : ρ → κ} {keys : List κ} (hkeys : keys.Nodup) (p : ρ → Bool)
    (value : ρ → Option M) {rows : List ρ} (h : ∀ r ∈ rows, key r ∈ keys) :
    (keys.map fun k => sumWhere p value (rows.filter fun r => decide (key r = k))).sum =
      sumWhere p value rows := by
  induction rows with
  | nil => simp
  | cons r rows ih =>
    obtain ⟨hr, hrows⟩ := List.forall_mem_cons.mp h
    have hcons : ∀ k, sumWhere p value ((r :: rows).filter fun r => decide (key r = k)) =
        (if key r = k then (if p r = true then (value r).getD 0 else 0) else 0) +
          sumWhere p value (rows.filter fun r => decide (key r = k)) := by
      intro k
      rw [List.filter_cons]
      by_cases hk : key r = k
      · rw [if_pos (decide_eq_true hk), sumWhere_cons, if_pos hk]
      · rw [if_neg (mt of_decide_eq_true hk), if_neg hk, zero_add]
    simp only [hcons, List.sum_map_add, ih hrows, sumWhere_cons]
    congr 1
    rw [List.sum_map_eq_nsmul_single (key r) _ fun k hk _ => if_neg (Ne.symm hk), if_pos rfl,
      List.count_eq_one_of_mem hkeys hr, one_nsmul]

/-- **The sums of the groups add up** to the sum over all rows, whatever the key. -/
theorem sum_groupBy (key : ρ → κ) (p : ρ → Bool) (value : ρ → Option M) (rows : List ρ) :
    ((groupBy key rows).map fun g => sumWhere p value g.2).sum = sumWhere p value rows := by
  have hperm := List.perm_insertionSort (· ≤ ·) (rows.map key).dedup
  rw [groupBy, List.map_map]
  apply sum_sumWhere_key (hperm.nodup_iff.mpr (List.nodup_dedup _)) p value
  intro r hr
  exact hperm.mem_iff.mpr (List.mem_dedup.mpr (List.mem_map_of_mem hr))

/-- The sums of the groups of rows with keys add up to the sum over the rows. -/
theorem sum_groupBy_withKeys {key : ρ → Option κ} {rows : List ρ} {keyed : List (κ × ρ)}
    (h : withKeys key rows = some keyed) (p : ρ → Bool) (value : ρ → Option M) :
    ((groupBy Prod.fst keyed).map fun g => sumWhere p value (g.2.map Prod.snd)).sum =
      sumWhere p value rows := by
  simp only [sumWhere_map]
  rw [sum_groupBy, ← sumWhere_map, snd_of_withKeys h]

end Groups

end GroupBy
