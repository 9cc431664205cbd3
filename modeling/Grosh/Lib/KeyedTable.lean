import Mathlib.Data.List.Nodup
import Mathlib.Data.List.Perm.Basic

/-!
# Keyed tables

A table is a list of rows in which no two rows share a key: the primary key of
a relational table is a field of the structure, so a table with a duplicated key
cannot be built. The four statements a program issues against such a table are

* `insertIgnore` — `INSERT … ON CONFLICT (key) DO NOTHING`;
* `updateWhere` — `UPDATE … WHERE p`, for an assignment that leaves the key alone;
* `deleteWhere` — `DELETE … WHERE p`;
* `find?` — a lookup by key.

Each comes with its membership lemma, and `eq_of_key_eq` is the rule that makes a
lookup by key unambiguous. Nothing here depends on what the rows are.
-/

universe u v

/-- A table of rows `ρ` with primary key `key`: rows in physical order, no two of them with the same
key. Every operation below gives a table again, so that no proof has to show uniqueness twice. -/
structure KeyedTable {κ : Type u} {ρ : Type v} (key : ρ → κ) where
  /-- the rows, in physical order -/
  rows : List ρ
  /-- the primary-key constraint -/
  nodup : (rows.map key).Nodup

namespace KeyedTable

variable {κ : Type u} {ρ : Type v} {key : ρ → κ}

/-- An update leaves the columns alone that its assignment does, in every row. -/
theorem map_update {β : Type u} {column : ρ → β} {f : ρ → ρ} (hf : ∀ r, column (f r) = column r)
    (p : ρ → Bool) (rows : List ρ) :
    (rows.map fun r => if p r then f r else r).map column = rows.map column := by
  rw [List.map_map]
  apply List.map_congr_left
  intro r _
  simp only [Function.comp_apply]
  split
  · exact hf r
  · rfl

/-- A column without duplicates has none after a row with a value of its own. -/
theorem nodup_concat {β : Type u} {column : ρ → β} {rows : List ρ} {r : ρ}
    (h : (rows.map column).Nodup) (hr : column r ∉ rows.map column) :
    ((rows ++ [r]).map column).Nodup := by
  rw [List.map_append, List.map_singleton]
  refine List.nodup_append.mpr ⟨h, List.nodup_singleton _, fun x hx y hy hxy => ?_⟩
  rw [List.mem_singleton.mp hy] at hxy
  exact hr (hxy ▸ hx)

instance : Membership ρ (KeyedTable key) := ⟨fun t r => r ∈ t.rows⟩

theorem mem_def {t : KeyedTable key} {r : ρ} : r ∈ t ↔ r ∈ t.rows := Iff.rfl

@[ext] theorem ext {t t' : KeyedTable key} (h : t.rows = t'.rows) : t = t' := by
  cases t
  cases t'
  simp only [mk.injEq]
  exact h

/-- The empty table, with which every table starts. -/
def empty : KeyedTable key := ⟨[], List.nodup_nil⟩

@[simp] theorem not_mem_empty {r : ρ} : r ∉ (empty : KeyedTable key) :=
  List.not_mem_nil

/-- The primary key determines the row: two rows of a table with one key are the same row. -/
theorem eq_of_key_eq {t : KeyedTable key} {r r' : ρ} (hr : r ∈ t) (hr' : r' ∈ t)
    (hk : key r = key r') : r = r' :=
  List.inj_on_of_nodup_map t.nodup hr hr' hk

/-- Some row of the table has key `k`, which no other row can have then. -/
def HasKey (t : KeyedTable key) (k : κ) : Prop := ∃ r ∈ t, key r = k

theorem hasKey_of_mem {t : KeyedTable key} {r : ρ} (hr : r ∈ t) : t.HasKey (key r) :=
  ⟨r, hr, rfl⟩

theorem hasKey_iff_mem_map {t : KeyedTable key} {k : κ} :
    t.HasKey k ↔ k ∈ t.rows.map key :=
  List.mem_map.symm

@[simp] theorem not_hasKey_empty {k : κ} : ¬ (empty : KeyedTable key).HasKey k := by
  rintro ⟨r, hr, -⟩
  exact not_mem_empty hr

/-! ## Deletion and update

Both keep the order of the rows that stay. An update may not touch the key, which is what keeps the
rows distinct. -/

/-- `DELETE … WHERE p`: the rows the condition does not take. -/
def deleteWhere (t : KeyedTable key) (p : ρ → Bool) : KeyedTable key :=
  ⟨t.rows.filter fun r => !p r, t.nodup.sublist (List.filter_sublist.map key)⟩

@[simp] theorem deleteWhere_rows (t : KeyedTable key) (p : ρ → Bool) :
    (t.deleteWhere p).rows = t.rows.filter fun r => !p r := rfl

@[simp] theorem mem_deleteWhere {t : KeyedTable key} {p : ρ → Bool} {r : ρ} :
    r ∈ t.deleteWhere p ↔ r ∈ t ∧ p r = false := by
  simp [mem_def]

/-- `UPDATE … WHERE p`, the assignment `f` leaving the key alone. -/
def updateWhere (t : KeyedTable key) (p : ρ → Bool) (f : ρ → ρ)
    (hf : ∀ r, key (f r) = key r) : KeyedTable key :=
  ⟨t.rows.map fun r => if p r then f r else r, (map_update hf p t.rows).symm ▸ t.nodup⟩

@[simp] theorem updateWhere_rows (t : KeyedTable key) (p : ρ → Bool) (f : ρ → ρ)
    (hf : ∀ r, key (f r) = key r) :
    (t.updateWhere p f hf).rows = t.rows.map fun r => if p r then f r else r := rfl

theorem mem_updateWhere {t : KeyedTable key} {p : ρ → Bool} {f : ρ → ρ}
    (hf : ∀ r, key (f r) = key r) {r : ρ} :
    r ∈ t.updateWhere p f hf ↔ ∃ r₀ ∈ t, (if p r₀ then f r₀ else r₀) = r := by
  simp [mem_def]

/-- A row the condition does not take stays as it is. -/
theorem mem_updateWhere_of_not {t : KeyedTable key} {p : ρ → Bool} {f : ρ → ρ}
    (hf : ∀ r, key (f r) = key r) {r : ρ} (hr : r ∈ t) (hp : ¬ p r = true) :
    r ∈ t.updateWhere p f hf :=
  (mem_updateWhere hf).mpr ⟨r, hr, if_neg hp⟩

@[simp] theorem hasKey_updateWhere {t : KeyedTable key} {p : ρ → Bool} {f : ρ → ρ}
    (hf : ∀ r, key (f r) = key r) {k : κ} :
    (t.updateWhere p f hf).HasKey k ↔ t.HasKey k := by
  refine ⟨?_, ?_⟩
  · rintro ⟨r, hr, rfl⟩
    obtain ⟨r₀, hr₀, rfl⟩ := (mem_updateWhere hf).mp hr
    refine ⟨r₀, hr₀, ?_⟩
    split
    · exact (hf r₀).symm
    · rfl
  · rintro ⟨r₀, hr₀, rfl⟩
    refine ⟨_, (mem_updateWhere hf).mpr ⟨r₀, hr₀, rfl⟩, ?_⟩
    split
    · exact hf r₀
    · rfl

/-- `UPDATE … WHERE key = k`, on a row of the table: that row is replaced, and all others stay. -/
theorem mem_updateWhere_key [DecidableEq κ] {t : KeyedTable key} {f : ρ → ρ}
    (hf : ∀ r, key (f r) = key r) {r₀ r : ρ} (hr₀ : r₀ ∈ t) :
    r ∈ t.updateWhere (fun r => decide (key r = key r₀)) f hf ↔
      r = f r₀ ∨ (r ∈ t ∧ key r ≠ key r₀) := by
  rw [mem_updateWhere]
  refine ⟨?_, ?_⟩
  · rintro ⟨r₁, hr₁, rfl⟩
    by_cases hk : key r₁ = key r₀
    · obtain rfl := eq_of_key_eq hr₁ hr₀ hk
      left
      simp
    · right
      simp [hk, hr₁]
  · rintro (rfl | ⟨hr, hk⟩)
    · exact ⟨r₀, hr₀, by simp⟩
    · exact ⟨r, hr, by simp [hk]⟩

/-! ## Lookup and insertion

A key is looked up and, if it is free, inserted. A row that is inserted comes last. -/

section Insert

variable [DecidableEq κ]

/-- The row with key `k`, if there is one. There are no two. -/
def find? (t : KeyedTable key) (k : κ) : Option ρ :=
  t.rows.find? fun r => decide (key r = k)

theorem find?_eq_some {t : KeyedTable key} {k : κ} {r : ρ} :
    t.find? k = some r ↔ r ∈ t ∧ key r = k := by
  refine ⟨?_, ?_⟩
  · intro h
    exact ⟨List.mem_of_find?_eq_some h, by simpa using List.find?_some h⟩
  · rintro ⟨hr, rfl⟩
    rcases hf : t.find? (key r) with _ | r'
    · have := List.find?_eq_none.mp hf r hr
      simp at this
    · have hr' : r' ∈ t := List.mem_of_find?_eq_some hf
      have hk : key r' = key r := by simpa using List.find?_some hf
      rw [eq_of_key_eq hr' hr hk]

theorem find?_eq_none {t : KeyedTable key} {k : κ} :
    t.find? k = none ↔ ¬ t.HasKey k := by
  refine ⟨?_, ?_⟩
  · rintro h ⟨r, hr, rfl⟩
    rw [find?_eq_some.mpr ⟨hr, rfl⟩] at h
    cases h
  · intro h
    rcases hf : t.find? k with _ | r
    · rfl
    · obtain ⟨hr, rfl⟩ := find?_eq_some.mp hf
      exact absurd (hasKey_of_mem hr) h

/-- Selecting by key finds one row at most. -/
theorem filter_key_eq (t : KeyedTable key) (k : κ) :
    (t.rows.filter fun r => decide (key r = k)) = (t.find? k).toList := by
  rw [find?]
  have hnodup := t.nodup
  revert hnodup
  induction t.rows with
  | nil => exact fun _ => rfl
  | cons r rows ih =>
    intro hnodup
    obtain ⟨hr, hrows⟩ := List.nodup_cons.mp hnodup
    by_cases hk : key r = k
    · have hrest : (rows.filter fun r => decide (key r = k)) = [] := by
        refine List.filter_eq_nil_iff.mpr fun r' hr' hk' => hr ?_
        rw [hk, ← of_decide_eq_true hk']
        exact List.mem_map_of_mem hr'
      rw [List.filter_cons_of_pos (by simpa using hk), List.find?_cons_of_pos (by simpa using hk),
        hrest]
      rfl
    · rw [List.filter_cons_of_neg (by simpa using hk), List.find?_cons_of_neg (by simpa using hk),
        ih hrows]

theorem find?_updateWhere {t : KeyedTable key} {p : ρ → Bool} {f : ρ → ρ}
    (hf : ∀ r, key (f r) = key r) (k : κ) :
    (t.updateWhere p f hf).find? k = (t.find? k).map fun r => if p r then f r else r := by
  have hkey : ∀ r, key (if p r then f r else r) = key r := by
    intro r
    split
    · exact hf r
    · rfl
  simp only [find?, updateWhere_rows, List.find?_map]
  congr 2
  funext r
  simp only [Function.comp_apply, hkey]

instance (t : KeyedTable key) (k : κ) : Decidable (t.HasKey k) :=
  decidable_of_iff (k ∈ t.rows.map key) hasKey_iff_mem_map.symm

/-- `INSERT … ON CONFLICT (key) DO NOTHING`: a row whose key is taken is dropped without an
error. -/
def insertIgnore (t : KeyedTable key) (r : ρ) : KeyedTable key :=
  if h : key r ∈ t.rows.map key then t
  else ⟨t.rows ++ [r], nodup_concat t.nodup h⟩

theorem insertIgnore_of_hasKey {t : KeyedTable key} {r : ρ} (h : t.HasKey (key r)) :
    t.insertIgnore r = t :=
  dif_pos (hasKey_iff_mem_map.mp h)

theorem insertIgnore_rows_of_not_hasKey {t : KeyedTable key} {r : ρ}
    (h : ¬ t.HasKey (key r)) : (t.insertIgnore r).rows = t.rows ++ [r] := by
  rw [insertIgnore, dif_neg (fun hm => h (hasKey_iff_mem_map.mpr hm))]

theorem mem_insertIgnore_of_not_hasKey {t : KeyedTable key} {r r' : ρ}
    (h : ¬ t.HasKey (key r)) : r' ∈ t.insertIgnore r ↔ r' ∈ t ∨ r' = r := by
  rw [mem_def, insertIgnore_rows_of_not_hasKey h]
  simp [mem_def]

theorem mem_insertIgnore_of_mem {t : KeyedTable key} {r r' : ρ} (h : r' ∈ t) :
    r' ∈ t.insertIgnore r := by
  by_cases hk : t.HasKey (key r)
  · rwa [insertIgnore_of_hasKey hk]
  · exact (mem_insertIgnore_of_not_hasKey hk).mpr (Or.inl h)

/-- A row found after an insertion was there before or is the inserted one; nothing else has
changed. -/
theorem mem_of_mem_insertIgnore {t : KeyedTable key} {r r' : ρ}
    (h : r' ∈ t.insertIgnore r) : r' ∈ t ∨ r' = r := by
  by_cases hk : t.HasKey (key r)
  · rw [insertIgnore_of_hasKey hk] at h
    exact Or.inl h
  · exact (mem_insertIgnore_of_not_hasKey hk).mp h

@[simp] theorem hasKey_insertIgnore {t : KeyedTable key} {r : ρ} {k : κ} :
    (t.insertIgnore r).HasKey k ↔ t.HasKey k ∨ k = key r := by
  by_cases hk : t.HasKey (key r)
  · rw [insertIgnore_of_hasKey hk]
    refine ⟨?_, ?_⟩
    · exact Or.inl
    · rintro (h | rfl)
      · exact h
      · exact hk
  · refine ⟨?_, ?_⟩
    · rintro ⟨r', hr', rfl⟩
      rcases (mem_insertIgnore_of_not_hasKey hk).mp hr' with h | rfl
      · exact Or.inl (hasKey_of_mem h)
      · exact Or.inr rfl
    · rintro (⟨r', hr', rfl⟩ | rfl)
      · exact ⟨r', mem_insertIgnore_of_mem hr', rfl⟩
      · exact ⟨r, (mem_insertIgnore_of_not_hasKey hk).mpr (Or.inr rfl), rfl⟩

end Insert

end KeyedTable
