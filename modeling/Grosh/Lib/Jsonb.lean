import Mathlib.Data.Rat.Defs

/-!
# JSONB values

The JSON values a `jsonb` column holds and the two operators programs use on them:
`json -> 'key'` (`Json.get?`) and `jsonb_set(target, path, value, true)`
(`Json.jsonbSet`). An object is a list of fields looked up by name; storing a field
replaces the one of that name or appends a new one.

`jsonbSet` follows PostgreSQL: a scalar target is an error, only the last path element
may be created, a missing or scalar intermediate element leaves the target unchanged,
and a path element that names a field is an error where the path meets an array.
-/

/-- A JSON value. -/
inductive Json : Type where
  /-- the JSON `null` (not the SQL one) -/
  | null : Json
  /-- a boolean -/
  | bool : Bool → Json
  /-- a number -/
  | num : ℚ → Json
  /-- a string -/
  | str : String → Json
  /-- an array -/
  | arr : List Json → Json
  /-- an object: its fields -/
  | obj : List (String × Json) → Json

/-- The fields of a JSON object, or a string-keyed dictionary of JSON values. The order is kept, and
nothing depends on it. -/
abbrev Dict : Type := List (String × Json)

namespace Dict

/-- The value stored under a key: the first field of that name. -/
def get? : Dict → String → Option Json
  | [], _ => none
  | (k', v) :: d, k => if k' = k then some v else get? d k

/-- Store a value under a key: replace the field of that name, or append one. -/
def set : Dict → String → Json → Dict
  | [], k, v => [(k, v)]
  | (k', w) :: d, k, v => if k' = k then (k, v) :: d else (k', w) :: set d k v

@[simp] theorem get?_nil (k : String) : get? [] k = none := rfl

@[simp] theorem get?_set_self (d : Dict) (k : String) (v : Json) :
    (d.set k v).get? k = some v := by
  induction d with
  | nil => simp [set, get?]
  | cons p d ih =>
    obtain ⟨k', w⟩ := p
    by_cases h : k' = k
    · simp [set, get?, h]
    · simp [set, get?, h, ih]

/-- Storing a field leaves the others alone, whether it was there before or not. -/
theorem get?_set_of_ne {d : Dict} {k k' : String} {v : Json} (h : k ≠ k') :
    (d.set k v).get? k' = d.get? k' := by
  induction d with
  | nil => simp [set, get?, h]
  | cons p d ih =>
    obtain ⟨k₀, w⟩ := p
    by_cases hk : k₀ = k
    · subst hk
      simp [set, get?, h]
    · simp [set, get?, hk, ih]

/-- The later of two values stored under a key counts. -/
@[simp] theorem set_set (d : Dict) (k : String) (v w : Json) :
    (d.set k v).set k w = d.set k w := by
  induction d with
  | nil => simp [set]
  | cons p d ih =>
    obtain ⟨k', u⟩ := p
    by_cases h : k' = k
    · simp [set, h]
    · simp [set, h, ih]

@[simp] theorem set_ne_nil (d : Dict) (k : String) (v : Json) : d.set k v ≠ [] := by
  cases d with
  | nil => exact List.cons_ne_nil _ _
  | cons p d =>
    rw [set]
    split <;> exact List.cons_ne_nil _ _

end Dict

namespace Json

/-- `json -> 'key'`: the field of an object, SQL `NULL` on anything else. -/
def get? : Json → String → Option Json
  | .obj d, k => Dict.get? d k
  | _, _ => none

@[simp] theorem get?_obj (d : Dict) (k : String) : (obj d).get? k = Dict.get? d k := rfl

/-- Follow a path of field names; `none` as soon as a field is missing, or what is reached is no
object. -/
def getPath? (j : Json) (path : List String) : Option Json :=
  path.foldlM get? j

@[simp] theorem getPath?_nil (j : Json) : j.getPath? [] = some j := rfl

@[simp] theorem getPath?_cons (j : Json) (k : String) (path : List String) :
    j.getPath? (k :: path) = (j.get? k).bind fun j' => j'.getPath? path := rfl

/-- The recursion under `jsonb_set`; `none` is the error of a field name met by an
array. -/
def setPath : Json → List String → Json → Option Json
  | j, [], _ => some j
  | .obj d, [k], v => some (.obj (Dict.set d k v))
  | .obj d, k :: k' :: path, v =>
    match Dict.get? d k with
    | none => some (.obj d)
    | some j => (setPath j (k' :: path) v).map fun j' => .obj (Dict.set d k j')
  | .arr _, _ :: _, _ => none
  -- a scalar below the root is left as it is
  | j, _ :: _, _ => some j

/-- `jsonb_set(target, path, value, true)`; `none` is an error. -/
def jsonbSet (target : Json) (path : List String) (value : Json) : Option Json :=
  match target with
  | .obj d => setPath (.obj d) path value
  | .arr a => setPath (.arr a) path value
  | _ => none

@[simp] theorem jsonbSet_obj (d : Dict) (path : List String) (v : Json) :
    jsonbSet (.obj d) path v = setPath (.obj d) path v := rfl

@[simp] theorem setPath_obj_one (d : Dict) (k : String) (v : Json) :
    setPath (.obj d) [k] v = some (.obj (Dict.set d k v)) := rfl

theorem setPath_obj_cons {d : Dict} {k k' : String} {path : List String} {j v : Json}
    (h : Dict.get? d k = some j) :
    setPath (.obj d) (k :: k' :: path) v =
      (setPath j (k' :: path) v).map fun j' => .obj (Dict.set d k j') := by
  simp [setPath, h]

/-- Storing a value below a field leaves the other fields alone, however deep the path goes. -/
theorem setPath_obj_frame {d : Dict} {k k' : String} {path : List String} {v j : Json}
    (hk : k ≠ k') (h : setPath (.obj d) (k :: path) v = some j) :
    ∃ d', j = .obj d' ∧ Dict.get? d' k' = Dict.get? d k' := by
  cases path with
  | nil =>
    obtain rfl := Option.some.inj h
    exact ⟨_, rfl, Dict.get?_set_of_ne hk⟩
  | cons k₁ path =>
    simp only [setPath] at h
    split at h
    · obtain rfl := Option.some.inj h
      exact ⟨d, rfl, rfl⟩
    · obtain ⟨j', -, rfl⟩ := Option.map_eq_some_iff.mp h
      exact ⟨_, rfl, Dict.get?_set_of_ne hk⟩

/-- A field of an object, or of nothing, which counts as the empty object. -/
theorem bind_get?_of_getD {j? : Option Json} {d : Dict} (h : j?.getD (.obj []) = .obj d)
    (k : String) : (j?.bind fun j => j.get? k) = Dict.get? d k := by
  rcases j? with _ | j
  · obtain rfl := Json.obj.inj h
    rfl
  · obtain rfl : j = .obj d := h
    rfl

/-- Two values, or `NULL`s, that are the same off a path: at every path that neither leads to it
nor lies below it. -/
def SameOff (path : List String) (j? j'? : Option Json) : Prop :=
  ∀ p, ¬ p <+: path → ¬ path <+: p →
    (j'?.bind fun j => j.getPath? p) = j?.bind fun j => j.getPath? p

theorem sameOff_nil (j? j'? : Option Json) : SameOff [] j? j'? :=
  fun _ _ h => absurd List.nil_prefix h

/-- **A field of an object** — or of nothing, which counts as the empty object — replaced by a
value that is the same off a path. -/
theorem sameOff_set {j? : Option Json} {d : Dict} {k : String} {path : List String} {v : Json}
    (hd : j?.getD (.obj []) = .obj d) (h : SameOff path (Dict.get? d k) (some v)) :
    SameOff (k :: path) j? (some (.obj (d.set k v))) := by
  have hvalue : ∀ k' p, (j?.bind fun j => j.getPath? (k' :: p)) =
      (Dict.get? d k').bind fun j => j.getPath? p := by
    intro k' p
    rw [← bind_get?_of_getD hd k', Option.bind_assoc]
    rfl
  intro p hp hpath
  rcases p with _ | ⟨k', p⟩
  · exact absurd List.nil_prefix hp
  rw [hvalue, Option.bind_some, getPath?_cons, get?_obj]
  by_cases hk : k = k'
  · subst hk
    rw [Dict.get?_set_self]
    exact h p (fun h => hp (List.cons_prefix_cons.mpr ⟨rfl, h⟩))
      fun h => hpath (List.cons_prefix_cons.mpr ⟨rfl, h⟩)
  · rw [Dict.get?_set_of_ne hk]

end Json

/-! ## What a column can hold

PostgreSQL text has no NUL character, neither in a text column nor inside a JSONB
string or key. -/

/-- A text the database can store: no character of it is the NUL. -/
def String.noNul (s : String) : Bool := s.toList.all fun c => c.toNat != 0

mutual

/-- A JSON value the database can store: no text and no key in it has a NUL. -/
def Json.noNul : Json → Bool
  | .str s => s.noNul
  | .arr items => Json.noNulItems items
  | .obj fields => Json.noNulFields fields
  | _ => true

/-- `noNul` on the items of an array, all of them. -/
def Json.noNulItems : List Json → Bool
  | [] => true
  | j :: items => j.noNul && Json.noNulItems items

/-- `noNul` on the fields of an object: on the keys as well as on the values. -/
def Json.noNulFields : List (String × Json) → Bool
  | [] => true
  | (k, j) :: fields => k.noNul && j.noNul && Json.noNulFields fields

end

theorem String.noNul_of_forall {s : String} (h : ∀ c ∈ s.toList, c.toNat ≠ 0) :
    s.noNul = true := by
  simpa [String.noNul] using h

theorem Json.noNulItems_eq_true {items : List Json} :
    Json.noNulItems items = true ↔ ∀ j ∈ items, j.noNul = true := by
  induction items with
  | nil => simp [Json.noNulItems]
  | cons j items ih => simp [Json.noNulItems, ih]

theorem Json.noNulFields_eq_true {fields : Dict} :
    Json.noNulFields fields = true ↔
      ∀ field ∈ fields, field.1.noNul = true ∧ field.2.noNul = true := by
  induction fields with
  | nil => simp [Json.noNulFields]
  | cons field fields ih => simp [Json.noNulFields, ih]
