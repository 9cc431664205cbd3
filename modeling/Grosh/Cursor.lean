import Grosh.Lib.Base64
import Grosh.Lib.Isoformat
import Grosh.Domain

/-!
# Pagination cursors

A cursor is the time and the id of the last row of a page, as text: the two joined by a colon,
in URL-safe Base64. The time itself has colons, so the id is what follows the last one.

A cursor that a client makes up may be anything, and decoding it is either an error or a pair of
texts. Only cursors that the API has issued are promised to be read back; the readers of the time
and of the id cover the texts that occur in those, and their docstrings say which others Python
would take.

* `decodeCursor_encodeCursor` — decoding returns the parts exactly if the id is not empty and has
  no colon.
* `readCursor_encodeCursor` — a request reads back the time and the id a page was cut at.
-/

namespace Grosh

open Numerals Isoformat

/-! ## UUIDs as text -/

/-- `str(uuid)`. -/
def uuidText (id : UUID) : List Char :=
  let hex := padded 16 32 id
  hex.take 8 ++ '-' :: ((hex.drop 8).take 4 ++ '-' :: ((hex.drop 12).take 4 ++ '-' ::
    ((hex.drop 16).take 4 ++ '-' :: hex.drop 20)))

/-- `text.replace(pattern, "")`; the first argument counts the characters still to be left out. -/
def removeAll (pattern : List Char) : ℕ → List Char → List Char
  | _, [] => []
  | k + 1, _ :: s => removeAll pattern k s
  | 0, c :: s =>
    if pattern.isPrefixOf (c :: s) then removeAll pattern (pattern.length - 1) s
    else c :: removeAll pattern 0 s

/-- One of the characters `strip('{}')` takes off the ends. -/
def isBrace (c : Char) : Bool := c = '\x7b' ∨ c = '\x7d'

/-- `text.strip('{}')`. -/
def stripBraces (s : List Char) : List Char :=
  ((s.dropWhile isBrace).reverse.dropWhile isBrace).reverse

/-- `UUID(text)` of a text of hexadecimal digits: the prefixes of a URN, braces and hyphens are left
out, and 32 digits must remain. What `int(text, 16)` takes besides digits — blanks at the ends, a
sign `+`, a prefix `0x`, underscores between digits, digits of other scripts — is refused here,
where `UUID` counts it among the 32 characters. -/
def parseUuid (s : List Char) : Option UUID :=
  let hex := removeAll "uuid:".toList 0 (removeAll "urn:".toList 0 s)
  let hex := (stripBraces hex).filter (· ≠ '-')
  if hex.length = 32 then value 16 hex else none

theorem removeAll_of_not_mem {c : Char} {pattern s : List Char} (h : c ∉ s) :
    removeAll (c :: pattern) 0 s = s := by
  induction s with
  | nil => rfl
  | cons a s ih =>
    have hne : c ≠ a := fun hc => h (hc ▸ List.mem_cons_self)
    have hnot : ¬ (c :: pattern).isPrefixOf (a :: s) = true := by
      simp [List.isPrefixOf, hne]
    rw [removeAll, if_neg hnot, ih fun hs => h (List.mem_cons_of_mem _ hs)]

theorem stripBraces_of_not_mem {s : List Char} (h : ∀ c ∈ s, isBrace c = false) :
    stripBraces s = s := by
  have hdrop : ∀ s : List Char, (∀ c ∈ s, isBrace c = false) → s.dropWhile isBrace = s := by
    intro s hs
    rcases s with _ | ⟨c, s⟩
    · rfl
    · rw [List.dropWhile_cons_of_neg (by simp [hs c List.mem_cons_self])]
  rw [stripBraces, hdrop s h, hdrop _ (by simpa using h), List.reverse_reverse]

/-- The characters of a UUID's text: hexadecimal digits and hyphens. -/
theorem mem_uuidText {id : UUID} {c : Char} (h : c ∈ uuidText id) :
    c = '-' ∨ ∃ d < 16, c = Nat.digitChar d := by
  have hhex : ∀ {c}, c ∈ padded 16 32 id → ∃ d < 16, c = Nat.digitChar d :=
    fun h => mem_padded (by decide) h
  simp only [uuidText, List.mem_append, List.mem_cons] at h
  rcases h with h | rfl | h | rfl | h | rfl | h | rfl | h
  · exact Or.inr (hhex (List.mem_of_mem_take h))
  · exact Or.inl rfl
  · exact Or.inr (hhex (List.mem_of_mem_drop (List.mem_of_mem_take h)))
  · exact Or.inl rfl
  · exact Or.inr (hhex (List.mem_of_mem_drop (List.mem_of_mem_take h)))
  · exact Or.inl rfl
  · exact Or.inr (hhex (List.mem_of_mem_drop (List.mem_of_mem_take h)))
  · exact Or.inl rfl
  · exact Or.inr (hhex (List.mem_of_mem_drop h))

/-- No character of a UUID's text is one that the parts of a cursor or of a URN end with. -/
theorem uuidText_plain {id : UUID} {c : Char} (h : c ∈ uuidText id) :
    c ≠ 'u' ∧ c ≠ ':' ∧ isBrace c = false := by
  have hdigit : ∀ d < 16, Nat.digitChar d ≠ 'u' ∧ Nat.digitChar d ≠ ':' ∧
      isBrace (Nat.digitChar d) = false := by decide
  rcases mem_uuidText h with rfl | ⟨d, hd, rfl⟩
  · decide
  · exact hdigit d hd

theorem uuidText_ne_nil (id : UUID) : uuidText id ≠ [] := by simp [uuidText]

theorem colon_not_mem_uuidText (id : UUID) : ':' ∉ uuidText id :=
  fun h => (uuidText_plain h).2.1 rfl

/-- Without its hyphens, a UUID's text is its digits. -/
theorem filter_uuidText (id : UUID) : (uuidText id).filter (· ≠ '-') = padded 16 32 id := by
  have hdigit : ∀ d < 16, Nat.digitChar d ≠ '-' := by decide
  have hkeep : ∀ part : List Char, (∀ c ∈ part, c ∈ padded 16 32 id) →
      part.filter (fun c => decide (c ≠ '-')) = part := by
    intro part hpart
    refine List.filter_eq_self.mpr fun c hc => decide_eq_true ?_
    obtain ⟨d, hd, rfl⟩ := mem_padded (by decide) (hpart c hc)
    exact hdigit d hd
  rw [uuidText]
  generalize padded 16 32 id = hex at hkeep ⊢
  have hmid : ∀ n w, ((hex.drop n).take w).filter (fun c => decide (c ≠ '-')) =
      (hex.drop n).take w :=
    fun n w => hkeep _ fun c hc => List.mem_of_mem_drop (List.mem_of_mem_take hc)
  have hjoin : ∀ n w, (hex.drop n).take w ++ hex.drop (n + w) = hex.drop n := by
    intro n w
    rw [← List.drop_drop, List.take_append_drop]
  have hhyphen : ∀ part : List Char, ('-' :: part).filter (fun c => decide (c ≠ '-')) =
      part.filter (fun c => decide (c ≠ '-')) := fun part => List.filter_cons_of_neg (by decide)
  simp only [List.filter_append, hhyphen, hmid, hkeep _ fun c => List.mem_of_mem_take,
    hkeep _ fun c => List.mem_of_mem_drop]
  rw [hjoin 16 4, hjoin 12 4, hjoin 8 4, List.take_append_drop]

/-- A UUID's text is read back. -/
theorem parseUuid_uuidText {id : UUID} (h : id < 2 ^ 128) : parseUuid (uuidText id) = some id := by
  have hu : 'u' ∉ uuidText id := fun hc => (uuidText_plain hc).1 rfl
  have hvalue : value 16 (padded 16 32 id) = some id := value_padded (by decide) h
  have hurn : "urn:".toList = 'u' :: ['r', 'n', ':'] := rfl
  have huuid : "uuid:".toList = 'u' :: ['u', 'i', 'd', ':'] := rfl
  rw [parseUuid, hurn, huuid, removeAll_of_not_mem hu, removeAll_of_not_mem hu,
    stripBraces_of_not_mem fun c hc => (uuidText_plain hc).2.2, filter_uuidText,
    if_pos (length_padded 16 32 id), hvalue]

/-! ## Cursors -/

/-- `raw.rpartition(":")`, where there is a colon: what stands before the last one and after. -/
def rpartition (sep : Char) : List Char → Option (List Char × List Char)
  | [] => none
  | c :: s =>
    match rpartition sep s with
    | some (before, after) => some (c :: before, after)
    | none => if c = sep then some ([], s) else none

/-- `encode_cursor`. -/
def encodeCursor (ts : Timestamp) (rowId : List Char) : String :=
  let raw := String.ofList (isoformat ts ++ ':' :: rowId)
  String.ofList (Base64.encode raw.toUTF8.data.toList)

/-- `decode_cursor`: the text of the time and of the id; `none` is a `ValueError`. -/
def decodeCursor (cursor : String) : Option (List Char × List Char) := do
  let bytes ← Base64.decode cursor.toList
  let raw ← String.fromUTF8? ⟨bytes.toArray⟩
  let (tsStr, idStr) ← rpartition ':' raw.toList
  if tsStr = [] ∨ idStr = [] then none else some (tsStr, idStr)

/-- What a handler makes of a cursor: the two parts, read as a time and an id. The time is read if
it is a text of the form `isoformat` gives, with a date, a time and an offset. Other forms that
`datetime.fromisoformat` takes, such as a `Z`, no offset or a date alone, are in no cursor the API
has issued, and are refused here. -/
def readCursor (cursor : String) : Option (Timestamp × UUID) := do
  let (tsStr, idStr) ← decodeCursor cursor
  let time ← fromisoformat tsStr
  let id ← parseUuid idStr
  some (time, id)

variable {sep : Char}

/-- Text read back from its bytes. -/
theorem fromUTF8?_toUTF8 (s : String) :
    String.fromUTF8? ⟨s.toUTF8.data.toList.toArray⟩ = some s := by
  have hbytes : (⟨s.toUTF8.data.toList.toArray⟩ : ByteArray) = s.toUTF8 := by
    rw [Array.toArray_toList]
  have hvalid : s.toUTF8.IsValidUTF8 := s.isValidUTF8
  rw [hbytes, String.fromUTF8?, dif_pos hvalid]
  rfl

theorem rpartition_eq_none {s : List Char} : rpartition sep s = none ↔ sep ∉ s := by
  induction s with
  | nil => exact ⟨fun _ => List.not_mem_nil, fun _ => rfl⟩
  | cons c s ih =>
    rw [rpartition, List.mem_cons, not_or, ← ih]
    rcases hs : rpartition sep s with _ | ⟨before, after⟩
    · simp [eq_comm]
    · simp

theorem rpartition_append {after : List Char} (h : sep ∉ after) (before : List Char) :
    rpartition sep (before ++ sep :: after) = some (before, after) := by
  induction before with
  | nil => rw [List.nil_append, rpartition, rpartition_eq_none.mpr h, if_pos rfl]
  | cons c before ih => rw [List.cons_append, rpartition, ih]

theorem rpartition_eq_some {s before after : List Char}
    (h : rpartition sep s = some (before, after)) : s = before ++ sep :: after ∧ sep ∉ after := by
  induction s generalizing before with
  | nil => cases h
  | cons c s ih =>
    rw [rpartition] at h
    rcases hs : rpartition sep s with _ | ⟨before', after'⟩
    · simp only [hs] at h
      split at h
      · next hc =>
        cases h
        exact ⟨by rw [hc, List.nil_append], rpartition_eq_none.mp hs⟩
      · cases h
    · simp only [hs] at h
      cases h
      obtain ⟨rfl, hafter⟩ := ih hs
      exact ⟨rfl, hafter⟩

theorem isoformat_ne_nil (t : Timestamp) : isoformat t ≠ [] := by
  intro h
  have := congrArg List.length h
  simp [isoformat] at this

/-- Decoding returns the parts exactly if the id is not empty and has no colon. -/
theorem decodeCursor_encodeCursor {ts : Timestamp} {rowId : List Char} :
    decodeCursor (encodeCursor ts rowId) = some (isoformat ts, rowId) ↔
      rowId ≠ [] ∧ ':' ∉ rowId := by
  have hraw : decodeCursor (encodeCursor ts rowId) =
      (rpartition ':' (isoformat ts ++ ':' :: rowId)).bind fun parts =>
        if parts.1 = [] ∨ parts.2 = [] then none else some parts := by
    rw [decodeCursor, encodeCursor, String.toList_ofList, Base64.decode_encode, Option.bind_eq_bind,
      Option.bind_some, fromUTF8?_toUTF8]
    simp
  rw [hraw]
  refine ⟨fun h => ?_, fun ⟨hne, hcolon⟩ => ?_⟩
  · obtain ⟨parts, hparts, h⟩ := Option.bind_eq_some_iff.mp h
    split at h
    · cases h
    · next hne =>
      obtain rfl := Option.some.inj h
      exact ⟨fun hnil => hne (Or.inr hnil), (rpartition_eq_some hparts).2⟩
  · rw [rpartition_append hcolon, Option.bind_some, if_neg]
    exact fun h => h.elim (isoformat_ne_nil ts) hne

/-- A request reads back the time and the id a page was cut at. -/
theorem readCursor_encodeCursor {ts : Timestamp} {id : UUID} (hts : InRange ts)
    (hid : id < 2 ^ 128) : readCursor (encodeCursor ts (uuidText id)) = some (ts, id) := by
  have hdecode : decodeCursor (encodeCursor ts (uuidText id)) = some (isoformat ts, uuidText id) :=
    decodeCursor_encodeCursor.mpr ⟨uuidText_ne_nil id, colon_not_mem_uuidText id⟩
  simp [readCursor, hdecode, fromisoformat_isoformat hts, parseUuid_uuidText hid]

end Grosh
