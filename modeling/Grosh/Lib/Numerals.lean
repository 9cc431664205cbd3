import Mathlib.Algebra.Group.Nat.Defs
import Mathlib.Data.Nat.Notation

/-!
# Numerals of fixed width

The digits of a number in a base up to sixteen, padded with zeros to a width, and the numbers
digits write: what texts with numbers at fixed places (dates, identifiers) are written and read
with. `takeNumber_padded` is the rule a reader of such a text goes by: a padded numeral before
any continuation is read back as its number and that continuation.

Reading is stricter than Python's `int`: digits only, of the base and of either case, and as many as
the width asks for. A number that does not fit its width is written without its first digits, and is
not read back; the results ask for one that fits.
-/

namespace Numerals

/-- The value of a digit, of either case; `none` for any other character. -/
def digitVal (c : Char) : Option ℕ :=
  if '0' ≤ c ∧ c ≤ '9' then some (c.toNat - 48)
  else if 'a' ≤ c ∧ c ≤ 'f' then some (c.toNat - 87)
  else if 'A' ≤ c ∧ c ≤ 'F' then some (c.toNat - 55)
  else none

/-- `w` digits of `n` in base `b`. A number too large for the width loses its first digits. -/
def padded (b : ℕ) : ℕ → ℕ → List Char
  | 0, _ => []
  | w + 1, n => padded b w (n / b) ++ [Nat.digitChar (n % b)]

/-- One more digit of a number, if the base has it. -/
def push (b acc : ℕ) (c : Char) : Option ℕ :=
  (digitVal c).bind fun d => if d < b then some (acc * b + d) else none

/-- The number that digits write, from the first to the last. -/
def value (b : ℕ) (digits : List Char) : Option ℕ := digits.foldlM (push b) 0

/-- The number at the first `w` places of a text, and what follows it. -/
def takeNumber (b w : ℕ) (s : List Char) : Option (ℕ × List Char) :=
  if w ≤ s.length then (value b (s.take w)).map fun n => (n, s.drop w) else none

theorem digitVal_digitChar {d : ℕ} (h : d < 16) : digitVal (Nat.digitChar d) = some d := by
  have : ∀ d < 16, digitVal (Nat.digitChar d) = some d := by decide
  exact this d h

@[simp] theorem length_padded (b w n : ℕ) : (padded b w n).length = w := by
  induction w generalizing n with
  | zero => rfl
  | succ w ih => simp [padded, ih]

/-- Every character of a numeral is a digit of the base. -/
theorem mem_padded {b w n : ℕ} (hb : 0 < b) {c : Char} (h : c ∈ padded b w n) :
    ∃ d < b, c = Nat.digitChar d := by
  induction w generalizing n with
  | zero => exact absurd h List.not_mem_nil
  | succ w ih =>
    rcases List.mem_append.mp h with h | h
    · exact ih h
    · exact ⟨n % b, Nat.mod_lt n hb, List.mem_singleton.mp h⟩

variable {b : ℕ}

theorem push_digitChar (hb : b ≤ 16) {d : ℕ} (hd : d < b) (acc : ℕ) :
    push b acc (Nat.digitChar d) = some (acc * b + d) := by
  simp [push, digitVal_digitChar (Nat.lt_of_lt_of_le hd hb), hd]

/-- A number that has the width is written and read back, in any base whose digits are letters at
most. -/
theorem value_padded (hb : b ≤ 16) {w n : ℕ} (h : n < b ^ w) :
    value b (padded b w n) = some n := by
  induction w generalizing n with
  | zero =>
    rw [Nat.pow_zero, Nat.lt_one_iff] at h
    rw [h]
    rfl
  | succ w ih =>
    rw [Nat.pow_succ] at h
    have hpos : 0 < b := by
      rcases Nat.eq_zero_or_pos b with rfl | hpos
      · simp at h
      · exact hpos
    have hhigh := ih (Nat.div_lt_of_lt_mul (by rwa [Nat.mul_comm]))
    rw [value] at hhigh
    rw [value, padded, List.foldlM_append, hhigh]
    simp [push_digitChar hb (Nat.mod_lt n hpos), Nat.div_add_mod']

/-- A padded numeral before any continuation is read back as its number and the rest. -/
theorem takeNumber_padded (hb : b ≤ 16) {w n : ℕ} (h : n < b ^ w) (rest : List Char) :
    takeNumber b w (padded b w n ++ rest) = some (n, rest) := by
  have htake : (padded b w n ++ rest).take w = padded b w n := by
    rw [List.take_append_of_le_length (by simp), List.take_of_length_le (by simp)]
  have hdrop : (padded b w n ++ rest).drop w = rest := by
    rw [List.drop_append_of_le_length (by simp), List.drop_eq_nil_of_le (by simp), List.nil_append]
  rw [takeNumber, if_pos (by simp), htake, hdrop, value_padded hb h, Option.map_some]

end Numerals
