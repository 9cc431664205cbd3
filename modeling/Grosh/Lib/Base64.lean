import Mathlib.Data.Nat.Notation

/-!
# URL-safe Base64

Three bytes are written as four characters of an alphabet of sixty-four, the last group padded
with `=`. `decode` reads a text the lenient way: a character outside the alphabet is skipped,
the text ends where the padding completes a group, and only an incomplete group is an error.
Of the two alphabets in use the reader takes both (`+` and `-` are one digit, `/` and `_`
another) and the writer the one that needs no quoting in a URL.

Padding is checked where it stands and not in advance, as a reader does that looks at one character
after another: what it keeps is the bits it has not used yet and how many characters of the group it
has seen. The round trip is by induction on the groups of three bytes.

* `decode_encode` — any bytes are read back.
-/

namespace Base64

/-- The digits in order. The last two are the characters that make the alphabet fit for a URL. -/
def alphabet : List Char :=
  "ABCDEFGHIJKLMNOPQRSTUVWXYZabcdefghijklmnopqrstuvwxyz0123456789-_".toList

/-- The character of six bits. From sixty-four on there is none, and the padding stands in. -/
def digit (n : ℕ) : Char := alphabet.getD n '='

/-- The six bits of a character. The two characters of the ordinary alphabet that a URL has no place
for are read as well. -/
def sextet? (c : Char) : Option ℕ :=
  if c = '+' then some 62
  else if c = '/' then some 63
  else alphabet.findIdx? (· = c)

/-- `urlsafe_b64encode`: three bytes at a time, and the rest padded to a whole group. -/
def encode : List UInt8 → List Char
  | [] => []
  | [a] => [digit (a.toNat / 4), digit (a.toNat % 4 * 16), '=', '=']
  | [a, b] =>
    [digit (a.toNat / 4), digit (a.toNat % 4 * 16 + b.toNat / 16), digit (b.toNat % 16 * 4), '=']
  | a :: b :: c :: rest =>
    digit (a.toNat / 4) :: digit (a.toNat % 4 * 16 + b.toNat / 16) ::
      digit (b.toNat % 16 * 4 + c.toNat / 64) :: digit (c.toNat % 64) :: encode rest

/-- Reading on at place `quad` of a group, with the bits `left` of the character before not yet
in a byte and `pads` padding characters since. -/
def decodeFrom (quad left pads : ℕ) : List Char → Option (List UInt8)
  | [] => if quad = 0 then some [] else none
  | c :: s =>
    if c = '=' then
      if quad < 2 then decodeFrom quad left pads s
      else if 4 ≤ quad + (pads + 1) then some []
      else decodeFrom quad left (pads + 1) s
    else
      match sextet? c with
      | none => decodeFrom quad left pads s
      | some v =>
        match quad with
        | 0 => decodeFrom 1 v 0 s
        | 1 => (decodeFrom 2 (v % 16) 0 s).map (UInt8.ofNat (left * 4 + v / 16) :: ·)
        | 2 => (decodeFrom 3 (v % 4) 0 s).map (UInt8.ofNat (left * 16 + v / 4) :: ·)
        | _ => (decodeFrom 0 0 0 s).map (UInt8.ofNat (left * 64 + v) :: ·)

/-- `urlsafe_b64decode`, which is lenient: `none` only where the text ends in the middle of a
group. -/
def decode (s : List Char) : Option (List UInt8) := decodeFrom 0 0 0 s

theorem sextet?_digit {n : ℕ} (h : n < 64) : digit n ≠ '=' ∧ sextet? (digit n) = some n := by
  have : ∀ n < 64, digit n ≠ '=' ∧ sextet? (digit n) = some n := by decide +kernel
  exact this n h

variable {n left pads : ℕ} {s : List Char}

@[simp] theorem decodeFrom_zero_digit (h : n < 64) :
    decodeFrom 0 left pads (digit n :: s) = decodeFrom 1 n 0 s := by
  simp [decodeFrom, sextet?_digit h]

@[simp] theorem decodeFrom_one_digit (h : n < 64) :
    decodeFrom 1 left pads (digit n :: s) =
      (decodeFrom 2 (n % 16) 0 s).map (UInt8.ofNat (left * 4 + n / 16) :: ·) := by
  simp [decodeFrom, sextet?_digit h]

@[simp] theorem decodeFrom_two_digit (h : n < 64) :
    decodeFrom 2 left pads (digit n :: s) =
      (decodeFrom 3 (n % 4) 0 s).map (UInt8.ofNat (left * 16 + n / 4) :: ·) := by
  simp [decodeFrom, sextet?_digit h]

@[simp] theorem decodeFrom_three_digit (h : n < 64) :
    decodeFrom 3 left pads (digit n :: s) =
      (decodeFrom 0 0 0 s).map (UInt8.ofNat (left * 64 + n) :: ·) := by
  simp [decodeFrom, sextet?_digit h]

/-- **Any bytes are read back** from the text they are written as. The induction takes three bytes
at a time, as the encoding does. -/
theorem decode_encode (bytes : List UInt8) : decode (encode bytes) = some bytes := by
  rw [decode]
  induction bytes using encode.induct with
  | case1 => rfl
  | case2 a =>
    have ha := a.toNat_lt
    have hfirst : a.toNat / 4 * 4 + a.toNat % 4 * 16 / 16 = a.toNat := by omega
    rw [encode, decodeFrom_zero_digit (by omega), decodeFrom_one_digit (by omega), hfirst]
    simp [decodeFrom]
  | case3 a b =>
    have ha := a.toNat_lt
    have hb := b.toNat_lt
    have hfirst : a.toNat / 4 * 4 + (a.toNat % 4 * 16 + b.toNat / 16) / 16 = a.toNat := by omega
    have hsecond : (a.toNat % 4 * 16 + b.toNat / 16) % 16 * 16 + b.toNat % 16 * 4 / 4 =
        b.toNat := by omega
    rw [encode, decodeFrom_zero_digit (by omega), decodeFrom_one_digit (by omega),
      decodeFrom_two_digit (by omega), hfirst, hsecond]
    simp [decodeFrom]
  | case4 a b c rest ih =>
    have ha := a.toNat_lt
    have hb := b.toNat_lt
    have hc := c.toNat_lt
    have hfirst : a.toNat / 4 * 4 + (a.toNat % 4 * 16 + b.toNat / 16) / 16 = a.toNat := by omega
    have hsecond : (a.toNat % 4 * 16 + b.toNat / 16) % 16 * 16 +
        (b.toNat % 16 * 4 + c.toNat / 64) / 4 = b.toNat := by omega
    have hthird : (b.toNat % 16 * 4 + c.toNat / 64) % 4 * 64 + c.toNat % 64 = c.toNat := by omega
    rw [encode, decodeFrom_zero_digit (by omega), decodeFrom_one_digit (by omega),
      decodeFrom_two_digit (by omega), decodeFrom_three_digit (by omega), hfirst, hsecond, hthird,
      ih]
    simp

end Base64
