import Mathlib.Algebra.Order.Field.Rat
import Mathlib.Data.Int.Log
import Mathlib.Data.Nat.Cast.Field
import Mathlib.Data.Rat.Floor
import Mathlib.Tactic.FieldSimp
import Mathlib.Tactic.Linarith
import Mathlib.Tactic.Positivity
import Mathlib.Tactic.Ring

/-!
# Decimal floating-point arithmetic

Decimals with a sign, a coefficient and an exponent, and the operations of Python's `decimal`
in a context of `p` digits that rounds halves to even: an operation is exact and then rounded to
`p` digits. Exponents have no limits here, so nothing overflows.

The arithmetic is specified by the rational values: `roundSig p x` is the decimal of `p` digits
nearest to `x`, of even last digit where there are two.

* `value_add`, `value_mul`, `value_div` — a sum, a product or a quotient is the rounded one; the
  quotient is computed with one digit that remembers a remainder (`roundEven_sticky`).
* `toInteger_eq_some` — quantizing to an integer rounds halves away from zero and fails exactly
  where the integer has more than `p` digits.
-/

namespace DecimalFloat

/-! ## Decimals

A decimal is what Python keeps: trailing zeros count, and so does the sign of zero. Every operation
takes the number of digits of the context. -/

/-- The finite decimal `±coeff · 10 ^ exp`. Two decimals may stand for one number. -/
structure Dec : Type where
  negative : Bool
  coeff : ℕ
  exp : ℤ
  deriving DecidableEq

/-- The factor of a sign, which stands outside of every rounding. -/
def signOf (negative : Bool) : ℚ := if negative then -1 else 1

/-- The number a decimal stands for. -/
def Dec.value (d : Dec) : ℚ := signOf d.negative * (d.coeff * 10 ^ d.exp)

/-- An integer as a decimal, with all of its digits. -/
def Dec.ofInt (n : ℤ) : Dec := ⟨decide (n < 0), n.natAbs, 0⟩

/-- The number of digits of a coefficient; zero has one. -/
def numDigits (n : ℕ) : ℕ := Nat.log 10 n + 1

/-- `n / m` to the nearest integer, halves to even: a quotient between two integers goes to the
nearer. -/
def roundEven (n m : ℕ) : ℕ :=
  if 2 * (n % m) < m then n / m
  else if m < 2 * (n % m) then n / m + 1
  else n / m + n / m % 2

/-- `_fix`: round to `p` digits, where there are more; otherwise the decimal is left as it is, with
its zeros. -/
def fix (p : ℕ) (d : Dec) : Dec :=
  if numDigits d.coeff ≤ p then d
  else
    let k := numDigits d.coeff - p
    let c := roundEven d.coeff (10 ^ k)
    if c = 10 ^ p then ⟨d.negative, 10 ^ (p - 1), d.exp + k + 1⟩
    else ⟨d.negative, c, d.exp + k⟩

/-- `a * b`: the exact product, rounded once. -/
def mul (p : ℕ) (a b : Dec) : Dec :=
  fix p ⟨a.negative ^^ b.negative, a.coeff * b.coeff, a.exp + b.exp⟩

/-- The signed coefficient at a lower exponent, at which decimals can be added. -/
def Dec.scaled (d : Dec) (e : ℤ) : ℤ :=
  (if d.negative then -1 else 1) * (d.coeff * 10 ^ (d.exp - e).toNat)

/-- `a + b`: the exact sum at the lower of the two exponents, rounded once. -/
def add (p : ℕ) (a b : Dec) : Dec :=
  let e := min a.exp b.exp
  let n := a.scaled e + b.scaled e
  fix p ⟨decide (n < 0), n.natAbs, e⟩

/-- Take off up to `k` trailing zeros, without changing the number. -/
def strip : ℕ → ℕ → ℤ → ℕ × ℤ
  | 0, c, e => (c, e)
  | k + 1, c, e => if c % 10 = 0 then strip k (c / 10) (e + 1) else (c, e)

/-- `a / b`, for `b` other than zero: one or two digits more than are kept, the last of them
never 0 or 5 where there is a remainder; an exact quotient comes as close as it can to the
exponent `a.exp - b.exp`. -/
def div (p : ℕ) (a b : Dec) : Dec :=
  let negative := a.negative ^^ b.negative
  if a.coeff = 0 then ⟨negative, 0, a.exp - b.exp⟩
  else
    let shift : ℤ := numDigits b.coeff - numDigits a.coeff + p + 1
    let n := a.coeff * 10 ^ shift.toNat
    let m := b.coeff * 10 ^ (-shift).toNat
    let exp := a.exp - b.exp - shift
    if n % m = 0 then
      let c := strip shift.toNat (n / m) exp
      fix p ⟨negative, c.1, c.2⟩
    else fix p ⟨negative, if n / m % 5 = 0 then n / m + 1 else n / m, exp⟩

/-- The integer nearest to a coefficient at an exponent, halves upwards, without any limit on its
digits. -/
def rescale (coeff : ℕ) (exp : ℤ) : ℕ :=
  if 0 ≤ exp then coeff * 10 ^ exp.toNat
  else (2 * coeff + 10 ^ (-exp).toNat) / (2 * 10 ^ (-exp).toNat)

/-- `int(d.quantize(Decimal(0), ROUND_HALF_UP))`; `none` is `InvalidOperation`: more digits than
the context has. -/
def toInteger (p : ℕ) (d : Dec) : Option ℤ :=
  if d.coeff = 0 then some 0
  else if (p : ℤ) < d.exp + numDigits d.coeff then none
  else
    let n := rescale d.coeff d.exp
    if p < numDigits n then none else some (if d.negative then -n else n)

/-- `str(d)`: the point where it stands among the digits, an exponent where it does not. -/
def Dec.text (d : Dec) : String :=
  let digits := Nat.toDigits 10 d.coeff
  let left : ℤ := d.exp + digits.length
  let dot : ℤ := if d.exp ≤ 0 ∧ -6 < left then left else 1
  let number :=
    if dot ≤ 0 then '0' :: '.' :: List.replicate (-dot).toNat '0' ++ digits
    else if (digits.length : ℤ) ≤ dot then
      digits ++ List.replicate (dot - digits.length).toNat '0'
    else digits.take dot.toNat ++ '.' :: digits.drop dot.toNat
  let exponent :=
    if left = dot then []
    else 'E' :: (if left < dot then '-' else '+') :: Nat.toDigits 10 (left - dot).natAbs
  String.ofList ((if d.negative then ['-'] else []) ++ number ++ exponent)

/-! ## The numbers they stand for

What the operations do to the numbers: each rounds the exact result to a number of `p` digits. The
rest of the development reasons about these. -/

/-- To the nearest integer, halves to even, on either side of zero. -/
def roundHalfEven (x : ℚ) : ℤ :=
  if 0 ≤ x then roundEven x.num.toNat x.den else -roundEven (-x).num.toNat (-x).den

/-- The exponent of the last of `p` digits of a number, by how large it is. -/
def quantum (p : ℕ) (x : ℚ) : ℤ := Int.log 10 |x| + 1 - p

/-- To the nearest number of `p` digits, halves to even: that is what a context rounds to. -/
def roundSig (p : ℕ) (x : ℚ) : ℚ := roundHalfEven (x / 10 ^ quantum p x) * 10 ^ quantum p x

/-- To the nearest integer, halves away from zero, as `ROUND_HALF_UP` has it. -/
def roundHalfUp (x : ℚ) : ℤ := if 0 ≤ x then ⌊x + 1 / 2⌋ else -⌊-x + 1 / 2⌋

/-! ## Rounding a quotient

A quotient is rounded from one digit more than it has, and whether there was a remainder. That is
enough to round it as if it were known exactly. -/

theorem roundEven_mul_right {n m c : ℕ} (hc : 0 < c) :
    roundEven (n * c) (m * c) = roundEven n m := by
  have hmod : 2 * (n * c % (m * c)) = 2 * (n % m) * c := by
    rw [Nat.mul_mod_mul_right, Nat.mul_assoc]
  simp only [roundEven, hmod, Nat.mul_div_mul_right n m hc, Nat.mul_lt_mul_right hc]

/-- Only the ratio counts: equal quotients round alike. -/
theorem roundEven_eq_of_cross {n m n' m' : ℕ} (hm : 0 < m) (hm' : 0 < m')
    (h : n * m' = n' * m) : roundEven n m = roundEven n' m' := by
  rw [← roundEven_mul_right hm', h, Nat.mul_comm m m', roundEven_mul_right hm]

@[simp] theorem roundEven_one (n : ℕ) : roundEven n 1 = n := by
  simp [roundEven, Nat.mod_one]

theorem roundEven_of_lt {n m : ℕ} (h : 2 * (n % m) < m) : roundEven n m = n / m := if_pos h

theorem roundEven_of_gt {n m : ℕ} (h : m < 2 * (n % m)) : roundEven n m = n / m + 1 := by
  rw [roundEven, if_neg (by omega), if_pos h]

/-- A digit that remembers the remainder rounds as the quotient does: the half of the places
dropped is a multiple of five, and such a digit is not. -/
theorem roundEven_sticky {n m k : ℕ} (hk : 1 ≤ k) (hr : n % m ≠ 0) (hm : 0 < m) :
    roundEven n (m * 10 ^ k) =
      roundEven (if n / m % 5 = 0 then n / m + 1 else n / m) (10 ^ k) := by
  obtain ⟨g, hg, hg5⟩ : ∃ g, 10 ^ k = 2 * g ∧ g % 5 = 0 := by
    obtain ⟨j, rfl⟩ : ∃ j, k = j + 1 := ⟨k - 1, by omega⟩
    exact ⟨5 * 10 ^ j, by rw [Nat.pow_succ]; ring, Nat.mul_mod_right 5 _⟩
  have hrm := Nat.mod_lt n hm
  have hdiv : n / (m * 10 ^ k) = n / m / 10 ^ k := (Nat.div_div_eq_div_mul n m _).symm
  have hmod : n % (m * 10 ^ k) = n % m + m * (n / m % 10 ^ k) := Nat.mod_mul
  rw [hg] at hdiv hmod ⊢
  have hs5 : n / m % (2 * g) % 5 = n / m % 5 :=
    Nat.mod_mod_of_dvd _ (Dvd.dvd.mul_left (Nat.dvd_of_mod_eq_zero hg5) 2)
  have hg0 : 0 < 2 * g := hg ▸ Nat.pow_pos (by decide)
  have hs := Nat.mod_lt (n / m) hg0
  have hq := Nat.div_add_mod (n / m) (2 * g)
  generalize hqe : n / m / (2 * g) = c at hdiv hq
  generalize hse : n / m % (2 * g) = t at hmod hs5 hs hq
  generalize n % m = r at hmod hr hrm
  -- below the half or above it, never at it
  have hsmall : t < g → 2 * (r + m * t) < m * (2 * g) := by
    intro hlt
    have := Nat.mul_le_mul_left m (Nat.succ_le_of_lt hlt)
    rw [Nat.mul_succ] at this
    rw [Nat.mul_left_comm]
    omega
  have hlarge : g ≤ t → m * (2 * g) < 2 * (r + m * t) := by
    intro hle
    have := Nat.mul_le_mul_left m hle
    rw [Nat.mul_left_comm]
    omega
  have hnext : t + 1 < 2 * g → (n / m + 1) / (2 * g) = c ∧ (n / m + 1) % (2 * g) = t + 1 := by
    intro hlt
    refine (Nat.div_mod_unique hg0).mpr ⟨?_, hlt⟩
    omega
  rcases Nat.lt_or_ge t g with hlt | hge
  · rw [roundEven_of_lt (by rw [hmod]; exact hsmall hlt), hdiv]
    split
    · obtain ⟨hc, ht⟩ := hnext (by omega)
      rw [roundEven_of_lt (by rw [ht]; omega), hc]
    · rw [roundEven_of_lt (by rw [hse]; omega), hqe]
  · rw [roundEven_of_gt (by rw [hmod]; exact hlarge hge), hdiv]
    split
    · obtain ⟨hc, ht⟩ := hnext (by omega)
      rw [roundEven_of_gt (by rw [ht]; omega), hc]
    · rw [roundEven_of_gt (by rw [hse]; omega), hqe]

theorem roundHalfEven_div {n m : ℕ} (hm : 0 < m) :
    roundHalfEven ((n : ℚ) / m) = roundEven n m := by
  have hnonneg : 0 ≤ (n : ℚ) / m := by positivity
  have hm' : (m : ℚ) ≠ 0 := by positivity
  rw [roundHalfEven, if_pos hnonneg]
  congr 1
  apply roundEven_eq_of_cross (Rat.den_pos _) hm
  have hnum : (((n : ℚ) / m).num.toNat : ℚ) = ((n : ℚ) / m).num := by
    have := Int.toNat_of_nonneg (Rat.num_nonneg.mpr hnonneg)
    exact_mod_cast this
  have hcross : (((n : ℚ) / m).num : ℚ) * m = n * ((n : ℚ) / m).den := by
    have hden : (((n : ℚ) / m).den : ℚ) ≠ 0 := by exact_mod_cast (Rat.den_pos _).ne'
    have heq := Rat.num_div_den ((n : ℚ) / m)
    rw [div_eq_div_iff hden hm'] at heq
    exact heq
  rw [← hnum] at hcross
  exact_mod_cast hcross

theorem roundHalfEven_zero : roundHalfEven 0 = 0 := by
  rw [roundHalfEven, if_pos le_rfl]
  rfl

theorem roundHalfEven_neg (x : ℚ) : roundHalfEven (-x) = -roundHalfEven x := by
  rcases lt_trichotomy x 0 with h | rfl | h
  · rw [roundHalfEven, roundHalfEven, if_pos (by linarith), if_neg (by linarith), neg_neg]
  · rw [neg_zero, roundHalfEven_zero, neg_zero]
  · rw [roundHalfEven, roundHalfEven, if_neg (by linarith), if_pos h.le, neg_neg]

/-! ## Rounding to digits

The rounding of a coefficient is the rounding of the number it stands for, at the exponent of its
last digit. -/

variable {p : ℕ} {x y : ℚ}

@[simp] theorem roundSig_zero (p : ℕ) : roundSig p 0 = 0 := by
  rw [roundSig, zero_div, roundHalfEven_zero, Int.cast_zero, zero_mul]

theorem roundSig_neg (p : ℕ) (x : ℚ) : roundSig p (-x) = -roundSig p x := by
  have hquantum : quantum p (-x) = quantum p x := by rw [quantum, abs_neg, quantum]
  rw [roundSig, hquantum, neg_div, roundHalfEven_neg, Int.cast_neg, neg_mul, roundSig]

/-- A quotient that has `p` digits before the point, at an exponent, is rounded at the point. -/
theorem roundSig_ratio {n m : ℕ} {e : ℤ} (hp : 1 ≤ p) (hm : 0 < m) (hlow : 10 ^ (p - 1) * m ≤ n)
    (hhigh : n < 10 ^ p * m) :
    roundSig p ((n : ℚ) / m * 10 ^ e) = roundEven n m * 10 ^ e := by
  have hm' : (0 : ℚ) < m := by exact_mod_cast hm
  have hn : 0 < n := lt_of_lt_of_le (Nat.mul_pos (Nat.pow_pos (by decide)) hm) hlow
  have hn' : (0 : ℚ) < n := by exact_mod_cast hn
  have hpos : 0 < (n : ℚ) / m * 10 ^ e := mul_pos (div_pos hn' hm') (zpow_pos (by norm_num) e)
  have hten : (10 : ℚ) ≠ 0 := by norm_num
  have hlow' : ((10 : ℕ) : ℚ) ^ (e + (p - 1 : ℕ)) ≤ (n : ℚ) / m * 10 ^ e := by
    rw [Nat.cast_ofNat, zpow_add₀ hten, zpow_natCast, mul_comm]
    refine mul_le_mul_of_nonneg_right ?_ (zpow_nonneg (by norm_num) e)
    rw [le_div_iff₀ hm']
    exact_mod_cast hlow
  have hhigh' : (n : ℚ) / m * 10 ^ e < ((10 : ℕ) : ℚ) ^ (e + p) := by
    rw [Nat.cast_ofNat, zpow_add₀ hten, zpow_natCast, mul_comm ((10 : ℚ) ^ e)]
    refine mul_lt_mul_of_pos_right ?_ (zpow_pos (by norm_num) e)
    rw [div_lt_iff₀ hm']
    exact_mod_cast hhigh
  have hge := (Int.zpow_le_iff_le_log (by decide) hpos).mp hlow'
  have hlt := (Int.lt_zpow_iff_log_lt (by decide) hpos).mp hhigh'
  have hquantum : quantum p ((n : ℚ) / m * 10 ^ e) = e := by
    rw [quantum, abs_of_pos hpos]
    omega
  rw [roundSig, hquantum, mul_div_assoc, div_self (zpow_ne_zero e hten), mul_one,
    roundHalfEven_div hm]
  push_cast
  rfl

theorem numDigits_bounds {n : ℕ} (h : n ≠ 0) : 10 ^ (numDigits n - 1) ≤ n ∧ n < 10 ^ numDigits n :=
  ⟨Nat.pow_log_le_self 10 h, Nat.lt_pow_succ_log_self (by decide) n⟩

theorem numDigits_le_iff {n k : ℕ} (hk : 1 ≤ k) : numDigits n ≤ k ↔ n < 10 ^ k := by
  rcases Nat.eq_zero_or_pos n with rfl | hn
  · simp [numDigits, hk]
  · rw [numDigits, Nat.succ_le_iff, Nat.log_lt_iff_lt_pow (by decide) hn.ne']

theorem signOf_ne_zero (b : Bool) : signOf b ≠ 0 := by
  cases b <;> simp [signOf]

theorem signOf_xor (b b' : Bool) : signOf (b ^^ b') = signOf b * signOf b' := by
  cases b <;> cases b' <;> simp [signOf]

/-- The sign stands outside the rounding. -/
theorem roundSig_signOf (p : ℕ) (b : Bool) (x : ℚ) :
    roundSig p (signOf b * x) = signOf b * roundSig p x := by
  cases b
  · simp [signOf]
  · simp [signOf, roundSig_neg]

/-- A coefficient of at most `p` digits is not rounded, at whatever exponent. -/
theorem roundSig_of_numDigits_le {c : ℕ} {e : ℤ} (hp : 1 ≤ p) (h : numDigits c ≤ p) :
    roundSig p ((c : ℚ) * 10 ^ e) = c * 10 ^ e := by
  rcases Nat.eq_zero_or_pos c with rfl | hc
  · simp
  obtain ⟨hlow, hhigh⟩ := numDigits_bounds hc.ne'
  generalize numDigits c = k at h hlow hhigh
  have hk : 1 ≤ k := by
    by_contra hk
    rw [show k = 0 by omega, pow_zero] at hhigh
    omega
  have hscale : (c : ℚ) * 10 ^ e =
      ((c * 10 ^ (p - k) : ℕ) : ℚ) / (1 : ℕ) * 10 ^ (e - (p - k : ℕ)) := by
    rw [zpow_sub₀ (by norm_num : (10 : ℚ) ≠ 0), zpow_natCast]
    push_cast
    field_simp
  rw [hscale, roundSig_ratio hp Nat.one_pos, roundEven_one]
  · simp
  · rw [mul_one, show p - 1 = (k - 1) + (p - k) by omega, pow_add]
    exact Nat.mul_le_mul_right _ hlow
  · rw [mul_one]
    calc c * 10 ^ (p - k) < 10 ^ k * 10 ^ (p - k) :=
          Nat.mul_lt_mul_of_pos_right hhigh (Nat.pow_pos (by decide))
      _ = 10 ^ p := by rw [← pow_add, Nat.add_sub_cancel' h]

/-- Rounding a decimal rounds its value: `_fix` is `roundSig` on numbers. -/
theorem value_fix (hp : 1 ≤ p) (d : Dec) : (fix p d).value = roundSig p d.value := by
  rw [Dec.value, Dec.value, roundSig_signOf]
  by_cases h : numDigits d.coeff ≤ p
  · rw [fix, if_pos h, roundSig_of_numDigits_le hp h]
  · have hc : d.coeff ≠ 0 := by
      intro hzero
      rw [hzero, numDigits, Nat.log_zero_right] at h
      omega
    obtain ⟨hlow, hhigh⟩ := numDigits_bounds hc
    obtain ⟨k, hk⟩ : ∃ k, numDigits d.coeff = p + k := ⟨numDigits d.coeff - p, by omega⟩
    rw [hk] at hlow hhigh
    have hvalue : (d.coeff : ℚ) * 10 ^ d.exp =
        (d.coeff : ℚ) / ((10 ^ k : ℕ) : ℚ) * 10 ^ (d.exp + k) := by
      rw [zpow_add₀ (by norm_num : (10 : ℚ) ≠ 0), zpow_natCast]
      push_cast
      field_simp
    rw [hvalue, roundSig_ratio hp (Nat.pow_pos (by decide)), fix, if_neg h, hk,
      Nat.add_sub_cancel_left]
    · simp only
      split
      · next hcarry =>
        have hpow : (10 : ℚ) ^ p = 10 ^ (p - 1) * 10 := by rw [← pow_succ, Nat.sub_add_cancel hp]
        rw [hcarry, zpow_add_one₀ (by norm_num : (10 : ℚ) ≠ 0)]
        push_cast
        rw [hpow]
        ring
      · rfl
    · rw [← pow_add, show p - 1 + k = p + k - 1 by omega]
      exact hlow
    · rw [← pow_add]
      exact hhigh

/-! ## The operations

The three operations on decimals are the exact ones on numbers, each rounded once. -/

theorem Dec.value_mul (b b' : Bool) (c c' : ℕ) (e e' : ℤ) :
    (⟨b ^^ b', c * c', e + e'⟩ : Dec).value =
      (⟨b, c, e⟩ : Dec).value * (⟨b', c', e'⟩ : Dec).value := by
  rw [Dec.value, Dec.value, Dec.value, signOf_xor, zpow_add₀ (by norm_num : (10 : ℚ) ≠ 0)]
  push_cast
  ring

/-- **A product is the rounded product.** -/
theorem value_mul (hp : 1 ≤ p) (a b : Dec) :
    (mul p a b).value = roundSig p (a.value * b.value) := by
  rw [mul, value_fix hp, Dec.value_mul]

theorem strip_value (k c : ℕ) (e : ℤ) :
    ((strip k c e).1 : ℚ) * 10 ^ (strip k c e).2 = c * 10 ^ e := by
  induction k generalizing c e with
  | zero => rfl
  | succ k ih =>
    rw [strip]
    split
    · next hc =>
      rw [ih, zpow_add_one₀ (by norm_num : (10 : ℚ) ≠ 0)]
      have hdvd : c = 10 * (c / 10) := by omega
      have hten : (c : ℚ) = 10 * ((c / 10 : ℕ) : ℚ) := by exact_mod_cast hdvd
      rw [hten]
      ring
    · rfl

/-- The decimal of a signed coefficient. -/
theorem Dec.value_int (n e : ℤ) : (⟨decide (n < 0), n.natAbs, e⟩ : Dec).value = n * 10 ^ e := by
  rw [value, ← mul_assoc, Nat.cast_natAbs]
  by_cases hn : n < 0
  · rw [decide_eq_true hn, abs_of_neg hn]
    simp [signOf]
  · rw [decide_eq_false hn, abs_of_nonneg (not_lt.mp hn)]
    simp [signOf]

theorem Dec.value_ofInt (n : ℤ) : (Dec.ofInt n).value = n := by
  rw [ofInt, value_int, zpow_zero, mul_one]

theorem Dec.value_scaled {d : Dec} {e : ℤ} (h : e ≤ d.exp) : d.scaled e * 10 ^ e = d.value := by
  obtain ⟨k, hk⟩ := Int.eq_ofNat_of_zero_le (sub_nonneg.mpr h)
  have hexp : d.exp = k + e := by omega
  rw [scaled, value, hk, Int.toNat_natCast, hexp, zpow_add₀ (by norm_num : (10 : ℚ) ≠ 0),
    zpow_natCast, signOf]
  push_cast
  ring

/-- **A sum is the rounded sum.** -/
theorem value_add (hp : 1 ≤ p) (a b : Dec) :
    (add p a b).value = roundSig p (a.value + b.value) := by
  rw [add, value_fix hp, Dec.value_int, Int.cast_add, add_mul,
    Dec.value_scaled (min_le_left _ _), Dec.value_scaled (min_le_right _ _)]

theorem Dec.value_eq_zero {d : Dec} : d.value = 0 ↔ d.coeff = 0 := by
  have hten : (10 : ℚ) ^ d.exp ≠ 0 := zpow_ne_zero _ (by norm_num)
  simp [Dec.value, hten, signOf_ne_zero]

/-- The quotient of two coefficients, as it is scaled, has more than `p` digits, so that the last of
them may be spent on the remainder. -/
theorem le_div_scaled {a b : ℕ} {shift : ℤ} (ha : a ≠ 0) (hb : b ≠ 0)
    (hshift : (numDigits b : ℤ) - numDigits a + p + 1 = shift) :
    10 ^ p * (b * 10 ^ (-shift).toNat) ≤ a * 10 ^ shift.toNat := by
  obtain ⟨ha, -⟩ := numDigits_bounds ha
  obtain ⟨-, hb⟩ := numDigits_bounds hb
  have hka : 1 ≤ numDigits a := by simp [numDigits]
  generalize numDigits a = ka at ha hka hshift
  generalize numDigits b = kb at hb hshift
  calc 10 ^ p * (b * 10 ^ (-shift).toNat) ≤ 10 ^ p * (10 ^ kb * 10 ^ (-shift).toNat) :=
        Nat.mul_le_mul_left _ (Nat.mul_le_mul_right _ hb.le)
    _ = 10 ^ (ka - 1) * 10 ^ shift.toNat := by
        rw [← pow_add, ← pow_add, ← pow_add]
        congr 1
        omega
    _ ≤ a * 10 ^ shift.toNat := Nat.mul_le_mul_right _ ha

/-- A digit that remembers the remainder does not change the rounding. -/
theorem roundSig_sticky {n m k : ℕ} (e : ℤ) (hp : 1 ≤ p) (hm : 0 < m) (hk : 1 ≤ k)
    (hr : n % m ≠ 0) (hlow : 10 ^ (p - 1 + k) ≤ n / m) (hhigh : n / m < 10 ^ (p + k)) :
    roundSig p (((if n / m % 5 = 0 then n / m + 1 else n / m : ℕ) : ℚ) * 10 ^ e) =
      roundSig p ((n : ℚ) / m * 10 ^ e) := by
  have hk0 : 0 < 10 ^ k := Nat.pow_pos (by decide)
  have hscale : ∀ q : ℚ, q * 10 ^ e = q / ((10 ^ k : ℕ) : ℚ) * 10 ^ (e + k) := by
    intro q
    rw [zpow_add₀ (by norm_num : (10 : ℚ) ≠ 0), zpow_natCast]
    push_cast
    field_simp
  -- a multiple of five is not the last number of its length
  have hlast : n / m % 5 = 0 → n / m + 1 < 10 ^ (p + k) := by
    intro h5
    have hten : 10 ^ (p + k) % 5 = 0 := by
      rw [show p + k = p + k - 1 + 1 by omega, pow_succ]
      omega
    omega
  have hq : 10 ^ (p - 1) * 10 ^ k ≤ (if n / m % 5 = 0 then n / m + 1 else n / m) ∧
      (if n / m % 5 = 0 then n / m + 1 else n / m) < 10 ^ p * 10 ^ k := by
    rw [← pow_add, ← pow_add]
    split
    · next h5 => exact ⟨by omega, hlast h5⟩
    · exact ⟨hlow, hhigh⟩
  rw [hscale, hscale ((n : ℚ) / m), div_div, ← Nat.cast_mul, roundSig_ratio hp hk0 hq.1 hq.2,
    roundSig_ratio hp (Nat.mul_pos hm hk0), roundEven_sticky hk hr hm]
  · rw [Nat.mul_left_comm, ← pow_add, Nat.mul_comm]
    exact (Nat.le_div_iff_mul_le hm).mp hlow
  · rw [Nat.mul_left_comm, ← pow_add, Nat.mul_comm]
    exact (Nat.div_lt_iff_lt_mul hm).mp hhigh

/-- **A quotient is the rounded quotient.** -/
theorem value_div (hp : 1 ≤ p) (a : Dec) {b : Dec} (hb : b.coeff ≠ 0) :
    (div p a b).value = roundSig p (a.value / b.value) := by
  rw [div]
  split
  · next ha => simp [Dec.value, ha]
  next ha =>
  dsimp only
  generalize hshift : (numDigits b.coeff : ℤ) - numDigits a.coeff + p + 1 = shift
  have hlow := le_div_scaled ha hb hshift
  generalize hn : a.coeff * 10 ^ shift.toNat = n at hlow ⊢
  generalize hm : b.coeff * 10 ^ (-shift).toNat = m at hlow ⊢
  have hm0 : 0 < m := hm ▸ Nat.mul_pos (Nat.pos_of_ne_zero hb) (Nat.pow_pos (by decide))
  have hten : (10 : ℚ) ≠ 0 := by norm_num
  have hquot : (a.coeff : ℚ) * 10 ^ a.exp / (b.coeff * 10 ^ b.exp) =
      (n : ℚ) / m * 10 ^ (a.exp - b.exp - shift) := by
    have hb' : (b.coeff : ℚ) ≠ 0 := by exact_mod_cast hb
    have hs : shift = (shift.toNat : ℤ) - ((-shift).toNat : ℤ) := by omega
    rw [← hn, ← hm, hs, zpow_sub₀ hten, zpow_sub₀ hten, zpow_sub₀ hten]
    simp only [Int.toNat_sub_toNat_neg, zpow_natCast]
    push_cast
    field_simp
  have hvalue : a.value / b.value =
      signOf (a.negative ^^ b.negative) * ((n : ℚ) / m * 10 ^ (a.exp - b.exp - shift)) := by
    have hsign : signOf a.negative / signOf b.negative = signOf (a.negative ^^ b.negative) := by
      cases a.negative <;> cases b.negative <;> simp [signOf]
    rw [Dec.value, Dec.value, mul_div_mul_comm, hquot, hsign]
  rw [hvalue]
  split
  · next hexact =>
    have hdiv : ((n / m : ℕ) : ℚ) = (n : ℚ) / m :=
      Nat.cast_div (Nat.dvd_of_mod_eq_zero hexact) (by exact_mod_cast hm0.ne')
    rw [value_fix hp, Dec.value, strip_value, hdiv]
  · next hinexact =>
    have hdigits : n / m ≠ 0 := by
      have := (Nat.le_div_iff_mul_le hm0).mpr hlow
      have := Nat.pow_pos (n := p) (by decide : 0 < 10)
      omega
    obtain ⟨hqlow, hqhigh⟩ := numDigits_bounds hdigits
    obtain ⟨k, hk, hk1⟩ : ∃ k, numDigits (n / m) = p + k ∧ 1 ≤ k := by
      have hlt := lt_of_le_of_lt ((Nat.le_div_iff_mul_le hm0).mpr hlow) hqhigh
      have := (Nat.pow_lt_pow_iff_right (by decide)).mp hlt
      exact ⟨numDigits (n / m) - p, by omega, by omega⟩
    rw [hk] at hqlow hqhigh
    rw [show p + k - 1 = p - 1 + k by omega] at hqlow
    rw [value_fix hp, Dec.value, roundSig_signOf, roundSig_signOf,
      roundSig_sticky _ hp hm0 hk1 hinexact hqlow hqhigh]

/-! ## Quantizing to an integer

The last step of a conversion: an integer, or an exception where it is too long for the context. -/

theorem rescale_eq_floor (c : ℕ) (e : ℤ) : (rescale c e : ℤ) = ⌊(c : ℚ) * 10 ^ e + 1 / 2⌋ := by
  rw [rescale]
  split
  · next he =>
    have hint : (c : ℚ) * 10 ^ e = ((c * 10 ^ e.toNat : ℕ) : ℤ) := by
      have hexp : (10 : ℚ) ^ e = 10 ^ e.toNat := by
        rw [← zpow_natCast, Int.toNat_of_nonneg he]
      rw [hexp]
      push_cast
      rfl
    rw [hint, Int.floor_intCast_add]
    norm_num
  · next he =>
    obtain ⟨k, rfl⟩ : ∃ k : ℕ, e = -(k : ℤ) := ⟨(-e).toNat, by omega⟩
    have hk : (-(-(k : ℤ))).toNat = k := by omega
    have hquot : (c : ℚ) * 10 ^ (-(k : ℤ)) + 1 / 2 =
        ((2 * c + 10 ^ k : ℕ) : ℚ) / ((2 * 10 ^ k : ℕ) : ℚ) := by
      rw [zpow_neg, zpow_natCast]
      push_cast
      field_simp
    rw [hk, hquot, Rat.floor_natCast_div_natCast]
    rfl

/-- Where the point stands after more than `p` digits, the integer has more than `p`. -/
theorem le_rescale {c : ℕ} {e : ℤ} (hc : c ≠ 0) (h : (p : ℤ) < e + numDigits c) :
    10 ^ p ≤ rescale c e := by
  obtain ⟨hlow, -⟩ := numDigits_bounds hc
  have hd : 1 ≤ numDigits c := by simp [numDigits]
  generalize numDigits c = d at h hlow hd
  rw [rescale]
  split
  · next he =>
    calc 10 ^ p ≤ 10 ^ (d - 1 + e.toNat) := Nat.pow_le_pow_right (by decide) (by omega)
      _ = 10 ^ (d - 1) * 10 ^ e.toNat := pow_add _ _ _
      _ ≤ c * 10 ^ e.toNat := Nat.mul_le_mul_right _ hlow
  · next he =>
    have hle : 10 ^ p * 10 ^ (-e).toNat ≤ c := by
      rw [← pow_add]
      exact le_trans (Nat.pow_le_pow_right (by decide) (by omega)) hlow
    refine (Nat.le_div_iff_mul_le (Nat.mul_pos (by decide) (Nat.pow_pos (by decide)))).mpr ?_
    rw [Nat.mul_left_comm]
    exact le_trans (Nat.mul_le_mul_left 2 hle) (Nat.le_add_right _ _)

theorem roundHalfUp_signOf (b : Bool) {x : ℚ} (hx : 0 < x) :
    roundHalfUp (signOf b * x) = if b then -⌊x + 1 / 2⌋ else ⌊x + 1 / 2⌋ := by
  cases b
  · simp [signOf, roundHalfUp, hx.le]
  · have hneg : ¬ 0 ≤ -x := by linarith
    simp [signOf, roundHalfUp, hneg]

/-- **Quantizing to an integer** rounds halves away from zero, and fails exactly where the
integer has more than `p` digits. -/
theorem toInteger_eq_some (hp : 1 ≤ p) {d : Dec} {n : ℤ} :
    toInteger p d = some n ↔ n = roundHalfUp d.value ∧ n.natAbs < 10 ^ p := by
  rw [toInteger]
  split
  · next hc =>
    have hzero : roundHalfUp d.value = 0 := by
      rw [Dec.value_eq_zero.mpr hc, roundHalfUp, if_pos le_rfl]
      norm_num
    rw [hzero, Option.some.injEq]
    refine ⟨?_, fun h => h.1.symm⟩
    rintro rfl
    exact ⟨rfl, Nat.pow_pos (by decide)⟩
  next hc =>
  have hpos : 0 < (d.coeff : ℚ) * 10 ^ d.exp :=
    mul_pos (by exact_mod_cast Nat.pos_of_ne_zero hc) (zpow_pos (by norm_num) _)
  have hround : roundHalfUp d.value =
      if d.negative then -(rescale d.coeff d.exp : ℤ) else rescale d.coeff d.exp := by
    rw [Dec.value, roundHalfUp_signOf _ hpos, rescale_eq_floor]
  have habs : (roundHalfUp d.value).natAbs = rescale d.coeff d.exp := by
    rw [hround]
    split
    · rw [Int.natAbs_neg, Int.natAbs_natCast]
    · rw [Int.natAbs_natCast]
  split
  · next hlong =>
    have hlarge := le_rescale hc hlong
    refine ⟨fun h => absurd h (by simp), ?_⟩
    rintro ⟨rfl, hlt⟩
    omega
  · dsimp only
    split
    · next hmany =>
      refine ⟨fun h => absurd h (by simp), ?_⟩
      rintro ⟨rfl, hlt⟩
      rw [habs] at hlt
      have := (numDigits_le_iff hp).mpr hlt
      omega
    · next hfew =>
      have hlt := (numDigits_le_iff hp).mp (not_lt.mp hfew)
      rw [← hround, Option.some.injEq]
      refine ⟨?_, fun h => h.1.symm⟩
      rintro rfl
      exact ⟨rfl, habs ▸ hlt⟩

/-! ## Their text

Which characters may stand in the text of a decimal, and that they are few. -/

theorem mem_pointed {digits : List Char} {dot : ℤ} {c : Char}
    (h : c ∈ if dot ≤ 0 then '0' :: '.' :: List.replicate (-dot).toNat '0' ++ digits
      else if (digits.length : ℤ) ≤ dot then
        digits ++ List.replicate (dot - digits.length).toNat '0'
      else digits.take dot.toNat ++ '.' :: digits.drop dot.toNat) :
    c ∈ digits ∨ c = '0' ∨ c = '.' := by
  split at h
  · rcases List.mem_append.mp h with hzeros | hdigits
    · simp only [List.mem_cons, List.mem_replicate] at hzeros
      rcases hzeros with rfl | rfl | ⟨-, rfl⟩ <;> simp
    · exact Or.inl hdigits
  split at h
  · rcases List.mem_append.mp h with hdigits | hzeros
    · exact Or.inl hdigits
    · exact Or.inr (Or.inl (List.eq_of_mem_replicate hzeros))
  · rcases List.mem_append.mp h with hdigits | hrest
    · exact Or.inl (List.mem_of_mem_take hdigits)
    · rcases List.mem_cons.mp hrest with rfl | hdigits
      · exact Or.inr (Or.inr rfl)
      · exact Or.inl (List.mem_of_mem_drop hdigits)

theorem mem_exponent {left dot : ℤ} {c : Char}
    (h : c ∈ if left = dot then []
      else 'E' :: (if left < dot then '-' else '+') :: Nat.toDigits 10 (left - dot).natAbs) :
    c ∈ Nat.toDigits 10 (left - dot).natAbs ∨ c ∈ ['-', '+', '.', 'E'] := by
  split at h
  · cases h
  rcases List.mem_cons.mp h with rfl | h
  · exact Or.inr (by decide)
  rcases List.mem_cons.mp h with h | hdigits
  · right
    rw [h]
    split <;> decide
  · exact Or.inl hdigits

/-- The characters of a decimal's text. -/
theorem mem_text {d : Dec} {c : Char} (h : c ∈ d.text.toList) :
    c.isDigit = true ∨ c ∈ ['-', '+', '.', 'E'] := by
  have hdigits : ∀ {n : ℕ} {c : Char}, c ∈ Nat.toDigits 10 n → c.isDigit = true :=
    fun hc => Nat.isDigit_of_mem_toDigits (by decide) (by decide) hc
  rw [Dec.text, String.toList_ofList] at h
  rcases List.mem_append.mp h with h | hexponent
  · rcases List.mem_append.mp h with hsign | hnumber
    · split at hsign
      · rw [List.mem_singleton.mp hsign]
        decide
      · cases hsign
    · rcases mem_pointed hnumber with hdig | rfl | rfl
      · exact Or.inl (hdigits hdig)
      · decide
      · decide
  · exact (mem_exponent hexponent).imp_left hdigits

end DecimalFloat
