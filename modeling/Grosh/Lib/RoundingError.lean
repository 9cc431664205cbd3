import Grosh.Lib.DecimalFloat

/-!
# The error of decimal rounding

How far rounding to `p` digits moves a number, and when the nearest integer does not notice.

The number of digits is a parameter throughout. What is rounded in between to digits and at the end
to an integer is the case that programs with amounts of money have, and the one that the last
results are about.

* `abs_roundSig_sub_le` — the relative error of one rounding is at most the unit roundoff.
* `abs_roundSig_mul_sub_le` — errors compound along a chain of products.
* `roundHalfUp_of_close` — the nearest integer stays the same where the error is less than the
  distance to every half.
* `roundHalfUp_roundSig_div` — a quotient of integers of less than `p` digits can be rounded to
  `p` digits first: it is a half exactly, or farther from every half than the error.
-/

namespace DecimalFloat

variable {p : ℕ} {x y c δ : ℚ} {n : ℤ}

/-! ## To the nearest integer

When two numbers that are close have the same nearest integer: if no half lies between them. -/

theorem abs_roundEven_sub_le (n : ℕ) {m : ℕ} (hm : 0 < m) :
    |(roundEven n m : ℚ) - n / m| ≤ 1 / 2 := by
  have hm' : (0 : ℚ) < m := by exact_mod_cast hm
  -- the quotient is `n / m` and a fraction that the remainder gives
  have hsplit : (n : ℚ) / m = (n / m : ℕ) + ((n % m : ℕ) : ℚ) / m := by
    rw [div_eq_iff hm'.ne', add_mul, div_mul_cancel₀ _ hm'.ne']
    exact_mod_cast (Nat.div_add_mod' n m).symm
  have hlt : ((n % m : ℕ) : ℚ) / m < 1 := by
    rw [div_lt_one hm']
    exact_mod_cast Nat.mod_lt n hm
  have hnonneg : (0 : ℚ) ≤ ((n % m : ℕ) : ℚ) / m := by positivity
  rw [hsplit, roundEven, abs_le]
  split
  · next h =>
    have hhalf : ((n % m : ℕ) : ℚ) / m ≤ 1 / 2 := by
      rw [div_le_div_iff₀ hm' two_pos]
      exact_mod_cast (by omega : n % m * 2 ≤ 1 * m)
    constructor <;> linarith
  split
  · next h =>
    have hhalf : (1 : ℚ) / 2 ≤ ((n % m : ℕ) : ℚ) / m := by
      rw [div_le_div_iff₀ two_pos hm']
      exact_mod_cast (by omega : 1 * m ≤ n % m * 2)
    push_cast
    constructor <;> linarith
  · have hhalf : ((n % m : ℕ) : ℚ) / m = 1 / 2 := by
      rw [div_eq_div_iff hm'.ne' two_ne_zero]
      exact_mod_cast (by omega : n % m * 2 = 1 * m)
    have hbit : ((n / m % 2 : ℕ) : ℚ) ≤ 1 := by
      exact_mod_cast Nat.le_of_lt_succ (Nat.mod_lt (n / m) two_pos)
    have hbit0 : (0 : ℚ) ≤ ((n / m % 2 : ℕ) : ℚ) := Nat.cast_nonneg _
    push_cast at hbit hbit0 ⊢
    constructor <;> linarith

theorem abs_roundHalfEven_sub_le (x : ℚ) : |(roundHalfEven x : ℚ) - x| ≤ 1 / 2 := by
  have hnonneg : ∀ y : ℚ, 0 ≤ y → |(roundHalfEven y : ℚ) - y| ≤ 1 / 2 := by
    intro y hy
    have hratio : ((y.num.toNat : ℕ) : ℚ) / y.den = y := by
      have hnum : ((y.num.toNat : ℕ) : ℚ) = y.num := by
        exact_mod_cast Int.toNat_of_nonneg (Rat.num_nonneg.mpr hy)
      rw [hnum, Rat.num_div_den]
    have h := abs_roundEven_sub_le y.num.toNat y.den_pos
    rw [hratio] at h
    rw [roundHalfEven, if_pos hy]
    exact_mod_cast h
  rcases le_total 0 x with hx | hx
  · exact hnonneg x hx
  · have h := hnonneg (-x) (neg_nonneg.mpr hx)
    rw [roundHalfEven_neg, Int.cast_neg, ← neg_add', abs_neg, ← sub_eq_add_neg] at h
    exact h

theorem abs_roundHalfUp_sub_le (x : ℚ) : |(roundHalfUp x : ℚ) - x| ≤ 1 / 2 := by
  have hfloor : ∀ y : ℚ, |(⌊y + 1 / 2⌋ : ℚ) - y| ≤ 1 / 2 := by
    intro y
    have hle := Int.floor_le (y + 1 / 2)
    have hlt := Int.lt_floor_add_one (y + 1 / 2)
    rw [abs_le]
    constructor <;> linarith
  rw [roundHalfUp]
  split
  · exact hfloor x
  · have h := hfloor (-x)
    rw [Int.cast_neg, ← neg_add', abs_neg, ← sub_neg_eq_add]
    exact h

/-- The integer less than a half away is the nearest. -/
theorem roundHalfUp_of_abs_lt (h : |x - n| < 1 / 2) : roundHalfUp x = n := by
  have hround := abs_roundHalfUp_sub_le x
  have hlt : |(roundHalfUp x : ℚ) - n| < 1 := by
    have htri := abs_sub_le (roundHalfUp x : ℚ) x n
    linarith
  have hint : |roundHalfUp x - n| < 1 := by exact_mod_cast hlt
  exact Int.sub_eq_zero.mp (Int.abs_lt_one_iff.mp hint)

/-- **An error less than the distance to every half** does not change the nearest integer. -/
theorem roundHalfUp_of_close (h : ∀ k : ℤ, |y - x| < |x - (k + 1 / 2)|) :
    roundHalfUp y = roundHalfUp x := by
  obtain ⟨hlow, hhigh⟩ := abs_le.mp (abs_roundHalfUp_sub_le x)
  -- the halves to the right and to the left of the nearest integer
  have hright : |y - x| < roundHalfUp x + 1 / 2 - x := by
    have hk := h (roundHalfUp x)
    rw [abs_sub_comm x] at hk
    exact lt_of_lt_of_eq hk (abs_of_nonneg (by linarith))
  have hleft : |y - x| < x - (roundHalfUp x - 1 / 2) := by
    have hk := h (roundHalfUp x - 1)
    rw [show ((roundHalfUp x - 1 : ℤ) : ℚ) + 1 / 2 = roundHalfUp x - 1 / 2 by push_cast; ring] at hk
    exact lt_of_lt_of_eq hk (abs_of_nonneg (by linarith))
  apply roundHalfUp_of_abs_lt
  rw [abs_lt]
  have hle := le_abs_self (y - x)
  have hge := neg_abs_le (y - x)
  constructor <;> linarith

/-- An error less than one moves the nearest integer by at most one. -/
theorem abs_roundHalfUp_sub_roundHalfUp_le (h : |y - x| < 1) :
    |roundHalfUp y - roundHalfUp x| ≤ 1 := by
  have hy := abs_roundHalfUp_sub_le y
  have hx := abs_roundHalfUp_sub_le x
  have hlt : |(roundHalfUp y : ℚ) - roundHalfUp x| < 2 := by
    have htri := abs_sub_le (roundHalfUp y : ℚ) y (roundHalfUp x)
    have htri' := abs_sub_le y x (roundHalfUp x : ℚ)
    rw [abs_sub_comm x] at htri'
    linarith
  have hint : |roundHalfUp y - roundHalfUp x| < 2 := by exact_mod_cast hlt
  omega

/-! ## To `p` digits

A rounding to digits moves a number by a share of itself. The shares of several roundings
multiply. -/

/-- The largest relative error of a rounding to `p` digits. -/
def unitRoundoff (p : ℕ) : ℚ := 1 / (2 * 10 ^ (p - 1))

theorem unitRoundoff_pos (p : ℕ) : 0 < unitRoundoff p := by
  rw [unitRoundoff]
  positivity

/-- **One rounding** moves a number by at most the unit roundoff, in proportion. -/
theorem abs_roundSig_sub_le (hp : 1 ≤ p) (x : ℚ) :
    |roundSig p x - x| ≤ unitRoundoff p * |x| := by
  rcases eq_or_ne x 0 with rfl | hx
  · simp
  have hq : (0 : ℚ) < 10 ^ quantum p x := zpow_pos (by norm_num) _
  have hnear := abs_roundHalfEven_sub_le (x / 10 ^ quantum p x)
  -- a unit of the last digit is at most the number over `10 ^ (p - 1)`
  have hunit : (10 : ℚ) ^ quantum p x * 10 ^ (p - 1) ≤ |x| := by
    have hlog := Int.zpow_log_le_self (b := 10) (by decide) (abs_pos.mpr hx)
    have hexp : (10 : ℚ) ^ quantum p x * 10 ^ (p - 1) = ((10 : ℕ) : ℚ) ^ Int.log 10 |x| := by
      rw [← zpow_natCast, ← zpow_add₀ (by norm_num), quantum]
      congr 1
      omega
    exact hexp.le.trans hlog
  have herror : roundSig p x - x =
      (roundHalfEven (x / 10 ^ quantum p x) - x / 10 ^ quantum p x) * 10 ^ quantum p x := by
    rw [roundSig, sub_mul, div_mul_cancel₀ _ hq.ne']
  rw [herror, abs_mul, abs_of_pos hq]
  calc |(roundHalfEven (x / 10 ^ quantum p x) : ℚ) - x / 10 ^ quantum p x| * 10 ^ quantum p x
      ≤ 1 / 2 * 10 ^ quantum p x := mul_le_mul_of_nonneg_right hnear hq.le
    _ = unitRoundoff p * (10 ^ quantum p x * 10 ^ (p - 1)) := by
        rw [unitRoundoff]
        field_simp
    _ ≤ unitRoundoff p * |x| := mul_le_mul_of_nonneg_left hunit (unitRoundoff_pos p).le

/-- **A product of a number that has an error**, rounded: the error of the rounding comes on top of
it. -/
theorem abs_roundSig_mul_sub_le (hp : 1 ≤ p) (hδ : |y - x| ≤ δ * |x|) (c : ℚ) :
    |roundSig p (y * c) - x * c| ≤ ((1 + unitRoundoff p) * (1 + δ) - 1) * |x * c| := by
  have hround := abs_roundSig_sub_le hp (y * c)
  have hfactor : |y * c - x * c| ≤ δ * |x * c| := by
    rw [← sub_mul, abs_mul, abs_mul, ← mul_assoc]
    exact mul_le_mul_of_nonneg_right hδ (abs_nonneg c)
  have hsize : |y * c| ≤ (1 + δ) * |x * c| := by
    have htri := abs_sub_abs_le_abs_sub (y * c) (x * c)
    linarith
  have hscaled := mul_le_mul_of_nonneg_left hsize (unitRoundoff_pos p).le
  have htri := abs_sub_le (roundSig p (y * c)) (y * c) (x * c)
  calc |roundSig p (y * c) - x * c|
      ≤ unitRoundoff p * |y * c| + δ * |x * c| := by linarith
    _ ≤ unitRoundoff p * ((1 + δ) * |x * c|) + δ * |x * c| := by linarith
    _ = ((1 + unitRoundoff p) * (1 + δ) - 1) * |x * c| := by ring

/-- An integer of at most `p` digits, at any exponent, is not rounded. -/
theorem roundSig_of_natAbs_lt (hp : 1 ≤ p) (h : n.natAbs < 10 ^ p) (e : ℤ) :
    roundSig p ((n : ℚ) * 10 ^ e) = n * 10 ^ e := by
  have habs := roundSig_of_numDigits_le (e := e) hp ((numDigits_le_iff hp).mpr h)
  obtain hn | hn := Int.natAbs_eq n
  · rw [hn, Int.cast_natCast]
    exact habs
  · rw [hn, Int.cast_neg, Int.cast_natCast, neg_mul, roundSig_neg, habs]

/-! ## Digits, then the nearest integer

Rounded to digits and then to an integer, a number might go a wrong way at a half. For quotients of
integers that are short enough it does not. -/

/-- A half has one digit after the point: below a power of ten it is not rounded. -/
theorem roundSig_half (hp : 1 ≤ p) {k : ℤ} (h : |(k : ℚ) + 1 / 2| < 10 ^ (p - 1)) :
    roundSig p ((k : ℚ) + 1 / 2) = k + 1 / 2 := by
  have hform : (k : ℚ) + 1 / 2 = ((10 * k + 5 : ℤ) : ℚ) * 10 ^ (-1 : ℤ) := by
    push_cast
    norm_num
    ring
  have hdigits : (10 * k + 5).natAbs < 10 ^ p := by
    have hten : (10 : ℚ) ^ p = 10 ^ (p - 1) * 10 := by
      rw [← pow_succ, Nat.sub_add_cancel hp]
    have hlt : |((10 * k + 5 : ℤ) : ℚ)| < 10 ^ p := by
      have heq : ((10 * k + 5 : ℤ) : ℚ) = ((k : ℚ) + 1 / 2) * 10 := by
        rw [hform, mul_assoc]
        norm_num
      rw [heq, abs_mul, hten]
      exact mul_lt_mul_of_pos_right h (by norm_num)
    rw [← Int.cast_abs, Int.abs_eq_natAbs, Int.cast_natCast] at hlt
    exact_mod_cast hlt
  rw [hform, roundSig_of_natAbs_lt hp hdigits]

/-- The distance of a quotient to a half is a number of halves of the denominator. -/
theorem le_abs_div_sub_half {m : ℕ} (hm : 0 < m) {k : ℤ} (h : (n : ℚ) / m ≠ k + 1 / 2) :
    1 / (2 * m) ≤ |(n : ℚ) / m - (k + 1 / 2)| := by
  have hm' : (0 : ℚ) < m := by exact_mod_cast hm
  have hdist : (n : ℚ) / m - (k + 1 / 2) = ((2 * n - (2 * k + 1) * m : ℤ) : ℚ) / (2 * m) := by
    push_cast
    field_simp
  have hne : 2 * n - (2 * k + 1) * m ≠ 0 := by
    intro h0
    rw [h0, Int.cast_zero, zero_div] at hdist
    exact h (sub_eq_zero.mp hdist)
  have hone : (1 : ℚ) ≤ |((2 * n - (2 * k + 1) * m : ℤ) : ℚ)| := by
    exact_mod_cast Int.one_le_abs hne
  rw [hdist, abs_div, abs_of_pos (by positivity : (0 : ℚ) < 2 * m)]
  exact div_le_div_of_nonneg_right hone (by positivity)

/-- **A quotient can be rounded twice**, first to digits and then to an integer, as if it had been
rounded once. -/
theorem roundHalfUp_roundSig_div (hp : 1 ≤ p) (hn : n.natAbs < 10 ^ (p - 1)) {m : ℕ}
    (hm : 0 < m) : roundHalfUp (roundSig p ((n : ℚ) / m)) = roundHalfUp ((n : ℚ) / m) := by
  have hm' : (0 : ℚ) < m := by exact_mod_cast hm
  have habs : |(n : ℚ)| < 10 ^ (p - 1) := by
    rw [← Int.cast_abs, Int.abs_eq_natAbs, Int.cast_natCast]
    exact_mod_cast hn
  by_cases hhalf : ∃ k : ℤ, (n : ℚ) / m = k + 1 / 2
  · obtain ⟨k, hk⟩ := hhalf
    have hsmall : |(n : ℚ) / m| < 10 ^ (p - 1) := by
      refine lt_of_le_of_lt ?_ habs
      rw [abs_div, abs_of_pos hm']
      exact div_le_self (abs_nonneg _) (by exact_mod_cast hm)
    rw [hk] at hsmall ⊢
    rw [roundSig_half hp hsmall]
  · apply roundHalfUp_of_close
    intro k
    have herror : |roundSig p ((n : ℚ) / m) - n / m| < 1 / (2 * m) := by
      apply lt_of_le_of_lt (abs_roundSig_sub_le hp _)
      rw [unitRoundoff, abs_div, abs_of_pos hm', div_mul_div_comm, one_mul,
        div_lt_div_iff₀ (by positivity) (by positivity)]
      nlinarith
    exact herror.trans_le (le_abs_div_sub_half hm fun hk => hhalf ⟨k, hk⟩)

end DecimalFloat
