import Grosh.Conversion
import Grosh.Lib.RoundingError

/-!
# What conversion rounds

An amount goes through one or two legs in decimals of 28 digits, and only then to cents. The
exact amount is rounded once; the service rounds at each leg.

The rates are decimals of eight places, so a product has few digits and is exact, while a quotient
has as many as the context allows. How far two roundings may move an amount is bounded by a relative
error, and whether the cents notice depends on how near the exact amount is to a half.

* `convertedAmount_rounds` — one leg, and two of which the first multiplies, give the exact
  amount, rounded once; so do two legs wherever the exact amount is not next to a half of a cent,
  and never is the amount off by more than a cent.
* `convertedAmount_rounds_twice` — two legs round twice: a half of a cent is lost.
-/

namespace Grosh

open DecimalFloat

/-! ## The exact amount

What a conversion would be without rounding is a rational number, and rounding it once to cents is
what is meant. -/

/-- The rate is a positive number of a `NUMERIC(18,8)` column. -/
def RateStep.PositiveRate (step : RateStep) : Prop :=
  ∃ n : ℕ, 0 < n ∧ n < 10 ^ 18 ∧ step.rate.value = n / 10 ^ 8

/-- A step without rounding: the amount times the rate, or divided by it. -/
def RateStep.exact (step : RateStep) (x : ℚ) : ℚ :=
  if step.divide then x / step.rate.value else x * step.rate.value

/-- A path without rounding, one step after the other. -/
def RatePath.exact (path : RatePath) (x : ℚ) : ℚ :=
  path.steps.foldl (fun x step => step.exact x) x

/-- The largest relative error of two roundings, a little more than `10 ^ -27`. -/
def twoRoundings : ℚ := (1 + unitRoundoff precision) * (1 + unitRoundoff precision) - 1

/-- The second rounding of a path does no harm: it has one leg; or its first leg multiplies and
loses nothing, and if the second multiplies too, neither does that; or the exact amount is away
from every half. -/
def RatePath.RoundsOnce (amountCents : ℤ) : RatePath → Prop
  | .direct _ => True
  | .pivoted left right =>
    (left.divide = false ∧ |left.exact amountCents| < 10 ^ 19 ∧
        (right.divide = false → |right.exact (left.exact amountCents)| < 10 ^ 12)) ∨
      ∀ k : ℤ, twoRoundings * |right.exact (left.exact amountCents)| <
        |right.exact (left.exact amountCents) - (k + 1 / 2)|

variable {step left right : RateStep} {path : RatePath} {amountCents : ℤ}
  {x : ℚ}

theorem RateStep.scale_eq (step : RateStep) (x : ℚ) :
    step.scale x = roundSig precision (step.exact x) := rfl

theorem RateStep.PositiveRate.divisible (h : step.PositiveRate) : step.Divisible := by
  obtain ⟨n, hn, -, hvalue⟩ := h
  intro _
  rw [hvalue]
  positivity

/-- A step without rounding is a product with a factor that does not depend on the amount. -/
theorem RateStep.exact_eq_mul (step : RateStep) (x : ℚ) : step.exact x = x * step.exact 1 := by
  rw [exact, exact]
  split
  · rw [one_div, div_eq_mul_inv]
  · rw [one_mul]

theorem abs_exact_lt (h : fitsBigint (roundHalfUp x) = true) : |x| < 10 ^ 19 := by
  obtain ⟨hlow, hhigh⟩ := of_decide_eq_true h
  have hlow' : (-2 ^ 63 : ℚ) ≤ roundHalfUp x := by exact_mod_cast hlow
  have hhigh' : (roundHalfUp x : ℚ) < 2 ^ 63 := by exact_mod_cast hhigh
  obtain ⟨hbelow, habove⟩ := abs_le.mp (abs_roundHalfUp_sub_le x)
  rw [abs_lt]
  constructor <;> linarith

theorem forall_steps_pivoted {P : RateStep → Prop} :
    (∀ step ∈ (RatePath.pivoted left right).steps, P step) ↔ P left ∧ P right := by
  simp only [RatePath.steps, List.forall_mem_cons, List.not_mem_nil, false_implies, implies_true,
    and_true]

/-! ## One rounding

A leg that multiplies by a rate of eight decimals is exact as long as its 28 digits suffice. A leg
that divides is not, but it comes so close that the cents are the same. -/

/-- What a leg that multiplies makes of a decimal: another one, with eight decimals more. -/
theorem exact_multiply {n : ℕ} (hvalue : step.rate.value = n / 10 ^ 8) (hd : step.divide = false)
    (m e : ℤ) : step.exact (m * 10 ^ e) = ((m * n : ℤ) : ℚ) * 10 ^ (e - 8) := by
  have hscale : (10 : ℚ) ^ (e - 8) = 10 ^ e / 10 ^ 8 := by
    rw [zpow_sub₀ (by norm_num)]
    norm_num
  rw [RateStep.exact, hd, if_neg Bool.false_ne_true, hvalue, hscale]
  push_cast
  ring

/-- **A leg that multiplies** loses nothing while the product has 28 digits. -/
theorem scale_multiply (hrate : step.PositiveRate) (hd : step.divide = false) {m e : ℤ}
    (hsmall : |step.exact (m * 10 ^ e)| < 10 ^ 20 * 10 ^ e) :
    step.scale (m * 10 ^ e) = step.exact (m * 10 ^ e) := by
  obtain ⟨n, hn, -, hvalue⟩ := hrate
  have hscale : (0 : ℚ) < 10 ^ (e - 8) := zpow_pos (by norm_num) _
  have hbound : (10 : ℚ) ^ 20 * 10 ^ e = 10 ^ 28 * 10 ^ (e - 8) := by
    rw [zpow_sub₀ (by norm_num)]
    ring
  have hdigits : (m * n).natAbs < 10 ^ precision := by
    rw [exact_multiply hvalue hd, hbound, abs_mul, abs_of_pos hscale,
      mul_lt_mul_iff_left₀ hscale, ← Int.cast_abs, Int.abs_eq_natAbs, Int.cast_natCast] at hsmall
    exact_mod_cast hsmall
  rw [RateStep.scale_eq, exact_multiply hvalue hd,
    roundSig_of_natAbs_lt one_le_precision hdigits]

theorem scale_multiply_int (hrate : step.PositiveRate) (hd : step.divide = false) {m : ℤ}
    (hsmall : |step.exact m| < 10 ^ 19) : step.scale m = step.exact m := by
  have hscale := scale_multiply (m := m) (e := 0) hrate hd
  rw [zpow_zero, mul_one, mul_one] at hscale
  exact hscale (hsmall.trans (by norm_num))

/-- **A leg that divides** a decimal of 27 digits can be rounded once more. -/
theorem roundHalfUp_scale_divide (hrate : step.PositiveRate) (hd : step.divide = true) {m : ℤ}
    (hm : |(m : ℚ)| < 10 ^ 27) :
    roundHalfUp (step.scale (m * 10 ^ (-8 : ℤ))) =
      roundHalfUp (step.exact (m * 10 ^ (-8 : ℤ))) := by
  obtain ⟨n, hn, -, hvalue⟩ := hrate
  have hquotient : step.exact (m * 10 ^ (-8 : ℤ)) = m / n := by
    rw [RateStep.exact, hd, if_pos rfl, hvalue, zpow_neg]
    field_simp
  have hdigits : m.natAbs < 10 ^ (precision - 1) := by
    rw [← Int.cast_abs, Int.abs_eq_natAbs, Int.cast_natCast] at hm
    exact_mod_cast hm
  rw [RateStep.scale_eq, hquotient]
  exact roundHalfUp_roundSig_div one_le_precision hdigits hn

/-- **One leg** rounds as the exact amount does, whichever way it goes. -/
theorem roundHalfUp_scale (hrate : step.PositiveRate) (hamount : fitsBigint amountCents = true)
    (hsmall : |step.exact amountCents| < 10 ^ 19) :
    roundHalfUp (step.scale amountCents) = roundHalfUp (step.exact amountCents) := by
  rcases hd : step.divide with _ | _
  · rw [scale_multiply_int hrate hd hsmall]
  · have hform : (amountCents : ℚ) = ((amountCents * 10 ^ 8 : ℤ) : ℚ) * 10 ^ (-8 : ℤ) := by
      push_cast
      norm_num
      ring
    obtain ⟨hlow, hhigh⟩ := of_decide_eq_true hamount
    have hm : |((amountCents * 10 ^ 8 : ℤ) : ℚ)| < 10 ^ 27 := by
      have hint : |amountCents * 10 ^ 8| < 10 ^ 27 := by
        rw [abs_lt]
        omega
      exact_mod_cast hint
    rw [hform]
    exact roundHalfUp_scale_divide hrate hd hm

/-! ## Two roundings

The second leg starts from what the first has rounded. This is harmless as long as the exact amount
is not too close to half a cent. -/

theorem twoRoundings_nonneg : 0 ≤ twoRoundings := by
  norm_num [twoRoundings, unitRoundoff, precision]

theorem twoRoundings_lt : twoRoundings < 1 / 10 ^ 26 := by
  norm_num [twoRoundings, unitRoundoff, precision]

/-- The error of two legs, each of which rounds to 28 digits. -/
theorem abs_scale_sub_le (left right : RateStep) (x : ℚ) :
    |right.scale (left.scale x) - right.exact (left.exact x)| ≤
      twoRoundings * |right.exact (left.exact x)| := by
  have hleft := abs_roundSig_sub_le one_le_precision (left.exact x)
  rw [RateStep.scale_eq, RateStep.scale_eq, right.exact_eq_mul, right.exact_eq_mul (left.exact x)]
  exact abs_roundSig_mul_sub_le one_le_precision hleft _

/-- **Two legs** of which the first multiplies and loses nothing: then the second is the only one
that rounds. -/
theorem roundHalfUp_scale_scale (hleft : left.PositiveRate) (hright : right.PositiveRate)
    (hd : left.divide = false) (hsmall : |left.exact amountCents| < 10 ^ 19)
    (hproduct : right.divide = false → |right.exact (left.exact amountCents)| < 10 ^ 12) :
    roundHalfUp (right.scale (left.scale amountCents)) =
      roundHalfUp (right.exact (left.exact amountCents)) := by
  obtain ⟨n, -, -, hvalue⟩ := id hleft
  have hform : left.exact amountCents = ((amountCents * n : ℤ) : ℚ) * 10 ^ (-8 : ℤ) := by
    have hmul := exact_multiply hvalue hd amountCents 0
    rwa [zpow_zero, mul_one, zero_sub] at hmul
  rw [scale_multiply_int hleft hd hsmall, hform]
  rw [hform] at hsmall hproduct
  rcases hdr : right.divide with _ | _
  · rw [scale_multiply hright hdr]
    apply lt_of_lt_of_eq (hproduct hdr)
    norm_num
  · apply roundHalfUp_scale_divide hright hdr
    rw [abs_mul, abs_of_pos (by norm_num : (0 : ℚ) < 10 ^ (-8 : ℤ))] at hsmall
    norm_num at hsmall ⊢
    linarith

/-- **What conversion rounds.** Positive rates and an exact amount that fits make a path raise
nothing; the amount is at most a cent off, and it is the exact one wherever rounding twice does
no harm. -/
theorem convertedAmount_rounds (hrates : ∀ step ∈ path.steps, step.PositiveRate)
    (hamount : fitsBigint amountCents = true)
    (hfits : fitsBigint (roundHalfUp (path.exact amountCents)) = true) :
    ∃ n, (path.apply (.ofInt amountCents)).bind (toInteger precision) = some n ∧
      |n - roundHalfUp (path.exact amountCents)| ≤ 1 ∧
      (path.RoundsOnce amountCents → n = roundHalfUp (path.exact amountCents)) := by
  have hsmall := abs_exact_lt hfits
  have hbound : |path.convertedAmount amountCents - roundHalfUp (path.exact amountCents)| ≤ 1 ∧
      (path.RoundsOnce amountCents →
        path.convertedAmount amountCents = roundHalfUp (path.exact amountCents)) := by
    rcases path with step | ⟨left, right⟩
    · have hone := roundHalfUp_scale (hrates step (List.mem_singleton_self _)) hamount hsmall
      refine ⟨?_, fun _ => hone⟩
      rw [RatePath.convertedAmount, RatePath.scale, RatePath.exact]
      simp only [RatePath.steps, List.foldl_cons, List.foldl_nil, hone, sub_self, abs_zero,
        zero_le_one]
    · have herror := abs_scale_sub_le left right amountCents
      refine ⟨abs_roundHalfUp_sub_roundHalfUp_le (herror.trans_lt ?_), ?_⟩
      · have hlt := mul_lt_mul'' twoRoundings_lt hsmall twoRoundings_nonneg (abs_nonneg _)
        exact hlt.trans (by norm_num)
      · obtain ⟨hleft, hright⟩ := forall_steps_pivoted.mp hrates
        rintro (⟨hd, hsmall, hproduct⟩ | haway)
        · exact roundHalfUp_scale_scale hleft hright hd hsmall hproduct
        · exact roundHalfUp_of_close fun k => herror.trans_lt (haway k)
  refine ⟨path.convertedAmount amountCents, ?_, hbound⟩
  refine RatePath.apply_toInteger_eq_some.mpr ⟨fun step hs => (hrates step hs).divisible, rfl, ?_⟩
  obtain ⟨hlow, hhigh⟩ := of_decide_eq_true hfits
  have habs := abs_le.mp hbound.1
  simp only [precision]
  omega

/-! ### Legs at given rates

Paths that keep the cents, and paths that do not. -/

/-- A leg at a rate of `units / 10 ^ 8`, which multiplies or divides. -/
def sampleStep (units : ℕ) (reverse : Bool) : RateStep where
  currencyFrom := "USD"
  currencyTo := "UAH"
  source := "nbu"
  rateId := 1
  rate := ⟨false, units, -8⟩
  rateSide := .mid
  tier := .fresh
  proximitySeconds := 0
  divide := reverse

theorem positiveRate_sampleStep {units : ℕ} {reverse : Bool} (hpos : 0 < units)
    (hlt : units < 10 ^ 18) : (sampleStep units reverse).PositiveRate := by
  refine ⟨units, hpos, hlt, ?_⟩
  have hvalue : (sampleStep units reverse).rate.value =
      signOf false * ((units : ℚ) * 10 ^ (-8 : ℤ)) := rfl
  rw [hvalue, signOf, if_neg Bool.false_ne_true, one_mul, div_eq_mul_inv]
  norm_num

/-- A leg at a rate of 41.505, on its own. -/
def sampleDirect : RatePath := .direct (sampleStep 4150500000 false)

/-- A leg at a rate of 45, and one back at 41.505. -/
def samplePivoted : RatePath :=
  .pivoted (sampleStep 4500000000 false) (sampleStep 4150500000 true)

/-- A hundred cents on either path: 4150.5 cents are 4151, and 108.4… cents are 108. -/
theorem convertedAmount_rounds_paths :
    (∃ n, (sampleDirect.apply (.ofInt 100)).bind (toInteger precision) = some n ∧
      |n - roundHalfUp (sampleDirect.exact (100 : ℤ))| ≤ 1 ∧
      (sampleDirect.RoundsOnce 100 → n = roundHalfUp (sampleDirect.exact (100 : ℤ)))) ∧
    ∃ n, (samplePivoted.apply (.ofInt 100)).bind (toInteger precision) = some n ∧
      |n - roundHalfUp (samplePivoted.exact (100 : ℤ))| ≤ 1 ∧
      (samplePivoted.RoundsOnce 100 → n = roundHalfUp (samplePivoted.exact (100 : ℤ))) := by
  refine ⟨convertedAmount_rounds ?_ (by decide) (by decide +kernel),
    convertedAmount_rounds ?_ (by decide) (by decide +kernel)⟩
  · exact List.forall_mem_singleton.mpr (positiveRate_sampleStep (by decide) (by decide))
  · exact forall_steps_pivoted.mpr ⟨positiveRate_sampleStep (by decide) (by decide),
      positiveRate_sampleStep (by decide) (by decide)⟩

/-- Two legs round twice. Four cents divided by 3 and multiplied by 3.375 are 4.5 cents, which
are 5, but 4.4… after a quotient of 28 digits; and 2152202564186.4999999999999999 cents, a product
of 29 digits, come out as a half. -/
theorem convertedAmount_rounds_twice :
    (∀ step ∈ (RatePath.pivoted (sampleStep 300000000 true) (sampleStep 337500000 false)).steps,
      step.PositiveRate) ∧
    roundHalfUp ((RatePath.pivoted (sampleStep 300000000 true)
      (sampleStep 337500000 false)).exact (4 : ℤ)) = 5 ∧
    ((RatePath.pivoted (sampleStep 300000000 true) (sampleStep 337500000 false)).apply
      (.ofInt 4)).bind (toInteger precision) = some 4 ∧
    (∀ step ∈ (RatePath.pivoted (sampleStep 3 false) (sampleStep 7174008547008547 false)).steps,
      step.PositiveRate) ∧
    roundHalfUp ((RatePath.pivoted (sampleStep 3 false)
      (sampleStep 7174008547008547 false)).exact (1000000000039 : ℤ)) = 2152202564186 ∧
    ((RatePath.pivoted (sampleStep 3 false) (sampleStep 7174008547008547 false)).apply
      (.ofInt 1000000000039)).bind (toInteger precision) = some 2152202564187 := by
  refine ⟨forall_steps_pivoted.mpr ⟨?_, ?_⟩, by decide +kernel, by decide +kernel,
    forall_steps_pivoted.mpr ⟨?_, ?_⟩, by decide +kernel, by decide +kernel⟩
  · exact positiveRate_sampleStep (by decide) (by decide)
  · exact positiveRate_sampleStep (by decide) (by decide)
  · exact positiveRate_sampleStep (by decide) (by decide)
  · exact positiveRate_sampleStep (by decide) (by decide)

end Grosh
