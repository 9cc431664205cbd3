import Grosh.Lib.KeyedTable
import Grosh.Domain
import Mathlib.Algebra.Order.BigOperators.Group.List
import Mathlib.Data.Rat.Floor

/-!
# The table of currency rates

`currency_rates` holds, for each source and pair, the rates that were polled and those that
were published for a moment. `RateDbEnv` holds what the database chooses: the order in which an
unordered query returns its rows, and new ids.

A rate is a `NUMERIC(18,8)`: it is rounded when it is stored, and may be a `NaN`, which no `Decimal`
of the service is equal to. The comparison of stored with given rates is defined here, with what a
column makes of a rate and what the service reads of it again.
-/

namespace Grosh

/-! ## Rates and their storage

Rates are `Decimal`s in the code and `NUMERIC(18,8)` in the table. What is stored is rounded to
eight decimals, and what is compared is not: the two types below keep this apart. -/

/-- A `Decimal` argument: a number, `NaN` or an infinity, all of which a float of the bank may
become. -/
inductive Decimal : Type where
  | finite (value : ℚ)
  | nan
  | infinite

/-- A value of `NUMERIC(18,8)`, in units of the eighth digit. The type admits `NaN`, and no
infinity. -/
inductive Numeric : Type where
  | units (n : ℤ) (bound : n.natAbs < 10 ^ 18)
  | nan
  deriving DecidableEq

/-- Rounding of a numeric to an integer: halves go away from zero, as PostgreSQL rounds. -/
def roundHalfAway (q : ℚ) : ℤ := if 0 ≤ q then ⌊q + 1 / 2⌋ else -⌊-q + 1 / 2⌋

/-- The assignment to a `NUMERIC(18,8)` column; `none` is a numeric field overflow. -/
def Decimal.toNumeric : Decimal → Option Numeric
  | .finite q =>
    let n := roundHalfAway (q * 10 ^ 8)
    if h : n.natAbs < 10 ^ 18 then some (.units n h) else none
  | .nan => some .nan
  | .infinite => none

/-- The comparison of a stored value with an argument, both as `Decimal`; `NaN` equals nothing, not
even itself. -/
def Numeric.equals : Numeric → Decimal → Bool
  | .units n _, .finite q => decide ((n : ℚ) / 10 ^ 8 = q)
  | _, _ => false

/-- The three rates a call passes. A rate a bank does not quote is missing, but for the middle
one. -/
structure RateValues : Type where
  rateBuy : Option Decimal
  rateSell : Option Decimal
  rateMid : Decimal

/-- The three rate columns of a row, as they are read back. -/
structure StoredRates : Type where
  rateBuy : Option Numeric
  rateSell : Option Numeric
  rateMid : Numeric
  deriving DecidableEq

/-- A nullable rate column: a missing rate is `NULL`. -/
def storeRate : Option Decimal → Option (Option Numeric)
  | none => some none
  | some d => d.toNumeric.map some

/-- The rate columns of the written row; `none` is a numeric field overflow, at which nothing is
written. -/
def storeRates (rates : RateValues) : Option StoredRates := do
  let rateBuy ← storeRate rates.rateBuy
  let rateSell ← storeRate rates.rateSell
  let rateMid ← rates.rateMid.toNumeric
  return ⟨rateBuy, rateSell, rateMid⟩

/-- Equality of a nullable rate with an argument: a missing rate equals a missing one only. -/
def rateEqual : Option Numeric → Option Decimal → Bool
  | none, none => true
  | some x, some d => x.equals d
  | _, _ => false

/-- `_rates_equal`: all three have to be equal for an observation to extend the open row. -/
def ratesEqual (row : StoredRates) (rates : RateValues) : Bool :=
  rateEqual row.rateBuy rates.rateBuy && rateEqual row.rateSell rates.rateSell &&
    row.rateMid.equals rates.rateMid

/-! ## The table

The rows of a pair are polled or historical. The two kinds lie side by side in one table, and a
query that does not say which it wants sees both. -/

/-- `(source, currency_from, currency_to)`: what a rate is a rate of. -/
structure RatePair : Type where
  source : String
  currencyFrom : String
  currencyTo : String
  deriving DecidableEq

/-- `NormalizedRate`: a rate of a source, as a provider hands it to the table. -/
structure NormalizedRate : Type where
  source : String
  currencyFrom : String
  currencyTo : String
  rateBuy : Option Decimal
  rateSell : Option Decimal
  rateMid : Decimal
  atTime : Timestamp

/-- The rates of a normalized rate, as they are passed to the table. -/
def NormalizedRate.values (r : NormalizedRate) : RateValues := ⟨r.rateBuy, r.rateSell, r.rateMid⟩

/-- The pair of a normalized rate: it names the rows the rate belongs to. -/
def NormalizedRate.pair (r : NormalizedRate) : RatePair := ⟨r.source, r.currencyFrom, r.currencyTo⟩

/-- A row of `currency_rates`. A polled row has `lastPolledAt`, and is open as long as it has no
`validTo`. -/
structure CurrencyRateRow : Type where
  id : UUID
  pair : RatePair
  rates : StoredRates
  validFrom : Timestamp
  validTo : Option Timestamp
  lastPolledAt : Option Timestamp
  updateCadenceSeconds : Option ℤ

/-- `currency_rates`, with the proof that its ids are unique. -/
abbrev RateTable : Type := KeyedTable CurrencyRateRow.id

/-- A historical row of a pair: `last_polled_at IS NULL`. It holds for the moment it was published
for. -/
def CurrencyRateRow.Historical (r : CurrencyRateRow) (pair : RatePair) : Prop :=
  r.pair = pair ∧ r.lastPolledAt = none

instance (r : CurrencyRateRow) (pair : RatePair) : Decidable (r.Historical pair) :=
  inferInstanceAs (Decidable (_ ∧ _))

/-- What the database chooses: the order of a query that names none, and the ids. Nothing that is
shown may depend on either. -/
structure RateDbEnv : Type where
  /-- the physical order of the rows a query returns -/
  scan : List CurrencyRateRow → List CurrencyRateRow
  scan_perm : ∀ rows, (scan rows).Perm rows
  /-- `uuidv7()` beside the ids in the table -/
  uuidv7 : List UUID → UUID
  uuidv7_fresh : ∀ ids, uuidv7 ids ∉ ids

/-- `conn.fetchrow` of a query without `ORDER BY`: some row of those that match, if there is one. -/
def fetchrow (env : RateDbEnv) (table : RateTable) (condition : CurrencyRateRow → Bool) :
    Option CurrencyRateRow :=
  (env.scan (table.rows.filter condition)).head?

variable {env : RateDbEnv} {table : RateTable}

theorem fetchrow_eq_some {condition : CurrencyRateRow → Bool} {r : CurrencyRateRow}
    (h : fetchrow env table condition = some r) : r ∈ table ∧ condition r = true := by
  have hmem := (env.scan_perm _).mem_iff.mp (List.mem_of_head? h)
  exact List.mem_filter.mp hmem

theorem fetchrow_eq_none {condition : CurrencyRateRow → Bool} :
    fetchrow env table condition = none ↔ ∀ r ∈ table, condition r = false := by
  rw [fetchrow, List.head?_eq_none_iff]
  have hnil : env.scan (table.rows.filter condition) = [] ↔ table.rows.filter condition = [] := by
    rw [← List.length_eq_zero_iff, (env.scan_perm _).length_eq, List.length_eq_zero_iff]
  rw [hnil, List.filter_eq_nil_iff]
  exact forall₂_congr fun r _ => by simp

/-- A database that returns rows in table order and counts ids up, for examples that run. -/
def sampleRateDb : RateDbEnv where
  scan := id
  scan_perm := fun rows => List.Perm.refl rows
  uuidv7 := fun ids => ids.sum + 1
  uuidv7_fresh := fun ids h => by
    have hle := List.single_le_sum (fun _ _ => Nat.zero_le _) _ h
    omega

/-! ## Storing a rate

What is equal to a stored value is stored as that value: the one fact about storage that the upserts
rest on. -/

theorem roundHalfAway_intCast (n : ℤ) : roundHalfAway n = n := by
  have hhalf : ∀ m : ℤ, ⌊(m : ℚ) + 1 / 2⌋ = m := by
    intro m
    rw [Int.floor_intCast_add]
    norm_num
  simp only [roundHalfAway]
  split
  · exact hhalf n
  · have hneg := hhalf (-n)
    rw [Int.cast_neg] at hneg
    rw [hneg, neg_neg]

/-- An argument equal to a stored value is stored as that value: it has no digits to be rounded
off. -/
theorem toNumeric_of_equals {x : Numeric} {d : Decimal} (h : x.equals d = true) :
    d.toNumeric = some x := by
  rcases x with ⟨n, hn⟩ | _
  swap
  · cases h
  rcases d with q | _ | _
  swap
  · cases h
  swap
  · cases h
  have hq : (n : ℚ) / 10 ^ 8 = q := of_decide_eq_true h
  have hround : roundHalfAway (q * 10 ^ 8) = n := by
    rw [← hq, div_mul_cancel₀ _ (by norm_num), roundHalfAway_intCast]
  simp only [Decimal.toNumeric, hround, dif_pos hn]

theorem storeRate_of_equal {x : Option Numeric} {d : Option Decimal} (h : rateEqual x d = true) :
    storeRate d = some x := by
  rcases x with _ | x <;> rcases d with _ | d
  · rfl
  · cases h
  · cases h
  · simp only [storeRate, toNumeric_of_equals h, Option.map_some]

/-- Rates equal to the stored ones are stored as they are, all three of them. -/
theorem storeRates_of_equal {row : StoredRates} {rates : RateValues}
    (h : ratesEqual row rates = true) : storeRates rates = some row := by
  simp only [ratesEqual, Bool.and_eq_true] at h
  obtain ⟨⟨hbuy, hsell⟩, hmid⟩ := h
  simp only [storeRates, storeRate_of_equal hbuy, storeRate_of_equal hsell,
    toNumeric_of_equals hmid]
  rfl

end Grosh
