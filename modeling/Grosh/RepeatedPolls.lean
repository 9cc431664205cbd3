import Grosh.Conversion
import Grosh.Normalization
import Grosh.PolledConcurrency

/-!
# Polling the same quote again

A poll that sees the rates of the open row is meant to extend it. `_rates_equal` compares the
stored rates, of eight decimals, with the `Decimal`s of the provider, and those may have more: a
middle rate is half of a sum. Such a quote never equals its own row, and every poll opens another.

* `repeatedPoll_iff` — a poll of the values the open row was written from keeps the rows exactly
  where every value is a multiple of the eighth decimal;
* `length_polls_of_exact`, `length_polls_of_not_exact` — so a repeated quote leaves one row, or one
  for each poll;
* `MonobankCurrencyRate.exact_of_short` — the provider returns such values for quotes of seven
  decimals.
-/

namespace Grosh

open DecimalFloat Transition

/-! ## The provider

Monobank quotes floats. Each becomes the decimal that `str` writes, and the middle of two is
computed from the decimals. -/

/-- A `float` of the bank's answer; a finite one is the decimal that `str` writes, which is the
shortest that reads back as the float. -/
inductive RateFloat : Type where
  | finite (d : Dec)
  | infinite (negative : Bool)
  | nan

/-- `Decimal(str(rate))`: no digit is added or lost. -/
def RateFloat.toDecimal : RateFloat → Decimal
  | .finite d => .finite d.value
  | .infinite _ => .infinite
  | .nan => .nan

/-- `(buy + sell) / 2`; `none` is an `InvalidOperation`, of two infinities of opposite signs. -/
def halfSum : RateFloat → RateFloat → Option Decimal
  | .nan, _ => some .nan
  | _, .nan => some .nan
  | .infinite negative, .infinite negative' => if negative = negative' then some .infinite else none
  | .infinite _, .finite _ => some .infinite
  | .finite _, .infinite _ => some .infinite
  | .finite a, .finite b =>
    some (.finite (div precision (add precision a b) (Dec.ofInt 2)).value)

/-- `MonobankCurrencyRate`: an item of the bank's answer, with numeric codes and either a cross rate
or two others. -/
structure MonobankCurrencyRate : Type where
  currencyCodeA : ℤ
  currencyCodeB : ℤ
  date : ℤ
  rateBuy : Option RateFloat
  rateSell : Option RateFloat
  rateCross : Option RateFloat

/-- The middle rate; `some none` where the bank gives no rate to take it from. A cross rate goes
before the other two. -/
def MonobankCurrencyRate.mid (r : MonobankCurrencyRate) : Option (Option Decimal) :=
  match r.rateCross, r.rateBuy, r.rateSell with
  | some cross, _, _ => some (some cross.toDecimal)
  | none, some buy, some sell => (halfSum buy sell).map some
  | none, _, _ => some none

/-- An item of `fetch_rates`: `some none` is skipped, `none` an exception, which ends the whole
poll. -/
def MonobankCurrencyRate.normalized (env : NormalizerEnv) (r : MonobankCurrencyRate) :
    Option (Option NormalizedRate) :=
  match numericToAlpha env r.currencyCodeA, numericToAlpha env r.currencyCodeB with
  | some currencyFrom, some currencyTo => do
    let mid ← r.mid
    match mid with
    | none => return none
    | some mid => do
      let atTime ← fromTimestamp r.date
      return some ⟨"monobank", currencyFrom, currencyTo, r.rateBuy.map RateFloat.toDecimal,
        r.rateSell.map RateFloat.toDecimal, mid, atTime⟩
  | _, _ => some none

/-- `fetch_rates` of Monobank, from what the bank answers: the items that are not skipped, in their
order. -/
def monobankFetchRates (env : NormalizerEnv) (raw : List MonobankCurrencyRate) :
    Option (List NormalizedRate) :=
  (raw.mapM (MonobankCurrencyRate.normalized env)).map List.reduceOption

/-- The call of `upsert_polled` for a rate: its values, its moment and the interval of the
poller. -/
def NormalizedRate.polledCall (r : NormalizedRate) (intervalSeconds : ℤ) : PolledCall :=
  ⟨r.values, intervalSeconds, r.atTime⟩

/-! ## Values that are stored as they are

A rate is rounded when it is stored and not when it is compared. Whether a second observation of it
is taken for equal is a matter of its digits. -/

/-- A multiple of the eighth decimal: storing it rounds nothing off. -/
def Decimal.Exact : Decimal → Prop
  | .finite q => ∃ n : ℤ, q = n / 10 ^ 8
  | .nan => False
  | .infinite => False

/-- The rates that are passed, without those that are missing. -/
def RateValues.all (rates : RateValues) : List Decimal :=
  rates.rateBuy.toList ++ rates.rateSell.toList ++ [rates.rateMid]

/-- Every rate is a multiple of the eighth decimal. -/
def RateValues.Exact (rates : RateValues) : Prop := ∀ d ∈ rates.all, d.Exact

variable {rates : RateValues} {row stored : StoredRates} {x : Numeric} {d : Decimal}

/-- A rate equals what is stored for it exactly if it is a multiple of the eighth decimal. -/
theorem equals_iff_exact (h : d.toNumeric = some x) : x.equals d = true ↔ d.Exact := by
  rcases d with q | _ | _
  · refine ⟨fun heq => ?_, fun hexact => ?_⟩
    · rcases x with ⟨n, hn⟩ | _
      · exact ⟨n, (of_decide_eq_true heq).symm⟩
      · cases heq
    · obtain ⟨n, rfl⟩ := hexact
      have hround : roundHalfAway ((n : ℚ) / 10 ^ 8 * 10 ^ 8) = n := by
        rw [div_mul_cancel₀ _ (by norm_num), roundHalfAway_intCast]
      simp only [Decimal.toNumeric, hround] at h
      split at h
      · obtain rfl := Option.some.inj h
        exact decide_eq_true rfl
      · cases h
  · obtain rfl := Option.some.inj h
    exact iff_of_false Bool.false_ne_true id
  · cases h

/-- A nullable rate equals what is stored for it exactly if it is missing or has no more than eight
decimals. -/
theorem rateEqual_iff_exact {x : Option Numeric} {d : Option Decimal} (h : storeRate d = some x) :
    rateEqual x d = true ↔ ∀ v ∈ d.toList, v.Exact := by
  rcases d with _ | d
  · obtain rfl := Option.some.inj h
    exact iff_of_true rfl fun v hv => absurd hv List.not_mem_nil
  · obtain ⟨y, hy, rfl⟩ := Option.map_eq_some_iff.mp h
    rw [Option.toList_some, List.forall_mem_singleton]
    exact equals_iff_exact hy

theorem storeRates_eq_some (h : storeRates rates = some stored) :
    storeRate rates.rateBuy = some stored.rateBuy ∧
      storeRate rates.rateSell = some stored.rateSell ∧
      rates.rateMid.toNumeric = some stored.rateMid := by
  obtain ⟨buy, hbuy, h⟩ := Option.bind_eq_some_iff.mp h
  obtain ⟨sell, hsell, h⟩ := Option.bind_eq_some_iff.mp h
  obtain ⟨mid, hmid, h⟩ := Option.bind_eq_some_iff.mp h
  obtain rfl := Option.some.inj h
  exact ⟨hbuy, hsell, hmid⟩

/-- **Rates equal what is stored for them** exactly if each is a multiple of the eighth decimal. -/
theorem ratesEqual_iff_exact (h : storeRates rates = some stored) :
    ratesEqual stored rates = true ↔ rates.Exact := by
  obtain ⟨hbuy, hsell, hmid⟩ := storeRates_eq_some h
  rw [ratesEqual, Bool.and_eq_true, Bool.and_eq_true, rateEqual_iff_exact hbuy,
    rateEqual_iff_exact hsell, equals_iff_exact hmid, RateValues.Exact, RateValues.all,
    List.forall_mem_append, List.forall_mem_append, List.forall_mem_singleton]

/-! ## A repeated poll

The open row was written from some values, and the same are polled again. What the call does is one
of three things, and the values say which. -/

variable {env : RateDbEnv} {table table' : RateTable} {pair : RatePair} {c : PolledCall}
  {cur r : CurrencyRateRow} {calls : List PolledCall}

/-- The open row that a call finds: some open row, where there are several. -/
def currentRow (env : RateDbEnv) (table : RateTable) (pair : RatePair) : Option CurrencyRateRow :=
  fetchrow env table fun r => decide (r.OpenPolled pair)

/-- The rows are the same, but for the poll and the cadence of the open row: no row is closed and
none is opened. -/
def KeepsRows (cur : CurrencyRateRow) (table table' : RateTable) : Prop :=
  ∃ lastPolledAt updateCadenceSeconds, ∀ r, r ∈ table' ↔
    r = { cur with lastPolledAt := lastPolledAt, updateCadenceSeconds := updateCadenceSeconds } ∨
      r ∈ table ∧ r ≠ cur

theorem currentRow_eq_some (h : currentRow env table pair = some cur) :
    cur ∈ table ∧ cur.OpenPolled pair := by
  obtain ⟨hcur, ho⟩ := fetchrow_eq_some h
  exact ⟨hcur, of_decide_eq_true ho⟩

/-- The only open row is the one that a call finds, in whatever order the database looks. -/
theorem currentRow_of_open (hone : AtMostOneOpen pair table) (hcur : cur ∈ table)
    (ho : cur.OpenPolled pair) : currentRow env table pair = some cur := by
  rcases hfound : currentRow env table pair with _ | r
  · exact absurd (decide_eq_true ho) (Bool.eq_false_iff.mp (fetchrow_eq_none.mp hfound cur hcur))
  · obtain ⟨hr, hro⟩ := currentRow_eq_some hfound
    rw [hone r hr cur hcur hro ho]

/-- Nothing changes for a call that raises: its transaction is rolled back. -/
theorem keepsRows_self (hcur : cur ∈ table) : KeepsRows cur table table := by
  refine ⟨cur.lastPolledAt, cur.updateCadenceSeconds, fun r => ⟨fun hr => ?_, ?_⟩⟩
  · by_cases heq : r = cur
    · exact Or.inl heq
    · exact Or.inr ⟨hr, heq⟩
  · rintro (rfl | ⟨hr, -⟩)
    · exact hcur
    · exact hr

/-- In a table the row is the only one of its id, so that an update by id touches no other. -/
theorem ne_iff_id_ne (hcur : cur ∈ table) (hr : r ∈ table) : r ≠ cur ↔ r.id ≠ cur.id :=
  not_congr ⟨fun heq => heq ▸ rfl, fun hid => KeyedTable.eq_of_key_eq hr hcur hid⟩

/-- An equal observation touches the open row: two of its columns, and nothing else. -/
theorem keepsRows_setPolled (hcur : cur ∈ table) :
    KeepsRows cur table (setPolled table cur.id c) := by
  refine ⟨some c.atTime, some c.updateCadenceSeconds, fun r => ?_⟩
  rw [mem_setPolled hcur]
  exact or_congr_right (and_congr_right fun hr => (ne_iff_id_ne hcur hr).symm)

/-- A call that opens a row does not keep the rows: there is one with a new id. -/
theorem not_keepsRows_of_mem (hcur : cur ∈ table) (hr : r ∈ table') (hnew : ¬ table.HasKey r.id) :
    ¬ KeepsRows cur table table' := by
  rintro ⟨lastPolledAt, updateCadenceSeconds, hrows⟩
  rcases (hrows r).mp hr with rfl | ⟨hr, -⟩
  · exact hnew ⟨cur, hcur, rfl⟩
  · exact hnew ⟨r, hr, rfl⟩

/-- The row opened in place of another has an id of its own. -/
theorem reopened_fresh {id : UUID} {validTo : Timestamp} :
    ¬ table.HasKey (openedRow env (setValidTo table id validTo) pair stored c).id := by
  have hfresh : ¬ (setValidTo table id validTo).HasKey
      (openedRow env (setValidTo table id validTo) pair stored c).id := openedRow_fresh
  rwa [setValidTo, KeyedTable.hasKey_updateWhere] at hfresh

/-- A call whose cadence does not fit its column raises, and leaves the table as it was. -/
theorem pollOne_of_not_fits (hfits : fitsInteger c.updateCadenceSeconds = false) :
    pollOne env pair table c = table := by
  have hm := pollOne_cases env pair table c
  generalize pollOne env pair table c = table' at hm ⊢
  cases hm with
  | raised => rfl
  | touched cur hst => exact absurd (hst.1.symm.trans hfits) Bool.noConfusion
  | reopened cur stored hst => exact absurd (hst.1.symm.trans hfits) Bool.noConfusion
  | opened stored hst => exact absurd (hst.1.symm.trans hfits) Bool.noConfusion

/-- Values that are stored as they are equal the open row's: it is touched. -/
theorem pollOne_of_exact (hcur : currentRow env table pair = some cur)
    (hwritten : storeRates c.rates = some cur.rates) (hexact : c.rates.Exact)
    (hfits : fitsInteger c.updateCadenceSeconds = true) :
    pollOne env pair table c = setPolled table cur.id c := by
  have hfound : fetchrow env table (fun r => decide (r.OpenPolled pair)) = some cur := hcur
  have heq : ratesEqual cur.rates c.rates = true := (ratesEqual_iff_exact hwritten).mpr hexact
  simp only [pollOne, upsertPolled, hfound, heq, if_true, touchPolled, hfits, Bool.true_eq_false,
    if_false]

/-- Others do not: the row is closed, and one like it is opened. -/
theorem pollOne_of_not_exact (hcur : currentRow env table pair = some cur)
    (hwritten : storeRates c.rates = some cur.rates) (hnot : ¬ c.rates.Exact)
    (hfits : fitsInteger c.updateCadenceSeconds = true) :
    pollOne env pair table c = (setValidTo table cur.id c.atTime).insertIgnore
      (openedRow env (setValidTo table cur.id c.atTime) pair cur.rates c) := by
  have hfound : fetchrow env table (fun r => decide (r.OpenPolled pair)) = some cur := hcur
  have heq : ratesEqual cur.rates c.rates = false :=
    Bool.eq_false_iff.mpr fun heq => hnot ((ratesEqual_iff_exact hwritten).mp heq)
  have hst : c.Storable := ⟨hfits, by rw [hwritten]; rfl⟩
  simp only [pollOne, upsertPolled, hfound, heq, Bool.false_eq_true, if_false,
    insertPolled_of_storable hst hwritten]

theorem not_keepsRows_of_not_exact (hcur : currentRow env table pair = some cur)
    (hwritten : storeRates c.rates = some cur.rates) (hnot : ¬ c.rates.Exact)
    (hfits : fitsInteger c.updateCadenceSeconds = true) :
    ¬ KeepsRows cur table (pollOne env pair table c) := by
  rw [pollOne_of_not_exact hcur hwritten hnot hfits]
  exact not_keepsRows_of_mem (currentRow_eq_some hcur).1 (mem_insert_opened.mpr (Or.inr rfl))
    reopened_fresh

/-- **A poll of the values the open row was written from** keeps the rows exactly if each value
is a multiple of the eighth decimal, or the call raises. -/
theorem repeatedPoll_iff (hcur : currentRow env table pair = some cur)
    (hwritten : storeRates c.rates = some cur.rates) :
    KeepsRows cur table (pollOne env pair table c) ↔
      c.rates.Exact ∨ fitsInteger c.updateCadenceSeconds = false := by
  rcases hfits : fitsInteger c.updateCadenceSeconds with _ | _
  · rw [pollOne_of_not_fits hfits]
    exact iff_of_true (keepsRows_self (currentRow_eq_some hcur).1) (Or.inr rfl)
  refine ⟨fun hkeeps => ?_, fun h => ?_⟩
  · by_contra hnot
    exact not_keepsRows_of_not_exact hcur hwritten (fun h => hnot (Or.inl h)) hfits hkeeps
  · rcases h with hexact | hraises
    · rw [pollOne_of_exact hcur hwritten hexact hfits]
      exact keepsRows_setPolled (currentRow_eq_some hcur).1
    · cases hraises

theorem forty_fits : (4000000000 : ℤ).natAbs < 10 ^ 18 := by decide

/-- The row of a cross rate of 40 hryvnias, polled once. -/
def sampleOpened : CurrencyRateRow where
  id := 1
  pair := samplePair
  rates := ⟨none, none, .units 4000000000 forty_fits⟩
  validFrom := 10
  validTo := none
  lastPolledAt := some 10
  updateCadenceSeconds := some 300

/-- The rate is polled again. -/
theorem repeatedPoll_iff_sample :
    KeepsRows sampleOpened (KeyedTable.empty.insertIgnore sampleOpened)
        (pollOne sampleRateDb samplePair (KeyedTable.empty.insertIgnore sampleOpened)
          (samplePoll 40 310)) ↔
      (samplePoll 40 310).rates.Exact ∨
        fitsInteger (samplePoll 40 310).updateCadenceSeconds = false :=
  repeatedPoll_iff rfl (by decide +kernel)

/-! ## Many polls

A quote that does not move, polled again and again. Either all polls together leave one row, or each
of them leaves one more. -/

/-- The open row of the pair, if it is the only one, was written from the rates. -/
structure OpenFrom (pair : RatePair) (rates : RateValues) (table : RateTable) : Prop where
  atMostOne : AtMostOneOpen pair table
  written : ∃ cur ∈ table, cur.OpenPolled pair ∧ storeRates rates = some cur.rates

/-- **A call that returns** leaves an open row written from its rates. -/
theorem openFrom_pollOne (hone : AtMostOneOpen pair table) (hst : c.Storable) :
    OpenFrom pair c.rates (pollOne env pair table c) := by
  have hm := pollOne_cases env pair table c
  generalize pollOne env pair table c = table' at hm ⊢
  cases hm with
  | raised hns => exact absurd hst hns
  | touched cur _ hcur ho heq =>
    refine ⟨hone.touch hcur ho, cur.touched c, (mem_setPolled hcur).mpr (Or.inl rfl), ?_,
      storeRates_of_equal heq⟩
    exact ⟨⟨ho.1.1, Option.some_ne_none _⟩, ho.2⟩
  | reopened cur stored _ hcur ho _ hs =>
    exact ⟨hone.reopen hcur ho, _, mem_insert_opened.mpr (Or.inr rfl),
      ⟨⟨rfl, Option.some_ne_none _⟩, rfl⟩, hs⟩
  | opened stored _ hnone hs =>
    exact ⟨atMostOneOpen_insert.mpr hnone, _, mem_insert_opened.mpr (Or.inr rfl),
      ⟨⟨rfl, Option.some_ne_none _⟩, rfl⟩, hs⟩

theorem OpenFrom.exists_current (h : OpenFrom pair rates table) :
    ∃ cur, currentRow env table pair = some cur ∧ storeRates rates = some cur.rates := by
  obtain ⟨cur, hcur, ho, hwritten⟩ := h.written
  exact ⟨cur, currentRow_of_open h.atMostOne hcur ho, hwritten⟩

/-- Also a call that raises: it leaves the table, and with it the row that was written from the
rates. -/
theorem OpenFrom.step (h : OpenFrom pair c.rates table) :
    OpenFrom pair c.rates (pollOne env pair table c) := by
  by_cases hst : c.Storable
  · exact openFrom_pollOne h.atMostOne hst
  have hm := pollOne_cases env pair table c
  generalize pollOne env pair table c = table' at hm ⊢
  cases hm with
  | raised => exact h
  | touched cur hst' => exact absurd hst' hst
  | reopened cur stored hst' => exact absurd hst' hst
  | opened stored hst' => exact absurd hst' hst

/-- A poll of exact values writes no row: the open one is extended. -/
theorem length_pollOne_of_exact (h : OpenFrom pair c.rates table) (hexact : c.rates.Exact) :
    (pollOne env pair table c).rows.length = table.rows.length := by
  obtain ⟨cur, hcur, hwritten⟩ := h.exists_current
  rcases hfits : fitsInteger c.updateCadenceSeconds with _ | _
  · rw [pollOne_of_not_fits hfits]
  · rw [pollOne_of_exact hcur hwritten hexact hfits, setPolled, KeyedTable.updateWhere_rows,
      List.length_map]

/-- A poll of others writes one: the open one is closed, though nothing has changed. -/
theorem length_pollOne_of_not_exact (h : OpenFrom pair c.rates table)
    (hfits : fitsInteger c.updateCadenceSeconds = true) (hnot : ¬ c.rates.Exact) :
    (pollOne env pair table c).rows.length = table.rows.length + 1 := by
  obtain ⟨cur, hcur, hwritten⟩ := h.exists_current
  rw [pollOne_of_not_exact hcur hwritten hnot hfits,
    KeyedTable.insertIgnore_rows_of_not_hasKey openedRow_fresh, List.length_append, setValidTo,
    KeyedTable.updateWhere_rows, List.length_map, List.length_singleton]

/-- **A quote of exact values** leaves one row, however often it is polled, also if some of the
calls raise. -/
theorem length_polls_of_exact (h : OpenFrom pair rates table) (hexact : rates.Exact)
    (hcalls : ∀ c ∈ calls, c.rates = rates) :
    (pollAll env pair table calls).rows.length = table.rows.length := by
  induction calls generalizing table with
  | nil => rfl
  | cons c calls ih =>
    obtain ⟨rfl, hcalls⟩ := List.forall_mem_cons.mp hcalls
    rw [pollAll, List.foldl_cons, ← pollAll, ih h.step hcalls, length_pollOne_of_exact h hexact]

/-- **Any other quote** leaves a row for each poll, as long as the calls do not raise. -/
theorem length_polls_of_not_exact (h : OpenFrom pair rates table) (hnot : ¬ rates.Exact)
    (hcalls : ∀ c ∈ calls, c.rates = rates ∧ fitsInteger c.updateCadenceSeconds = true) :
    (pollAll env pair table calls).rows.length = table.rows.length + calls.length := by
  induction calls generalizing table with
  | nil => rfl
  | cons c calls ih =>
    obtain ⟨⟨rfl, hfits⟩, hcalls⟩ := List.forall_mem_cons.mp hcalls
    rw [pollAll, List.foldl_cons, ← pollAll, ih h.step hcalls,
      length_pollOne_of_not_exact h hfits hnot, List.length_cons]
    omega

/-! ## Quotes of few decimals

The quotes of the bank have a few decimals only. With seven at most, their middle has eight and is
stored as it is. -/

/-- A multiple of the seventh decimal, of at most 26 digits, so that the sum of two needs no
rounding. -/
def RateFloat.Short : RateFloat → Prop
  | .finite d => ∃ n : ℤ, n.natAbs < 10 ^ 26 ∧ d.value = n / 10 ^ 7
  | .infinite _ => False
  | .nan => False

theorem roundSig_intCast {p : ℕ} {n e : ℤ} (hp : 1 ≤ p) (h : n.natAbs < 10 ^ p) :
    roundSig p ((n : ℚ) * 10 ^ e) = n * 10 ^ e := by
  rw [← Dec.value_int, Dec.value, roundSig_signOf,
    roundSig_of_numDigits_le hp ((numDigits_le_iff hp).mpr h)]

theorem RateFloat.Short.exact {q : RateFloat} (h : q.Short) : q.toDecimal.Exact := by
  rcases q with d | _ | _
  · obtain ⟨n, -, hn⟩ := h
    refine ⟨n * 10, ?_⟩
    rw [hn]
    push_cast
    ring
  · exact h
  · exact h

/-- The middle of two short quotes has one decimal more, which is still one that is stored. -/
theorem halfSum_exact {buy sell : RateFloat} (hbuy : buy.Short) (hsell : sell.Short)
    (h : halfSum buy sell = some d) : d.Exact := by
  rcases buy with a | _ | _
  rotate_left
  · exact hbuy.elim
  · exact hbuy.elim
  rcases sell with b | _ | _
  rotate_left
  · exact hsell.elim
  · exact hsell.elim
  obtain rfl := Option.some.inj h
  obtain ⟨n, hn, ha⟩ := hbuy
  obtain ⟨m, hm, hb⟩ := hsell
  have hprecision : 1 ≤ precision := by decide
  have htwo : (Dec.ofInt 2).coeff ≠ 0 := by decide
  have hsum : a.value + b.value = ((n + m : ℤ) : ℚ) * 10 ^ (-7 : ℤ) := by
    rw [ha, hb]
    push_cast
    ring
  have hhalf : ((n + m : ℤ) : ℚ) * 10 ^ (-7 : ℤ) / 2 = ((5 * (n + m) : ℤ) : ℚ) * 10 ^ (-8 : ℤ) := by
    push_cast
    ring
  refine ⟨5 * (n + m), ?_⟩
  rw [value_div hprecision _ htwo, value_add hprecision, Dec.value_ofInt, hsum,
    roundSig_intCast hprecision (by unfold precision; omega), Int.cast_ofNat, hhalf,
    roundSig_intCast hprecision (by unfold precision; omega)]
  ring

/-- The quotes of an item: those of the three rates that the bank has sent. -/
def MonobankCurrencyRate.quotes (r : MonobankCurrencyRate) : List RateFloat :=
  r.rateBuy.toList ++ r.rateSell.toList ++ r.rateCross.toList

theorem MonobankCurrencyRate.normalized_eq_some {nenv : NormalizerEnv} {r : MonobankCurrencyRate}
    {n : NormalizedRate} (h : r.normalized nenv = some (some n)) :
    ∃ mid, r.mid = some (some mid) ∧ n.values =
      ⟨r.rateBuy.map RateFloat.toDecimal, r.rateSell.map RateFloat.toDecimal, mid⟩ := by
  rw [normalized] at h
  split at h
  · obtain ⟨mid, hmid, h⟩ := Option.bind_eq_some_iff.mp h
    rcases mid with _ | mid
    · cases h
    obtain ⟨atTime, -, h⟩ := Option.bind_eq_some_iff.mp h
    obtain rfl := Option.some.inj (Option.some.inj h)
    exact ⟨mid, hmid, rfl⟩
  · cases h

/-- **Quotes of seven decimals** are stored as they are, and so is the middle of two. -/
theorem MonobankCurrencyRate.exact_of_short {nenv : NormalizerEnv} {r : MonobankCurrencyRate}
    {n : NormalizedRate} (h : r.normalized nenv = some (some n))
    (hshort : ∀ q ∈ r.quotes, q.Short) : n.values.Exact := by
  obtain ⟨mid, hmid, hvalues⟩ := normalized_eq_some h
  simp only [quotes, List.forall_mem_append] at hshort
  obtain ⟨⟨hbuy, hsell⟩, hcross⟩ := hshort
  have hexact : ∀ q : Option RateFloat, (∀ v ∈ q.toList, v.Short) →
      ∀ d ∈ (q.map RateFloat.toDecimal).toList, d.Exact := by
    intro q hq d hd
    rw [Option.mem_toList, Option.map_eq_some_iff] at hd
    obtain ⟨v, hv, rfl⟩ := hd
    exact (hq v (Option.mem_toList.mpr hv)).exact
  rw [hvalues, RateValues.Exact, RateValues.all, List.forall_mem_append, List.forall_mem_append,
    List.forall_mem_singleton]
  refine ⟨⟨hexact _ hbuy, hexact _ hsell⟩, ?_⟩
  rw [MonobankCurrencyRate.mid] at hmid
  split at hmid
  · next cross hcross' =>
    obtain rfl := Option.some.inj (Option.some.inj hmid)
    exact (hcross cross (by rw [hcross']; exact List.mem_singleton_self _)).exact
  · next buy sell _ hbuy' hsell' =>
    obtain ⟨m, hm, hmid⟩ := Option.map_eq_some_iff.mp hmid
    obtain rfl := Option.some.inj hmid
    exact halfSum_exact (hbuy buy (by rw [hbuy']; exact List.mem_singleton_self _))
      (hsell sell (by rw [hsell']; exact List.mem_singleton_self _)) hm
  · cases hmid

/-- Dollars and hryvnias. -/
def sampleCodes : NormalizerEnv :=
  ⟨fun _ => 0, fun code => if code = "840" then some "USD" else some "UAH"⟩

/-- Quotes of eight decimals, an odd distance apart, so that their middle has nine. -/
def sampleQuote (date : ℤ) : MonobankCurrencyRate where
  currencyCodeA := 840
  currencyCodeB := 980
  date := date
  rateBuy := some (.finite ⟨false, 12345678, -8⟩)
  rateSell := some (.finite ⟨false, 12345679, -8⟩)
  rateCross := none

/-- What the provider makes of them: a middle rate of nine decimals. -/
def sampleNineDecimals (date : ℤ) : NormalizedRate where
  source := "monobank"
  currencyFrom := "USD"
  currencyTo := "UAH"
  rateBuy := some (.finite (Dec.value ⟨false, 12345678, -8⟩))
  rateSell := some (.finite (Dec.value ⟨false, 12345679, -8⟩))
  rateMid := .finite (Dec.value ⟨false, 123456785, -9⟩)
  atTime := date * second

theorem normalized_sampleQuote {date : ℤ} (hdate : fromTimestamp date = some (date * second)) :
    (sampleQuote date).normalized sampleCodes = some (some (sampleNineDecimals date)) := by
  have hhalf : div precision (add precision ⟨false, 12345678, -8⟩ ⟨false, 12345679, -8⟩)
      (Dec.ofInt 2) = ⟨false, 123456785, -9⟩ := by decide +kernel
  have hmid : (sampleQuote date).mid =
      some (some (.finite (Dec.value ⟨false, 123456785, -9⟩))) := by
    rw [← hhalf]
    rfl
  have hfrom : numericToAlpha sampleCodes 840 = some "USD" := by decide +kernel
  have hto : numericToAlpha sampleCodes 980 = some "UAH" := by decide +kernel
  have hcodeA : (sampleQuote date).currencyCodeA = 840 := rfl
  have hcodeB : (sampleQuote date).currencyCodeB = 980 := rfl
  have htime : (sampleQuote date).date = date := rfl
  simp only [MonobankCurrencyRate.normalized, hcodeA, hcodeB, htime, hfrom, hto, hmid, hdate]
  rfl

/-- The middle rate has nine decimals: the second poll of the quote opens a row. -/
theorem not_keepsRows_of_nine_decimals :
    monobankFetchRates sampleCodes [sampleQuote 10] = some [sampleNineDecimals 10] ∧
      monobankFetchRates sampleCodes [sampleQuote 310] = some [sampleNineDecimals 310] ∧
      (sampleNineDecimals 310).values = (sampleNineDecimals 10).values ∧
      ∃ table cur, upsertPolled sampleRateDb .empty samplePair
          ((sampleNineDecimals 10).polledCall 300) = .ok table ∧
        currentRow sampleRateDb table samplePair = some cur ∧
        ¬ KeepsRows cur table
          (pollOne sampleRateDb samplePair table ((sampleNineDecimals 310).polledCall 300)) := by
  have hfetch : ∀ date, fromTimestamp date = some (date * second) →
      monobankFetchRates sampleCodes [sampleQuote date] = some [sampleNineDecimals date] := by
    intro date hdate
    simp only [monobankFetchRates, List.mapM_cons, List.mapM_nil, normalized_sampleQuote hdate]
    rfl
  have hnot : ¬ (sampleNineDecimals 310).values.Exact := by
    intro h
    obtain ⟨n, hn⟩ := h _ (List.mem_append_right _ (List.mem_singleton_self _))
    norm_num [Dec.value, signOf] at hn
    have hodd : (10 * n : ℚ) = 123456785 := by linarith
    have hodd' : 10 * n = 123456785 := by exact_mod_cast hodd
    omega
  have hst : ((sampleNineDecimals 10).polledCall 300).Storable := by decide +kernel
  obtain ⟨stored, hs⟩ := hst.exists_stored
  have hcall : upsertPolled sampleRateDb .empty samplePair
      ((sampleNineDecimals 10).polledCall 300) = .ok _ := insertPolled_of_storable hst hs
  have hnone : AtMostOneOpen samplePair (.empty : RateTable) :=
    fun r hr => absurd hr KeyedTable.not_mem_empty
  have hopen : OpenFrom samplePair (sampleNineDecimals 10).values
      (pollOne sampleRateDb samplePair .empty ((sampleNineDecimals 10).polledCall 300)) :=
    openFrom_pollOne hnone hst
  simp only [pollOne, hcall] at hopen
  obtain ⟨cur, hcur, hwritten⟩ := hopen.exists_current
  exact ⟨hfetch 10 rfl, hfetch 310 rfl, rfl, _, cur, hcall, hcur,
    not_keepsRows_of_not_exact hcur hwritten hnot (by decide)⟩

end Grosh
