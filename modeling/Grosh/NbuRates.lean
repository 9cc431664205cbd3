import Grosh.Conversion
import Grosh.Lib.PartialMap
import Grosh.HistoricalRates

/-!
# The rates of the National Bank

The bank publishes for a currency and a date the price of one unit. The daily poll takes it as it
is. The backfill reads `rate_per_unit`, the same price, but divides it by the units the currency is
quoted for. Both go through `upsert_historical`, and meet in the same slots of the same timelines.

Prices are decimals, and what is stored is their value at eight places. A price that is divided by
the units it is quoted for is stored as another one, unless there is one unit or the eight places do
not tell the two apart; that is all that stands between the two ways.

* `pollingAgrees_of_alike` — where both ways store the same price, every order and repetition leaves
  the same timelines, and a backfill of what is ingested changes no row;
* `pollingAgrees_iff` — the two ways agree exactly where they store the same price.
-/

namespace Grosh

open DecimalFloat Isoformat Numerals PartialMap

/-! ## The providers

Two endpoints of one bank, with a model for each. Both answer with the price of one unit; only one
of the two readers takes it so. -/

/-- `NbuRate`: an item of the daily endpoint. A `float` is the decimal that `str` writes for it. -/
structure NbuRate : Type where
  rate : Dec
  cc : String
  exchangeDate : String

/-- `NbuHistoricalRate`: an item of the historical endpoint. The alias of `amount` is
`rate_per_unit`, the price of one unit. -/
structure NbuHistoricalRate : Type where
  startDate : String
  currencyCodeL : String
  units : ℤ
  amount : Dec

/-- `_parse_nbu_date`, on texts of two, two and four digits; `none` is a `ValueError`. -/
def parseNbuDate (text : String) : Option Timestamp := do
  let (day, s) ← takeNumber 10 2 text.toList
  let s ← expect '.' s
  let (month, s) ← takeNumber 10 2 s
  let s ← expect '.' s
  let (year, s) ← takeNumber 10 4 s
  if IsDate year month day ∧ s = [] then some ((ymd2ord year month day - epochOrd) * dayMicros)
  else none

/-- An item of `fetch_rates`: the rate as it stands, at midnight of its date. -/
def NbuRate.normalized (r : NbuRate) : Option NormalizedRate :=
  (parseNbuDate r.exchangeDate).map fun atTime =>
    ⟨"nbu", r.cc, Currency.UAH.code, none, none, .finite r.rate.value, atTime⟩

/-- An item of `fetch_historical_rates`; `none` is also a division by zero. The price of one unit is
divided by the units. -/
def NbuHistoricalRate.normalized (r : NbuHistoricalRate) : Option NormalizedRate :=
  if r.units = 0 then none
  else
    (parseNbuDate r.startDate).map fun atTime =>
      ⟨"nbu", r.currencyCodeL, Currency.UAH.code, none, none,
        .finite (div precision r.amount (Dec.ofInt r.units)).value, atTime⟩

/-- `fetch_rates`, from what the daily endpoint answers. One item that cannot be read fails all of
them. -/
def fetchRates (raw : List NbuRate) : Option (List NormalizedRate) :=
  raw.mapM NbuRate.normalized

/-- `all_alpha_codes`: the currencies the services know. -/
def allAlphaCodes : List String :=
  [Currency.UAH, .USD, .EUR, .GBP, .PLN, .CZK, .CHF, .JPY, .CNY, .TRY].map Currency.code

/-- The currencies of the backfill: all but the hryvnia, in which the prices are. -/
def backfillCodes : List String := allAlphaCodes.filter fun c => decide (c ≠ Currency.UAH.code)

/-- `fetch_historical_rates`, from what the historical endpoint answers for each currency. One item
that cannot be read fails all of them. -/
def fetchHistoricalRates (raw : String → List NbuHistoricalRate) : Option (List NormalizedRate) :=
  (backfillCodes.flatMap raw).mapM NbuHistoricalRate.normalized

/-- The call of `upsert_historical` for a rate: only the middle one is there. -/
def NormalizedRate.call (r : NormalizedRate) : HistoricalCall :=
  ⟨r.currencyFrom, r.currencyTo, r.values, r.atTime⟩

/-! ## Publications

What the bank publishes, apart from how it is fetched. Both endpoints tell of the same publications,
and a fetch is some of them from one of the two. -/

/-- A publication: the price of one unit in hryvnias, and the units the currency is quoted for. The
date is counted from 1 January of year 1. -/
structure Publication : Type where
  currency : String
  date : ℕ
  price : Dec
  units : ℤ
  date_range : 1 ≤ date ∧ date ≤ 3652059
  units_pos : 0 < units

/-- The two endpoints. The daily one gives all currencies of a date, the historical one the dates of
a currency. -/
inductive NbuEndpoint : Type where
  | daily
  | historical
  deriving DecidableEq

namespace Publication

/-- What a publication is about: its currency and its date. No two publications are about the
same. -/
def key (p : Publication) : String × ℕ := (p.currency, p.date)

/-- Its date as both endpoints write it, `DD.MM.YYYY`. -/
def dateText (p : Publication) : String :=
  let ymd := ord2ymd p.date
  String.ofList (padded 10 2 ymd.2.2 ++ '.' :: (padded 10 2 ymd.2.1 ++ '.' :: (padded 10 4 ymd.1 ++
    [])))

/-- At the daily endpoint: the price as it is. -/
def nbuRate (p : Publication) : NbuRate := ⟨p.price, p.currency, p.dateText⟩

/-- At the historical endpoint: the same price, and the units. -/
def nbuHistoricalRate (p : Publication) : NbuHistoricalRate :=
  ⟨p.dateText, p.currency, p.units, p.price⟩

/-- The backfill fetches the currency. Of the others only the daily poll tells. -/
def Tracked (p : Publication) : Prop := p.currency ∈ backfillCodes

instance (p : Publication) : Decidable p.Tracked :=
  inferInstanceAs (Decidable (_ ∈ backfillCodes))

/-- Midnight of the date, which the rate is stored for. -/
def atTime (p : Publication) : Timestamp := (p.date - epochOrd) * dayMicros

/-- The rate that is made of a publication by the reader of an endpoint. -/
def rate (p : Publication) : NbuEndpoint → Dec
  | .daily => p.price
  | .historical => div precision p.price (Dec.ofInt p.units)

/-- The price that is stored for it; `none` does not fit the column. -/
def stored (p : Publication) (endpoint : NbuEndpoint) : Option Numeric :=
  (Decimal.finite (p.rate endpoint).value).toNumeric

/-- The call it is ingested by, at an endpoint. -/
def call (p : Publication) (endpoint : NbuEndpoint) : HistoricalCall :=
  ⟨p.currency, Currency.UAH.code, ⟨none, none, .finite (p.rate endpoint).value⟩, p.atTime⟩

end Publication

/-- What the bank publishes: one price for a currency and a date, once and for all. -/
structure Publications : Type where
  rows : List Publication
  nodup : (rows.map Publication.key).Nodup

/-- A fetch: some of the publications, from one of the endpoints. -/
inductive NbuFetch : Type where
  | daily (publications : List Publication)
  | historical (publications : List Publication)

/-- What a fetch returns. The historical endpoint is asked for one currency after another, and those
that nobody asks for are left out. -/
def NbuFetch.rates : NbuFetch → Option (List NormalizedRate)
  | .daily ps => fetchRates (ps.map Publication.nbuRate)
  | .historical ps => fetchHistoricalRates fun code =>
      (ps.filter fun p => decide (p.currency = code)).map Publication.nbuHistoricalRate

/-- The calls that a fetch is ingested by, in the order of its rates. -/
def NbuFetch.calls (f : NbuFetch) : List HistoricalCall :=
  (f.rates.getD []).map NormalizedRate.call

/-- A sequence of fetches is ingested. A fetch that is not ingested to its end, for an exception,
is one of fewer publications. -/
def ingestNbu (env : RateDbEnv) (table : RateTable) (fetches : List NbuFetch) : RateTable :=
  upsertAll env "nbu" table (fetches.flatMap NbuFetch.calls)

/-! ## What a fetch ingests

The parsing is undone here once and for all: a fetch is a list of calls, one for each publication it
is given. -/

variable {env : RateDbEnv} {table : RateTable} {P : Publications} {p p' : Publication}
  {f : NbuFetch} {fetches fetches' : List NbuFetch} {ps : List Publication}

/-- The publications a fetch ingests, in the order in which it does. -/
def NbuFetch.ingested : NbuFetch → List Publication
  | .daily ps => ps
  | .historical ps =>
    backfillCodes.flatMap fun code => ps.filter fun p => decide (p.currency = code)

/-- The endpoint a fetch asks, which decides about the rate it makes of a price. -/
def NbuFetch.endpoint : NbuFetch → NbuEndpoint
  | .daily _ => .daily
  | .historical _ => .historical

theorem NbuFetch.mem_ingested_historical :
    p ∈ (NbuFetch.historical ps).ingested ↔ p ∈ ps ∧ p.Tracked := by
  simp only [ingested, List.mem_flatMap, List.mem_filter, decide_eq_true_eq, Publication.Tracked]
  refine ⟨?_, fun h => ⟨p.currency, h.2, h.1, rfl⟩⟩
  rintro ⟨code, hcode, hp, rfl⟩
  exact ⟨hp, hcode⟩

/-- The date is read back as its midnight, from the text both endpoints write. -/
theorem Publication.parseNbuDate_dateText (p : Publication) :
    parseNbuDate p.dateText = some p.atTime := by
  have hten : 10 ≤ 16 := by decide
  obtain ⟨hdate, hord⟩ := ymd2ord_ord2ymd p.date_range.1
  have hyear : (ord2ymd p.date).1 < 10 ^ 4 :=
    Nat.lt_of_le_of_lt (ord2ymd_year_le p.date_range.1 p.date_range.2) (by decide)
  have hmonth : (ord2ymd p.date).2.1 < 10 ^ 2 := Nat.lt_of_le_of_lt hdate.month_le (by decide)
  have hday : (ord2ymd p.date).2.2 < 10 ^ 2 :=
    Nat.lt_of_le_of_lt (Nat.le_trans hdate.day_le (daysInMonth_le hdate.month_le)) (by decide)
  rw [parseNbuDate, Publication.dateText, String.toList_ofList]
  -- one part of the text after another
  refine Option.bind_eq_some_iff.mpr ⟨_, takeNumber_padded hten hday _, ?_⟩
  refine Option.bind_eq_some_iff.mpr ⟨_, expect_cons '.' _, ?_⟩
  refine Option.bind_eq_some_iff.mpr ⟨_, takeNumber_padded hten hmonth _, ?_⟩
  refine Option.bind_eq_some_iff.mpr ⟨_, expect_cons '.' _, ?_⟩
  refine Option.bind_eq_some_iff.mpr ⟨_, takeNumber_padded hten hyear _, ?_⟩
  dsimp only
  rw [if_pos ⟨hdate, rfl⟩, hord]
  rfl

theorem Publication.normalized_nbuRate (p : Publication) :
    ∃ r, p.nbuRate.normalized = some r ∧ r.call = p.call .daily := by
  rw [NbuRate.normalized, nbuRate, p.parseNbuDate_dateText]
  exact ⟨_, rfl, rfl⟩

theorem Publication.normalized_nbuHistoricalRate (p : Publication) :
    ∃ r, p.nbuHistoricalRate.normalized = some r ∧ r.call = p.call .historical := by
  rw [NbuHistoricalRate.normalized, nbuHistoricalRate, if_neg p.units_pos.ne',
    p.parseNbuDate_dateText]
  exact ⟨_, rfl, rfl⟩

/-- The items of an answer, one after another: each becomes the call of its publication. -/
theorem map_call_of_normalized {α : Type} {normalized : α → Option NormalizedRate}
    {record : Publication → α} {endpoint : NbuEndpoint}
    (h : ∀ p, ∃ r, normalized (record p) = some r ∧ r.call = p.call endpoint)
    (ps : List Publication) :
    (((ps.map record).mapM normalized).getD []).map NormalizedRate.call =
      ps.map fun p => p.call endpoint := by
  rw [List.mapM_map]
  have hsome : ∀ p ∈ ps, ∃ r, (normalized ∘ record) p = some r :=
    fun p _ => (h p).imp fun _ hr => hr.1
  obtain ⟨rs, hrs⟩ := exists_mapM hsome
  rw [hrs]
  refine map_eq_of_mapM_eq_some (fun p r hr => ?_) hrs
  obtain ⟨r', hr', hcall⟩ := h p
  obtain rfl := Option.some.inj (hr.symm.trans hr')
  exact hcall

/-- **A fetch** is ingested by one call for each of its publications. -/
theorem NbuFetch.calls_eq (f : NbuFetch) :
    f.calls = f.ingested.map fun p => p.call f.endpoint := by
  rcases f with ps | ps
  · exact map_call_of_normalized Publication.normalized_nbuRate ps
  · rw [calls, rates, fetchHistoricalRates, ← List.map_flatMap]
    exact map_call_of_normalized Publication.normalized_nbuHistoricalRate _

/-! ## The timelines

A pair has one historical row for each moment. Which rows there are in the end is said by the last
call for each slot. -/

/-- All of the publications are ingested, and nothing else. How often, in which order and by which
endpoint is left open. -/
structure Ingests (P : Publications) (fetches : List NbuFetch) : Prop where
  each : ∀ p ∈ P.rows, ∃ f ∈ fetches, p ∈ f.ingested
  only : ∀ f ∈ fetches, ∀ p ∈ f.ingested, p ∈ P.rows

/-- The historical timelines of the bank are the same: the same rows for every pair, up to their
ids. -/
def SameTimelines (table table' : RateTable) : Prop :=
  ∀ pair : RatePair, pair.source = "nbu" → ∀ q, (∃ r ∈ table, r.Historical pair ∧ r.period = q) ↔
    ∃ r ∈ table', r.Historical pair ∧ r.period = q

/-- **Polling and backfill agree**: however the publications are ingested, the timelines are the
same, and a backfill of publications that are ingested changes no row. -/
structure PollingAgrees (env : RateDbEnv) (table : RateTable) (P : Publications) : Prop where
  same : ∀ fetches fetches', Ingests P fetches → Ingests P fetches' →
    SameTimelines (ingestNbu env table fetches) (ingestNbu env table fetches')
  backfill : ∀ fetches ps, Ingests P fetches → (∀ p ∈ ps, p ∈ P.rows) →
    ingestNbu env table (fetches ++ [.historical ps]) = ingestNbu env table fetches

/-- Both endpoints make the same stored price of every publication they share. It is a condition on
the publications alone. -/
def StoredAlike (P : Publications) : Prop :=
  ∀ p ∈ P.rows, p.Tracked → p.stored .daily = p.stored .historical

/-- No historical rate of the bank is stored yet. Polled rows, and those of other banks, may be
there. -/
def NoHistory (table : RateTable) : Prop :=
  ∀ r ∈ table, r.pair.source = "nbu" → r.lastPolledAt ≠ none

/-- The timelines after a sequence of fetches: for each slot what its last call has written. -/
theorem ingestNbu_slots (hnone : NoHistory table) (fetches : List NbuFetch) {pair : RatePair}
    (hpair : pair.source = "nbu") :
    Slots (ingestNbu env table fetches) pair
      (timelineOf "nbu" (fetches.flatMap NbuFetch.calls) pair) :=
  upsertAll_slots (fun _ hp => slots_empty hnone hp) _ pair hpair

/-- The calls of a sequence of fetches: each is that of a publication, at the endpoint of its
fetch. -/
theorem mem_calls {c : HistoricalCall} :
    c ∈ fetches.flatMap NbuFetch.calls ↔
      ∃ f ∈ fetches, ∃ p ∈ f.ingested, p.call f.endpoint = c := by
  simp only [List.mem_flatMap, NbuFetch.calls_eq, List.mem_map]

theorem storeRates_call (p : Publication) (endpoint : NbuEndpoint) :
    storeRates (p.call endpoint).rates = (p.stored endpoint).map fun x => ⟨none, none, x⟩ := by
  rw [Publication.call, storeRates, Publication.stored]
  rcases (Decimal.finite (p.rate endpoint).value).toNumeric with _ | x <;> rfl

/-- The backfill divides the price of one unit by the units, as if it were the price of all of
them. -/
theorem Publication.value_rate_historical (p : Publication) :
    (p.rate .historical).value = roundSig precision (p.price.value / p.units) := by
  have hunits : (Dec.ofInt p.units).coeff ≠ 0 := Int.natAbs_ne_zero.mpr p.units_pos.ne'
  rw [rate, value_div (by decide) _ hunits, Dec.value_ofInt]

/-- A currency that is quoted for one unit is stored alike; a `float` has at most 17 digits. -/
theorem Publication.stored_of_units_one (hunits : p.units = 1)
    (hdigits : numDigits p.price.coeff ≤ precision) : p.stored .daily = p.stored .historical := by
  have hvalue : (p.rate .historical).value = p.price.value := by
    rw [value_rate_historical, hunits, Int.cast_one, div_one, Dec.value, roundSig_signOf,
      roundSig_of_numDigits_le (by decide) hdigits]
  rw [stored, stored, hvalue]
  rfl

/-- The slot of a publication: its currency in hryvnias. -/
def Publication.pair (p : Publication) : RatePair := ⟨"nbu", p.currency, Currency.UAH.code⟩

theorem Publication.atTime_inj (h : p.atTime = p'.atTime) : p.date = p'.date := by
  have hdays : ((p.date : ℤ) - epochOrd) * dayMicros = (p'.date - epochOrd) * dayMicros := h
  simp only [dayMicros] at hdays
  omega

/-- Different publications have different slots: no call overwrites another publication's price. -/
theorem Publications.eq_of_slot (hp : p ∈ P.rows) (hp' : p' ∈ P.rows) (hpair : p.pair = p'.pair)
    (htime : p.atTime = p'.atTime) : p = p' := by
  apply List.inj_on_of_nodup_map P.nodup hp hp'
  have hcurrency : p.currency = p'.currency := congrArg RatePair.currencyFrom hpair
  rw [Publication.key, Publication.key, hcurrency, Publication.atTime_inj htime]

/-- **A slot** has the price of its publication, where all calls for a publication store the
same. -/
theorem timelineOf_fetches {val : Publication → Option StoredRates} (h : Ingests P fetches)
    (hval : ∀ f ∈ fetches, ∀ p ∈ f.ingested, storeRates (p.call f.endpoint).rates = val p)
    {pair : RatePair} {t : Timestamp} {stored : StoredRates} :
    (timelineOf "nbu" (fetches.flatMap NbuFetch.calls) pair).value t = some stored ↔
      ∃ p ∈ P.rows, p.pair = pair ∧ p.atTime = t ∧ val p = some stored := by
  rw [timelineOf_value, lastWritten_eq_some_iff_of_agree]
  · refine ⟨?_, ?_⟩
    · rintro ⟨c, hc, hpair, htime, hs⟩
      obtain ⟨f, hf, p, hp, rfl⟩ := mem_calls.mp hc
      exact ⟨p, h.only f hf p hp, hpair, htime, (hval f hf p hp).symm.trans hs⟩
    · rintro ⟨p, hp, hpair, htime, hs⟩
      obtain ⟨f, hf, hpf⟩ := h.each p hp
      exact ⟨_, mem_calls.mpr ⟨f, hf, p, hpf, rfl⟩, hpair, htime, (hval f hf p hpf).trans hs⟩
  · intro c hc c' hc' hpair htime
    obtain ⟨f, hf, p, hp, rfl⟩ := mem_calls.mp hc
    obtain ⟨f', hf', p', hp', rfl⟩ := mem_calls.mp hc'
    rw [hval f hf p hp, hval f' hf' p' hp',
      P.eq_of_slot (h.only f hf p hp) (h.only f' hf' p' hp') hpair htime]

theorem timelineOf_slot {val : Publication → Option StoredRates} (h : Ingests P fetches)
    (hval : ∀ f ∈ fetches, ∀ p ∈ f.ingested, storeRates (p.call f.endpoint).rates = val p)
    (hp : p ∈ P.rows) :
    (timelineOf "nbu" (fetches.flatMap NbuFetch.calls) p.pair).value p.atTime = val p := by
  apply Option.ext
  intro stored
  rw [timelineOf_fetches h hval]
  refine ⟨?_, fun hs => ⟨p, hp, rfl, rfl, hs⟩⟩
  rintro ⟨p', hp', hpair, htime, hs⟩
  rw [← P.eq_of_slot hp' hp hpair htime]
  exact hs

/-- What is ingested of a publication is stored alike, by whichever endpoint. -/
theorem StoredAlike.storeRates_eq (halike : StoredAlike P) (hp : p ∈ P.rows)
    (hf : p ∈ f.ingested) :
    storeRates (p.call f.endpoint).rates = storeRates (p.call .daily).rates := by
  rcases f with ps | ps
  · rfl
  · rw [storeRates_call, storeRates_call, halike p hp (NbuFetch.mem_ingested_historical.mp hf).2]
    rfl

/-- Timelines with the same values have the same rows but for their ids. -/
theorem sameTimelines_iff {table' : RateTable} {T T' : RatePair → Timeline Timestamp StoredRates}
    (h : ∀ pair, pair.source = "nbu" → Slots table pair (T pair))
    (h' : ∀ pair, pair.source = "nbu" → Slots table' pair (T' pair)) :
    SameTimelines table table' ↔
      ∀ pair, pair.source = "nbu" → ∀ t, (T pair).value t = (T' pair).value t := by
  refine ⟨fun hsame pair hpair t => ?_, fun heq pair hpair q => ?_⟩
  · have hperiods : ∀ q, (T pair).IsPeriod q ↔ (T' pair).IsPeriod q := fun q => by
      rw [← (h pair hpair).periods, ← (h' pair hpair).periods, hsame pair hpair]
    apply Option.ext
    intro stored
    refine ⟨fun hv => ?_, fun hv => ?_⟩
    · obtain ⟨q, hq, rfl⟩ := Timeline.exists_isPeriod (Timeline.mem_dom_of_value hv)
      rw [((hperiods q).mp hq).1, ← hq.1, hv]
    · obtain ⟨q, hq, rfl⟩ := Timeline.exists_isPeriod (Timeline.mem_dom_of_value hv)
      rw [((hperiods q).mpr hq).1, ← hq.1, hv]
  · rw [(h pair hpair).periods, (h' pair hpair).periods, Timeline.ext (heq pair hpair)]

/-! ## Agreement

If both readers store the same, neither order nor endpoint matters. Otherwise there is a publication
that one way stores at one price, and the other at another. -/

theorem ingestNbu_append (env : RateDbEnv) (table : RateTable)
    (fetches fetches' : List NbuFetch) :
    ingestNbu env table (fetches ++ fetches') =
      ingestNbu env (ingestNbu env table fetches) fetches' := by
  rw [ingestNbu, List.flatMap_append, upsertAll, List.foldl_append]
  rfl

/-- **Where both ways store the same price**, they agree. -/
theorem pollingAgrees_of_alike (hnone : NoHistory table) (halike : StoredAlike P) :
    PollingAgrees env table P := by
  have hval : ∀ {fetches}, Ingests P fetches → ∀ f ∈ fetches, ∀ p ∈ f.ingested,
      storeRates (p.call f.endpoint).rates = storeRates (p.call .daily).rates :=
    fun h f hf p hp => halike.storeRates_eq (h.only f hf p hp) hp
  refine ⟨fun fetches fetches' h h' => ?_, fun fetches ps h hps => ?_⟩
  · refine (sameTimelines_iff (fun _ => ingestNbu_slots hnone fetches)
      fun _ => ingestNbu_slots hnone fetches').mpr fun pair hpair t => Option.ext fun stored => ?_
    rw [timelineOf_fetches h (hval h), timelineOf_fetches h' (hval h')]
  · rw [ingestNbu_append, ingestNbu, List.flatMap_singleton, NbuFetch.calls_eq]
    apply upsertAll_eq_self
    intro c hc
    obtain ⟨p, hp, rfl⟩ := List.mem_map.mp hc
    have hpP := hps p (NbuFetch.mem_ingested_historical.mp hp).1
    apply upsertOne_of_written (ingestNbu_slots hnone fetches rfl)
    intro stored hs
    exact (timelineOf_slot h (hval h) hpP).trans ((halike.storeRates_eq hpP hp).symm.trans hs)

/-- **Conversely**, a publication that is polled, or backfilled instead, shows any difference there
is. -/
theorem alike_of_pollingAgrees (hnone : NoHistory table) (h : PollingAgrees env table P) :
    StoredAlike P := by
  intro p hp htracked
  have hpolled : Ingests P [.daily P.rows] := by
    refine ⟨fun q hq => ⟨_, List.mem_singleton_self _, hq⟩, fun f hf q hq => ?_⟩
    rw [List.mem_singleton.mp hf] at hq
    exact hq
  have hmixed : Ingests P [.daily (P.rows.filter fun q => decide (q.key ≠ p.key)),
      .historical [p]] := by
    refine ⟨fun q hq => ?_, fun f hf q hq => ?_⟩
    · by_cases hkey : q.key = p.key
      · obtain rfl := List.inj_on_of_nodup_map P.nodup hq hp hkey
        exact ⟨_, List.mem_cons_of_mem _ (List.mem_singleton_self _),
          NbuFetch.mem_ingested_historical.mpr ⟨List.mem_singleton_self _, htracked⟩⟩
      · exact ⟨_, List.mem_cons_self .., List.mem_filter.mpr ⟨hq, decide_eq_true hkey⟩⟩
    · rcases List.mem_cons.mp hf with rfl | hf
      · exact (List.mem_filter.mp hq).1
      · rw [List.mem_singleton.mp hf] at hq
        rw [List.mem_singleton.mp (NbuFetch.mem_ingested_historical.mp hq).1]
        exact hp
  have hslots : ∀ fetches, ∀ pair : RatePair, pair.source = "nbu" →
      Slots (ingestNbu env table fetches) pair _ :=
    fun fetches _ => ingestNbu_slots hnone fetches
  have hvalue := (sameTimelines_iff (hslots _) (hslots _)).mp (h.same _ _ hpolled hmixed)
    p.pair rfl p.atTime
  have hdaily : ∀ f ∈ [NbuFetch.daily P.rows], ∀ q ∈ f.ingested,
      storeRates (q.call f.endpoint).rates = storeRates (q.call .daily).rates := by
    intro f hf q hq
    rw [List.mem_singleton.mp hf]
    rfl
  have hboth : ∀ f ∈ [NbuFetch.daily (P.rows.filter fun q => decide (q.key ≠ p.key)),
      .historical [p]], ∀ q ∈ f.ingested, storeRates (q.call f.endpoint).rates =
        storeRates (q.call (if q.key = p.key then .historical else .daily)).rates := by
    intro f hf q hq
    rcases List.mem_cons.mp hf with rfl | hf
    · rw [if_neg (of_decide_eq_true (List.mem_filter.mp hq).2)]
      rfl
    · rw [List.mem_singleton.mp hf] at hq ⊢
      rw [if_pos (by rw [List.mem_singleton.mp (NbuFetch.mem_ingested_historical.mp hq).1])]
      rfl
  rw [timelineOf_slot hpolled hdaily hp, timelineOf_slot hmixed hboth hp, if_pos rfl,
    storeRates_call, storeRates_call] at hvalue
  exact Option.map_injective (fun x y hxy => congrArg StoredRates.rateMid hxy) hvalue

/-- **Polling and backfill agree** exactly where both store the same price of every publication. -/
theorem pollingAgrees_iff (env : RateDbEnv) (hnone : NoHistory table) (P : Publications) :
    PollingAgrees env table P ↔ StoredAlike P :=
  ⟨alike_of_pollingAgrees hnone, pollingAgrees_of_alike hnone⟩

/-- Yens, quoted for ten: 0.2712 hryvnias for one. -/
def sampleYen : Publication where
  currency := "JPY"
  date := 738886
  price := ⟨false, 2712, -4⟩
  units := 10
  date_range := by decide
  units_pos := by decide

/-- They are all that is published: one currency, one date. -/
def sampleYens : Publications := ⟨[sampleYen], List.nodup_singleton _⟩

theorem pollingAgrees_iff_sample :
    PollingAgrees sampleRateDb .empty sampleYens ↔ StoredAlike sampleYens :=
  pollingAgrees_iff sampleRateDb (fun _ hr => absurd hr KeyedTable.not_mem_empty) sampleYens

/-- The poll stores 0.2712, and the backfill 0.02712. -/
theorem not_pollingAgrees_of_units : ¬ PollingAgrees sampleRateDb .empty sampleYens := by
  intro h
  have halike := alike_of_pollingAgrees (fun _ hr => absurd hr KeyedTable.not_mem_empty) h
    sampleYen (List.mem_singleton_self _) (by decide)
  exact absurd halike (by decide +kernel)

end Grosh
