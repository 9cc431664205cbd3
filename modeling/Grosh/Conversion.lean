import Grosh.Cursor
import Grosh.FreshRate
import Grosh.StoredRows
import Grosh.Lib.DecimalFloat
import Mathlib.Data.Prod.Lex

/-!
# Currency conversion

`CurrencyConversionService.convert` gives the amount of an event in each display currency. The
rate source of the event and its fallbacks form a chain; a rate is looked for along the chain,
first among the fresh polls, then by closeness in time, each time directly, in reverse, and over
a pivot currency. The amount is multiplied or divided along the path found, in decimals of 28
digits, and rounded to cents.

* `resolvePath_connects` — a path leads from the one currency to the other, over a pivot of the
  chain if it has two legs, each leg with a rate of a source of the chain.
* `RatePath.apply_eq_some` — the amount comes out exactly if no reversed leg has the rate zero,
  and then it is the rounded product or quotient, leg by leg.
* `convertTo_eq_ok` — when a conversion succeeds, and with which amount.
-/

namespace Grosh

open DecimalFloat

/-- The digits of the decimal context: every product and quotient is rounded to as many. -/
abbrev precision : ℕ := 28

/-! ## The source chain

A source names the one to fall back on, which names another. The query that follows the chain has a
depth cap and no other protection from a cycle. -/

/-- A row of `rate_source_config`. No text of a database holds a NUL. -/
structure RateSourceConfig : Type where
  source : String
  source_noNul : source.noNul = true
  fallbackSource : Option String
  baseCurrencies : List String
  baseCurrencies_noNul : ∀ currency ∈ baseCurrencies, currency.noNul = true

theorem noNul_nbu : "nbu".noNul = true := by decide

theorem noNul_uah : ∀ currency ∈ ["UAH"], currency.noNul = true := by decide

/-- `rate_source_config`, one row for each source. -/
abbrev RateSourceTable : Type := KeyedTable RateSourceConfig.source

/-- `_MAX_CHAIN_DEPTH`: a chain that is longer is taken for one that never ends. -/
def maxChainDepth : ℕ := 10

/-- The rows of the recursive query, at most `n` of them. A source that has no row ends the chain,
also where another names it. -/
def sourceChain (configs : RateSourceTable) : ℕ → String → List RateSourceConfig
  | 0, _ => []
  | n + 1, source =>
    match configs.find? source with
    | none => []
    | some config =>
      config ::
        match config.fallbackSource with
        | none => []
        | some fallback => sourceChain configs n fallback

/-- `load_source_chain`: a chain that reaches the depth cap and goes on raises. -/
def loadSourceChain (configs : RateSourceTable) (entrySource : String) :
    Except ConversionError (List RateSourceConfig) :=
  let rows := sourceChain configs maxChainDepth entrySource
  if rows.length = maxChainDepth ∧ rows.getLast?.any (fun c => c.fallbackSource.isSome) then
    .error .rateSourceChain
  else .ok rows

/-- `_ordered_pivots`: the base currencies along the chain, each where it is first seen. It is the
order in which two-leg paths are tried. -/
def orderedPivots (chain : List RateSourceConfig) : List String :=
  (chain.flatMap RateSourceConfig.baseCurrencies).foldl
    (fun seen currency => if currency ∈ seen then seen else seen ++ [currency]) []

/-! ## Steps and paths

A path has one leg or two. Every leg is a rate of one row, applied as it stands or the other way
round, and remembers how it was found. -/

/-- `RateTier`: a rate polled at about the time of the event, or the one nearest to it in time. -/
inductive RateTier : Type where
  | fresh
  | closest
  deriving DecidableEq

/-- `tier.name.lower()`, as it stands in the metadata. -/
def RateTier.toText : RateTier → String
  | .fresh => "fresh"
  | .closest => "closest"

/-- `RateSide`: which of the three rates of a row a leg uses. -/
inductive RateSide : Type where
  | buy
  | sell
  | mid
  deriving DecidableEq

/-- The value of a side, as it stands in the metadata. -/
def RateSide.toText : RateSide → String
  | .buy => "buy"
  | .sell => "sell"
  | .mid => "mid"

/-- `_RateStep`: a leg from one currency to another, with the rate it uses and where that was
found. -/
structure RateStep : Type where
  currencyFrom : String
  currencyTo : String
  source : String
  rateId : UUID
  rate : Dec
  rateSide : RateSide
  tier : RateTier
  proximitySeconds : ℤ
  divide : Bool

/-- `_RateStep.apply`; `none` is a division by zero. A reversed leg divides by the rate of the other
direction. -/
def RateStep.apply (step : RateStep) (amount : Dec) : Option Dec :=
  if step.divide then
    if step.rate.coeff = 0 then none else some (div precision amount step.rate)
  else some (mul precision amount step.rate)

/-- `_RatePath`: one step, or one to a pivot and one from it. -/
inductive RatePath : Type where
  | direct (step : RateStep)
  | pivoted (left right : RateStep)

namespace RatePath

/-- `steps`: the legs of a path, in the order in which an amount goes through them. -/
def steps : RatePath → List RateStep
  | direct step => [step]
  | pivoted left right => [left, right]

/-- `max_tier`: a path is as fresh as the least fresh of its legs. -/
def maxTier (path : RatePath) : RateTier :=
  if path.steps.any fun step => decide (step.tier = .closest) then .closest else .fresh

/-- `max_proximity_seconds`: the greater distance of the two legs. -/
def maxProximitySeconds : RatePath → ℤ
  | direct step => step.proximitySeconds
  | pivoted left right => max left.proximitySeconds right.proximitySeconds

/-- `_RatePath.apply`: leg by leg, each of which rounds on its own. -/
def apply (path : RatePath) (amount : Dec) : Option Dec :=
  path.steps.foldlM (fun amount step => step.apply amount) amount

/-- `effective_rate`: what a path makes of one unit. -/
def effectiveRate (path : RatePath) : Option Dec := path.apply (.ofInt 1)

end RatePath

/-- A rate as it is read from a `NUMERIC(18,8)` column: a number with eight decimals. -/
def Decimal.toDec : Decimal → Dec
  | .finite q => ⟨decide (q < 0), (roundHalfAway (q * 10 ^ 8)).natAbs, -8⟩
  | .nan | .infinite => ⟨false, 0, -8⟩

/-- `_pick_rate`: the side of the direction, `rate_mid` where it is `NULL`. Who sells a currency is
paid the bank's buying rate. -/
def pickRate (row : RateRow) (divide : Bool) : Decimal × RateSide :=
  match if divide then row.rates.rateSell else row.rates.rateBuy with
  | some rate => (rate, if divide then .sell else .buy)
  | none => (row.rates.rateMid, .mid)

/-- `_step`: a row that a query has returned, as a leg. -/
def rateStep (legFrom legTo : String) (row : RateRow) (tier : RateTier) (proximitySeconds : ℤ)
    (divide : Bool) : RateStep where
  currencyFrom := legFrom
  currencyTo := legTo
  source := row.source
  rateId := row.id
  rate := (pickRate row divide).1.toDec
  rateSide := (pickRate row divide).2
  tier := tier
  proximitySeconds := proximitySeconds
  divide := divide

/-! ## The closest rate

The rate nearest in time, across all sources of the chain at once. A row counts as close to every
moment between its start and its last poll. -/

/-- `_MAX_CLOSEST_RATE_AGE`: rates further away than a week are not used. -/
def maxClosestRateAge : Timestamp := 7 * 86400 * second

/-- The distance of a row's confirmed-live interval from a moment. A historical row has no interval,
only its moment. -/
def proximity (atTime : Timestamp) (r : CurrencyRateRow) : Timestamp :=
  match r.lastPolledAt with
  | some lastPolledAt =>
    if r.validFrom ≤ atTime ∧ atTime ≤ lastPolledAt then 0
    else if lastPolledAt < atTime then atTime - lastPolledAt
    else r.validFrom - atTime
  | none => max (r.validFrom - atTime) (atTime - r.validFrom)

/-- `ORDER BY proximity, array_position(sources, source), (last_polled_at IS NULL), id`: among
equally close rows the source that comes first in the chain, and then the polled row. -/
def closestKey (sources : List String) (atTime : Timestamp) (r : CurrencyRateRow) :
    Timestamp ×ₗ ℕ ×ₗ ℕ ×ₗ UUID :=
  toLex (proximity atTime r, toLex (sources.idxOf r.pair.source,
    toLex (r.lastPolledAt.isNone.toNat, r.id)))

/-- `CurrencyRateRepo.find_closest_rate`: the first row in the order of the query, of all sources of
the chain. -/
def findClosestRate (table : RateTable) (currencyFrom currencyTo : String) (atTime : Timestamp)
    (sources : List String) : Except RateQueryError (Option RateRow) :=
  let candidates := table.rows.filter fun r =>
    decide (r.pair.currencyFrom = currencyFrom ∧ r.pair.currencyTo = currencyTo ∧
      r.pair.source ∈ sources) && decide (proximity atTime r ≤ maxClosestRateAge)
  match (candidates.insertionSort
      fun a b => closestKey sources atTime a ≤ closestKey sources atTime b).head? with
  | none => .ok none
  | some r =>
    (RateRow.ofRow r.pair.source r).map fun row =>
      some { row with proximitySeconds := some (roundHalfAway (proximity atTime r / 10 ^ 6)) }

/-! ## Path resolution

First all paths of fresh rates, and only then those of the closest ones. Within a tier a direct leg
is tried before the pivots, and a rate of the direction before one that has to be turned round. -/

/-- What the service reads: the rates, the sources, and the order of an unordered query. The
tolerance of the polls is a setting. -/
structure ConversionEnv : Type where
  rateDb : RateDbEnv
  rates : RateTable
  configs : RateSourceTable
  /-- `_POLL_INTERVAL_TOLERANCE` -/
  pollTolerance : ℤ

/-- A query raised: the conversion raises with it, whatever other paths there may be. -/
def queryError {α : Type} (result : Except RateQueryError α) : Except ConversionError α :=
  result.mapError fun _ => .rateQuery

/-- `_try_fresh`: the rate of one source in one direction. -/
def tryFresh (cenv : ConversionEnv) (legFrom legTo : String) (atTime : Timestamp)
    (config : RateSourceConfig) (divide : Bool) : Except ConversionError (Option RateStep) := do
  let pair : RatePair :=
    if divide then ⟨config.source, legTo, legFrom⟩ else ⟨config.source, legFrom, legTo⟩
  let row ← queryError (findFreshRate cenv.rateDb cenv.rates pair atTime cenv.pollTolerance)
  return row.map fun row => rateStep legFrom legTo row .fresh 0 divide

/-- The fresh rate of the first source that has one, direct before reverse. -/
def resolveFresh (cenv : ConversionEnv) (legFrom legTo : String) (atTime : Timestamp) :
    List RateSourceConfig → Except ConversionError (Option RateStep)
  | [] => .ok none
  | config :: chain => do
    match ← tryFresh cenv legFrom legTo atTime config false with
    | some step => return some step
    | none =>
      match ← tryFresh cenv legFrom legTo atTime config true with
      | some step => return some step
      | none => resolveFresh cenv legFrom legTo atTime chain

/-- One direction of `_resolve_closest_across_chain`: one query for all sources. -/
def tryClosest (cenv : ConversionEnv) (legFrom legTo : String) (atTime : Timestamp)
    (chain : List RateSourceConfig) (reverse : Bool) :
    Except ConversionError (Option RateStep) := do
  let sources := chain.map RateSourceConfig.source
  let (queryFrom, queryTo) := if reverse then (legTo, legFrom) else (legFrom, legTo)
  let row ← queryError (findClosestRate cenv.rates queryFrom queryTo atTime sources)
  return row.map fun row =>
    rateStep legFrom legTo row .closest (row.proximitySeconds.getD 0) reverse

/-- `_resolve_closest_across_chain`: the direction of the leg first, and the other only if it has no
rate at all. -/
def resolveClosestAcrossChain (cenv : ConversionEnv) (legFrom legTo : String) (atTime : Timestamp)
    (chain : List RateSourceConfig) : Except ConversionError (Option RateStep) := do
  match ← tryClosest cenv legFrom legTo atTime chain false with
  | some step => return some step
  | none => tryClosest cenv legFrom legTo atTime chain true

/-- `_resolve_leg`: a leg in one tier. -/
def resolveLeg (cenv : ConversionEnv) (legFrom legTo : String) (atTime : Timestamp)
    (chain : List RateSourceConfig) : RateTier → Except ConversionError (Option RateStep)
  | .fresh => resolveFresh cenv legFrom legTo atTime chain
  | .closest => resolveClosestAcrossChain cenv legFrom legTo atTime chain

/-- The two-hop paths of one tier, in pivot order: the first pivot that has both legs. -/
def resolvePivots (leg : String → String → Except ConversionError (Option RateStep))
    (src tgt : String) : List String → Except ConversionError (Option RatePath)
  | [] => .ok none
  | pivot :: pivots =>
    if pivot = src ∨ pivot = tgt then resolvePivots leg src tgt pivots
    else do
      match ← leg src pivot with
      | none => resolvePivots leg src tgt pivots
      | some left =>
        match ← leg pivot tgt with
        | none => resolvePivots leg src tgt pivots
        | some right => return some (.pivoted left right)

/-- The paths of one tier: one hop, then two. Legs of different tiers are never combined. -/
def resolveTier (leg : String → String → Except ConversionError (Option RateStep))
    (src tgt : String) (pivots : List String) : Except ConversionError (Option RatePath) := do
  match ← leg src tgt with
  | some step => return some (.direct step)
  | none => resolvePivots leg src tgt pivots

/-- `_resolve_path`. Its first query already encodes the moment, which must be one of the years
1 to 9999. -/
def resolvePath (cenv : ConversionEnv) (src tgt : String) (atTime : Timestamp)
    (sourceChain : List RateSourceConfig) (pivots : List String) :
    Except ConversionError (Option RatePath) := do
  if ¬ Isoformat.InRange atTime then throw .rateQuery
  let leg := fun tier legFrom legTo => resolveLeg cenv legFrom legTo atTime sourceChain tier
  match ← resolveTier (leg .fresh) src tgt pivots with
  | some path => return some path
  | none => resolveTier (leg .closest) src tgt pivots

/-! ## Conversion -/

/-- The code of a currency. -/
def Currency.code : Currency → String
  | .UAH => "UAH" | .USD => "USD" | .EUR => "EUR" | .GBP => "GBP" | .PLN => "PLN"
  | .CZK => "CZK" | .CHF => "CHF" | .JPY => "JPY" | .CNY => "CNY" | .TRY => "TRY"

/-- `target.lower()`, of a display currency. -/
def Currency.lower : Currency → String
  | .UAH => "uah" | .USD => "usd" | .EUR => "eur" | .GBP => "gbp" | .PLN => "pln"
  | .CZK => "czk" | .CHF => "chf" | .JPY => "jpy" | .CNY => "cny" | .TRY => "try"

/-- `_DISPLAY_CURRENCIES`. -/
def displayCurrencies : List Currency := [.UAH, .USD, .EUR]

/-- The metadata of a step. -/
def stepMetadata (step : RateStep) : Json :=
  .obj [("from", .str step.currencyFrom), ("to", .str step.currencyTo),
    ("source", .str step.source), ("rate_id", .str (String.ofList (uuidText step.rateId))),
    ("rate", .str step.rate.text), ("rate_side", .str step.rateSide.toText),
    ("tier", .str step.tier.toText), ("proximity_seconds", .num step.proximitySeconds),
    ("op", .str (if step.divide then "divide" else "multiply"))]

/-- `_path_metadata`. -/
def pathMetadata (path : RatePath) : Option Dict := do
  let effectiveRate ← path.effectiveRate
  let sides := path.steps.map fun step => step.rateSide.toText
  return [("path", .arr (path.steps.map stepMetadata)),
    ("effective_rate", .str effectiveRate.text), ("hops", .num path.steps.length),
    ("quality", .str path.maxTier.toText),
    ("max_proximity_seconds", .num path.maxProximitySeconds),
    ("sides", .arr ((["buy", "mid", "sell"].filter (· ∈ sides)).map .str))]

/-- The amount in one display currency, and the metadata of the path: `None` where no path is
found; the amount of an account in that currency passes through. -/
def convertTo (cenv : ConversionEnv) (chain : List RateSourceConfig) (pivots : List String)
    (amountCents : ℤ) (accountCurrency : String) (atTime : Timestamp) (target : Currency) :
    Except ConversionError (Option ℤ × Option Dict) := do
  if accountCurrency = target.code then return (some amountCents, none)
  match ← resolvePath cenv accountCurrency target.code atTime chain pivots with
  | none => return (none, none)
  | some path =>
    match (path.apply (.ofInt amountCents)).bind (toInteger precision), pathMetadata path with
    | some amount, some metadata => return (some amount, some metadata)
    | _, _ => throw .decimal

/-- `event.rate_source or event.source`. -/
def NormalizedTransaction.entrySource (tx : NormalizedTransaction) : String :=
  match tx.rateSource with
  | some rateSource => if rateSource = "" then tx.source else rateSource
  | none => tx.source

/-- The result of the three conversions. -/
def ConversionResult.ofTargets (uah usd eur : Option ℤ × Option Dict) : ConversionResult where
  amounts := fun currency =>
    match currency with
    | .UAH => uah.1
    | .USD => usd.1
    | .EUR => eur.1
    | _ => none
  rateMetadata := [(Currency.UAH, uah.2), (.USD, usd.2), (.EUR, eur.2)].filterMap
    fun p => p.2.map fun metadata => (p.1.lower, .obj metadata)

/-- `CurrencyConversionService.convert`. -/
def convert (cenv : ConversionEnv) (tx : NormalizedTransaction) (accountCurrency : String) :
    Except ConversionError ConversionResult := do
  let chain ← loadSourceChain cenv.configs tx.entrySource
  let to_ := convertTo cenv chain (orderedPivots chain) tx.amountCents accountCurrency tx.time
  let uah ← to_ .UAH
  let usd ← to_ .USD
  let eur ← to_ .EUR
  return .ofTargets uah usd eur

/-! ## Where a path leads

What a path that is found has to do with its currencies, by induction along the chain and the
pivots. -/

/-- Every pivot is a base currency of the chain: nothing else is ever tried as one. -/
theorem mem_orderedPivots {chain : List RateSourceConfig} {currency : String}
    (h : currency ∈ orderedPivots chain) :
    ∃ config ∈ chain, currency ∈ config.baseCurrencies := by
  have hfold : ∀ (currencies seen : List String), currency ∈ currencies.foldl
      (fun seen currency => if currency ∈ seen then seen else seen ++ [currency]) seen →
        currency ∈ seen ∨ currency ∈ currencies := by
    intro currencies
    induction currencies with
    | nil => exact fun seen hmem => Or.inl hmem
    | cons c currencies ih =>
      intro seen hmem
      rcases ih _ hmem with hmem | hmem
      · dsimp only at hmem
        split at hmem
        · exact Or.inl hmem
        · rcases List.mem_append.mp hmem with hmem | hmem
          · exact Or.inl hmem
          · exact Or.inr (List.mem_singleton.mp hmem ▸ List.mem_cons_self)
      · exact Or.inr (List.mem_cons_of_mem _ hmem)
  rcases hfold _ _ h with hmem | hmem
  · cases hmem
  · exact List.mem_flatMap.mp hmem

/-- The step is a leg from one currency to another, at a rate of a source of the chain, whichever
way round it is applied. -/
structure RateStep.IsLeg (step : RateStep) (chain : List RateSourceConfig)
    (legFrom legTo : String) : Prop where
  currencyFrom : step.currencyFrom = legFrom
  currencyTo : step.currencyTo = legTo
  source : step.source ∈ chain.map RateSourceConfig.source

/-- The path leads from `src` to `tgt`, over a pivot if it has two legs. -/
inductive RatePath.Connects (chain : List RateSourceConfig) (pivots : List String)
    (src tgt : String) : RatePath → Prop where
  | direct {step : RateStep} (leg : step.IsLeg chain src tgt) :
      Connects chain pivots src tgt (.direct step)
  | pivoted {left right : RateStep} {pivot : String} (mem : pivot ∈ pivots)
      (ne_src : pivot ≠ src) (ne_tgt : pivot ≠ tgt) (left_leg : left.IsLeg chain src pivot)
      (right_leg : right.IsLeg chain pivot tgt) :
      Connects chain pivots src tgt (.pivoted left right)

section Resolution

variable {cenv : ConversionEnv} {chain : List RateSourceConfig} {pivots : List String}
  {legFrom legTo src tgt : String} {atTime : Timestamp} {step : RateStep}

theorem source_of_ofRow {source : String} {r : CurrencyRateRow} {row : RateRow}
    (h : RateRow.ofRow source r = .ok row) : row.source = source := by
  simp only [RateRow.ofRow] at h
  split at h
  · cases h
  · obtain rfl := Except.ok.inj h
    rfl

theorem queryError_eq_ok {α : Type} {result : Except RateQueryError α} {a : α} :
    queryError result = .ok a ↔ result = .ok a := mapError_eq_ok

/-- **The fresh query** answers with the first of its rows, as it is read, or with none where
nothing matches. -/
theorem findFreshRate_head {pair : RatePair} {pollTolerance : ℤ} {row? : Option RateRow}
    (h : findFreshRate cenv.rateDb cenv.rates pair atTime pollTolerance = .ok row?) :
    (row? = none ∧ ((cenv.rateDb.scan ((cenv.rates.rows.filter (coversMoment pair atTime)).filter
        (graceReaches pollTolerance atTime))).insertionSort newestFirst).head? = none) ∨
      ∃ r row, row? = some row ∧ RateRow.ofRow pair.source r = .ok row ∧
        ((cenv.rateDb.scan ((cenv.rates.rows.filter (coversMoment pair atTime)).filter
          (graceReaches pollTolerance atTime))).insertionSort newestFirst).head? = some r := by
  simp only [findFreshRate] at h
  split at h
  · cases h
  split at h
  · cases h
  split at h
  · next hhead => exact Or.inl ⟨(Except.ok.inj h).symm, hhead⟩
  · next r hhead =>
    obtain ⟨row, hrow, rfl⟩ := exceptMap_eq_ok.mp h
    exact Or.inr ⟨r, row, rfl, hrow, hhead⟩

theorem source_of_findFreshRate {pair : RatePair} {pollTolerance : ℤ} {row : RateRow}
    (h : findFreshRate cenv.rateDb cenv.rates pair atTime pollTolerance = .ok (some row)) :
    row.source = pair.source := by
  rcases findFreshRate_head h with ⟨hnone, -⟩ | ⟨r, row', hrow', hrow, -⟩
  · cases hnone
  · obtain rfl := Option.some.inj hrow'
    exact source_of_ofRow hrow

theorem source_of_findClosestRate {sources : List String} {row : RateRow}
    (h : findClosestRate cenv.rates legFrom legTo atTime sources = .ok (some row)) :
    row.source ∈ sources := by
  simp only [findClosestRate] at h
  split at h
  · cases h
  · next r hr =>
    obtain ⟨row', hrow, h⟩ := exceptMap_eq_ok.mp h
    obtain rfl := Option.some.inj h
    have hmem := (List.mem_insertionSort _).mp (List.mem_of_head? hr)
    have hcond := (List.mem_filter.mp hmem).2
    simp only [Bool.and_eq_true, decide_eq_true_eq] at hcond
    rw [show row'.source = r.pair.source from source_of_ofRow hrow]
    exact hcond.1.2.2

theorem tryFresh_isLeg {config : RateSourceConfig} {divide : Bool} (hmem : config ∈ chain)
    (h : tryFresh cenv legFrom legTo atTime config divide = .ok (some step)) :
    step.IsLeg chain legFrom legTo := by
  obtain ⟨row, hrow, h⟩ := exceptBind_eq_ok.mp h
  obtain ⟨row', rfl, rfl⟩ := Option.map_eq_some_iff.mp (Except.ok.inj h)
  have hsource : row'.source = config.source := by
    have hpair := source_of_findFreshRate (queryError_eq_ok.mp hrow)
    rcases divide with _ | _
    · exact hpair
    · exact hpair
  exact ⟨rfl, rfl, List.mem_map.mpr ⟨config, hmem, hsource.symm⟩⟩

/-- The induction is on the part of the chain that is still to be tried. -/
theorem resolveFresh_isLeg {rest : List RateSourceConfig} (hsub : ∀ config ∈ rest, config ∈ chain)
    (h : resolveFresh cenv legFrom legTo atTime rest = .ok (some step)) :
    step.IsLeg chain legFrom legTo := by
  induction rest with
  | nil => cases h
  | cons config rest ih =>
    have hmem := hsub config List.mem_cons_self
    obtain ⟨direct, hdirect, h⟩ := exceptBind_eq_ok.mp h
    rcases direct with _ | direct
    · obtain ⟨reverse, hreverse, h⟩ := exceptBind_eq_ok.mp h
      rcases reverse with _ | reverse
      · exact ih (fun c hc => hsub c (List.mem_cons_of_mem _ hc)) h
      · obtain rfl := Option.some.inj (Except.ok.inj h)
        exact tryFresh_isLeg hmem hreverse
    · obtain rfl := Option.some.inj (Except.ok.inj h)
      exact tryFresh_isLeg hmem hdirect

theorem tryClosest_isLeg {reverse : Bool}
    (h : tryClosest cenv legFrom legTo atTime chain reverse = .ok (some step)) :
    step.IsLeg chain legFrom legTo := by
  obtain ⟨row, hrow, h⟩ := exceptBind_eq_ok.mp h
  obtain ⟨row', rfl, rfl⟩ := Option.map_eq_some_iff.mp (Except.ok.inj h)
  exact ⟨rfl, rfl, source_of_findClosestRate (queryError_eq_ok.mp hrow)⟩

theorem resolveClosest_isLeg
    (h : resolveClosestAcrossChain cenv legFrom legTo atTime chain = .ok (some step)) :
    step.IsLeg chain legFrom legTo := by
  obtain ⟨direct, hdirect, h⟩ := exceptBind_eq_ok.mp h
  rcases direct with _ | direct
  · exact tryClosest_isLeg h
  · obtain rfl := Option.some.inj (Except.ok.inj h)
    exact tryClosest_isLeg hdirect

theorem resolveLeg_isLeg {tier : RateTier}
    (h : resolveLeg cenv legFrom legTo atTime chain tier = .ok (some step)) :
    step.IsLeg chain legFrom legTo := by
  cases tier with
  | fresh => exact resolveFresh_isLeg (fun _ hc => hc) h
  | closest => exact resolveClosest_isLeg h

variable {leg : String → String → Except ConversionError (Option RateStep)} {path : RatePath}

theorem resolvePivots_connects
    (hleg : ∀ {legFrom legTo step}, leg legFrom legTo = .ok (some step) →
      step.IsLeg chain legFrom legTo)
    {rest : List String} (hsub : ∀ pivot ∈ rest, pivot ∈ pivots)
    (h : resolvePivots leg src tgt rest = .ok (some path)) :
    path.Connects chain pivots src tgt := by
  induction rest with
  | nil => cases h
  | cons pivot rest ih =>
    have hrest := ih fun p hp => hsub p (List.mem_cons_of_mem _ hp)
    rw [resolvePivots] at h
    split at h
    · exact hrest h
    next hne =>
    obtain ⟨hsrc, htgt⟩ := not_or.mp hne
    obtain ⟨left, hleft, h⟩ := exceptBind_eq_ok.mp h
    rcases left with _ | left
    · exact hrest h
    obtain ⟨right, hright, h⟩ := exceptBind_eq_ok.mp h
    rcases right with _ | right
    · exact hrest h
    obtain rfl := Option.some.inj (Except.ok.inj h)
    exact .pivoted (hsub pivot List.mem_cons_self) hsrc htgt (hleg hleft) (hleg hright)

theorem resolveTier_connects
    (hleg : ∀ {legFrom legTo step}, leg legFrom legTo = .ok (some step) →
      step.IsLeg chain legFrom legTo)
    (h : resolveTier leg src tgt pivots = .ok (some path)) :
    path.Connects chain pivots src tgt := by
  obtain ⟨step, hstep, h⟩ := exceptBind_eq_ok.mp h
  rcases step with _ | step
  · exact resolvePivots_connects hleg (fun _ hp => hp) h
  · obtain rfl := Option.some.inj (Except.ok.inj h)
    exact .direct (hleg hstep)

/-- **A path found** leads from the one currency to the other, over one of the pivots if it has two
legs. -/
theorem resolvePath_connects
    (h : resolvePath cenv src tgt atTime chain pivots = .ok (some path)) :
    path.Connects chain pivots src tgt := by
  rw [resolvePath] at h
  split at h
  · cases h
  obtain ⟨fresh, hfresh, h⟩ := exceptBind_eq_ok.mp h
  rcases fresh with _ | fresh
  · exact resolveTier_connects resolveLeg_isLeg h
  · obtain rfl := Option.some.inj (Except.ok.inj h)
    exact resolveTier_connects resolveLeg_isLeg hfresh

end Resolution

/-! ## What a path makes of an amount

Paths on decimals, as they are applied, and on rational numbers, as they are reasoned about: each
leg rounds, and the two agree. -/

/-- A step can be applied: it does not divide by zero. Only a reversed leg divides. -/
def RateStep.Divisible (step : RateStep) : Prop := step.divide = true → step.rate.value ≠ 0

/-- A step on numbers: the rounded quotient or product, to 28 significant digits. -/
def RateStep.scale (step : RateStep) (x : ℚ) : ℚ :=
  roundSig precision (if step.divide then x / step.rate.value else x * step.rate.value)

theorem one_le_precision : 1 ≤ precision := by decide

theorem RateStep.apply_of_divisible {step : RateStep} (h : step.Divisible) (amount : Dec) :
    ∃ result, step.apply amount = some result ∧ result.value = step.scale amount.value := by
  rcases hd : step.divide with _ | _
  · refine ⟨mul precision amount step.rate, by simp [apply, hd], ?_⟩
    rw [value_mul one_le_precision, scale, hd]
    rfl
  · have hcoeff : step.rate.coeff ≠ 0 := fun h0 => h hd (Dec.value_eq_zero.mpr h0)
    refine ⟨div precision amount step.rate, by simp [apply, hd, hcoeff], ?_⟩
    rw [value_div one_le_precision amount hcoeff, scale, hd]
    rfl

theorem RateStep.apply_of_not_divisible {step : RateStep} (h : ¬ step.Divisible) (amount : Dec) :
    step.apply amount = none := by
  obtain ⟨hd, hzero⟩ := Classical.not_imp.mp h
  have hcoeff := Dec.value_eq_zero.mp (not_not.mp hzero)
  simp [apply, hd, hcoeff]

/-- Steps one after another, on decimals and on numbers: they give the same value or none. -/
theorem applySteps_eq_some {steps : List RateStep} {amount result : Dec} :
    steps.foldlM (fun amount step => step.apply amount) amount = some result →
      (∀ step ∈ steps, step.Divisible) ∧
        result.value = steps.foldl (fun x step => step.scale x) amount.value := by
  induction steps generalizing amount with
  | nil =>
    intro h
    obtain rfl := Option.some.inj h
    exact ⟨fun _ hstep => absurd hstep List.not_mem_nil, rfl⟩
  | cons step steps ih =>
    intro h
    rw [List.foldlM_cons] at h
    obtain ⟨amount', happly, h⟩ := Option.bind_eq_some_iff.mp h
    by_cases hdiv : step.Divisible
    · obtain ⟨amount'', happly', hvalue⟩ := RateStep.apply_of_divisible hdiv amount
      obtain rfl := Option.some.inj (happly.symm.trans happly')
      obtain ⟨hrest, hresult⟩ := ih h
      refine ⟨fun s hs => ?_, by rw [hresult, hvalue, List.foldl_cons]⟩
      rcases List.mem_cons.mp hs with rfl | hs
      · exact hdiv
      · exact hrest s hs
    · rw [RateStep.apply_of_not_divisible hdiv] at happly
      cases happly

theorem exists_applySteps {steps : List RateStep} (h : ∀ step ∈ steps, step.Divisible)
    (amount : Dec) :
    ∃ result, steps.foldlM (fun amount step => step.apply amount) amount = some result := by
  induction steps generalizing amount with
  | nil => exact ⟨amount, rfl⟩
  | cons step steps ih =>
    obtain ⟨amount', happly, -⟩ :=
      RateStep.apply_of_divisible (h step List.mem_cons_self) amount
    obtain ⟨result, hresult⟩ := ih (fun s hs => h s (List.mem_cons_of_mem _ hs)) amount'
    refine ⟨result, ?_⟩
    rw [List.foldlM_cons, happly]
    exact hresult

namespace RatePath

/-- A path can be applied: no reversed leg has the rate zero. -/
def Divisible (path : RatePath) : Prop := ∀ step ∈ path.steps, step.Divisible

/-- A path on numbers, leg by leg: the second rounds what the first has rounded. -/
def scale (path : RatePath) (x : ℚ) : ℚ := path.steps.foldl (fun x step => step.scale x) x

/-- The cents a path makes of an amount in cents. The last rounding is to whole cents, with halves
going away from zero. -/
def convertedAmount (path : RatePath) (amountCents : ℤ) : ℤ :=
  roundHalfUp (path.scale amountCents)

variable {path : RatePath} {amount result : Dec}

/-- **An amount comes out** of a path exactly if the path can be applied, and then it is the
rounded one. -/
theorem apply_eq_some :
    (∃ result, path.apply amount = some result ∧ result.value = path.scale amount.value) ↔
      path.Divisible := by
  refine ⟨?_, fun h => ?_⟩
  · rintro ⟨result, happly, -⟩
    exact (applySteps_eq_some happly).1
  · obtain ⟨result, happly⟩ := exists_applySteps h amount
    exact ⟨result, happly, (applySteps_eq_some happly).2⟩

theorem apply_toInteger_eq_some {amountCents n : ℤ} :
    (path.apply (.ofInt amountCents)).bind (toInteger precision) = some n ↔
      path.Divisible ∧ n = path.convertedAmount amountCents ∧ n.natAbs < 10 ^ precision := by
  have hvalue : (Dec.ofInt amountCents).value = amountCents := Dec.value_ofInt amountCents
  constructor
  · intro h
    obtain ⟨result, happly, hint⟩ := Option.bind_eq_some_iff.mp h
    obtain ⟨hdiv, hresult⟩ := applySteps_eq_some happly
    obtain ⟨hn, hbound⟩ := (toInteger_eq_some one_le_precision).mp hint
    refine ⟨hdiv, ?_, hbound⟩
    rw [hn, hresult, hvalue]
    rfl
  · rintro ⟨hdiv, hn, hbound⟩
    obtain ⟨result, happly, hresult⟩ := apply_eq_some.mpr hdiv
    refine Option.bind_eq_some_iff.mpr ⟨result, happly, ?_⟩
    rw [toInteger_eq_some one_le_precision, hresult, hvalue]
    exact ⟨hn, hbound⟩

end RatePath

theorem exists_pathMetadata {path : RatePath} (h : path.Divisible) :
    ∃ metadata, pathMetadata path = some metadata := by
  obtain ⟨effectiveRate, hrate, -⟩ := RatePath.apply_eq_some.mpr h
  refine ⟨_, Option.bind_eq_some_iff.mpr ⟨effectiveRate, hrate, rfl⟩⟩

/-- **When a conversion succeeds**: the queries raise nothing, and the path they find, if any,
makes of the amount an integer of at most 28 digits. -/
theorem convertTo_eq_ok {cenv : ConversionEnv} {chain : List RateSourceConfig}
    {pivots : List String} {amountCents : ℤ} {accountCurrency : String} {atTime : Timestamp}
    {target : Currency} {r : Option ℤ × Option Dict} (hne : accountCurrency ≠ target.code) :
    convertTo cenv chain pivots amountCents accountCurrency atTime target = .ok r ↔
      ∃ path?, resolvePath cenv accountCurrency target.code atTime chain pivots = .ok path? ∧
        (path? = none ∧ r = (none, none) ∨
          ∃ path metadata, path? = some path ∧ path.Divisible ∧
            (path.convertedAmount amountCents).natAbs < 10 ^ precision ∧
            pathMetadata path = some metadata ∧
            r = (some (path.convertedAmount amountCents), some metadata)) := by
  rw [convertTo, if_neg hne]
  rw [exceptBind_eq_ok]
  refine exists_congr fun path? => and_congr_right fun _ => ?_
  rcases path? with _ | path
  · refine ⟨fun h => Or.inl ⟨rfl, (Except.ok.inj h).symm⟩, ?_⟩
    rintro (⟨-, rfl⟩ | ⟨_, _, h, -⟩)
    · rfl
    · cases h
  · dsimp only
    constructor
    · intro h
      split at h
      · next amount metadata hamount hmetadata =>
        obtain ⟨hdiv, rfl, hbound⟩ := RatePath.apply_toInteger_eq_some.mp hamount
        exact Or.inr ⟨path, metadata, rfl, hdiv, hbound, hmetadata, (Except.ok.inj h).symm⟩
      · cases h
    · rintro (⟨h, -⟩ | ⟨_, metadata, h, hdiv, hbound, hmetadata, rfl⟩)
      · cases h
      · obtain rfl := Option.some.inj h
        have hamount := RatePath.apply_toInteger_eq_some.mpr ⟨hdiv, rfl, hbound⟩
        simp only [hamount, hmetadata]
        rfl

theorem convert_eq_ok {cenv : ConversionEnv} {tx : NormalizedTransaction}
    {accountCurrency : String} {conversion : ConversionResult} :
    convert cenv tx accountCurrency = .ok conversion ↔
      ∃ chain uah usd eur, loadSourceChain cenv.configs tx.entrySource = .ok chain ∧
        convertTo cenv chain (orderedPivots chain) tx.amountCents accountCurrency tx.time .UAH =
          .ok uah ∧
        convertTo cenv chain (orderedPivots chain) tx.amountCents accountCurrency tx.time .USD =
          .ok usd ∧
        convertTo cenv chain (orderedPivots chain) tx.amountCents accountCurrency tx.time .EUR =
          .ok eur ∧
        conversion = .ofTargets uah usd eur := by
  constructor
  · intro h
    obtain ⟨chain, hchain, h⟩ := exceptBind_eq_ok.mp h
    obtain ⟨uah, huah, h⟩ := exceptBind_eq_ok.mp h
    obtain ⟨usd, husd, h⟩ := exceptBind_eq_ok.mp h
    obtain ⟨eur, heur, h⟩ := exceptBind_eq_ok.mp h
    exact ⟨chain, uah, usd, eur, hchain, huah, husd, heur, (Except.ok.inj h).symm⟩
  · rintro ⟨chain, uah, usd, eur, hchain, huah, husd, heur, rfl⟩
    exact exceptBind_eq_ok.mpr ⟨chain, hchain, exceptBind_eq_ok.mpr ⟨uah, huah,
      exceptBind_eq_ok.mpr ⟨usd, husd, exceptBind_eq_ok.mpr ⟨eur, heur, rfl⟩⟩⟩⟩

end Grosh
