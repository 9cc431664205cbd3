import Grosh.PairLinks
import Grosh.PathOptimality

/-!
# The poll tolerance

A polled row counts as fresh until `K` cadences after its last poll, and no longer: then the
closest row is looked for, which may be another one. So the tolerance is not cosmetic. It
matters in one way only, by the rows it makes fresh, and where the same rows are used in the end
the amounts are the same.

* `convert_tolerance` — two tolerances that make the same rows fresh convert alike; two that end
  up with the same rows give the same amounts, and steps that differ in tier and proximity only.
* `convert_tolerance_matters` — a lower tolerance turns to a nearer row, at another rate.
-/

namespace Grosh

open DecimalFloat FirstHit Isoformat

variable {cenv : ConversionEnv} {chain : List RateSourceConfig} {pivots : List String}
  {legFrom legTo src tgt : String} {atTime : Timestamp} {K₁ K₂ : ℤ}

/-- The service with another tolerance, the tables being the same. -/
def ConversionEnv.withTolerance (cenv : ConversionEnv) (K : ℤ) : ConversionEnv :=
  { cenv with pollTolerance := K }

/-! ## The same rows are fresh

The tolerance is read by the fresh query alone, where it decides until when a polled row is
fresh. -/

/-- The tolerances make the same rows fresh, among the rows of the chain that are valid at the
moment, and the products are in the range of `INTEGER` for both or for none. -/
structure SameFresh (cenv : ConversionEnv) (chain : List RateSourceConfig) (atTime : Timestamp)
    (K₁ K₂ : ℤ) : Prop where
  fits : fitsInteger K₁ = fitsInteger K₂
  reaches : ∀ r ∈ cenv.rates, r.pair.source ∈ chain.map RateSourceConfig.source →
    coversMoment r.pair atTime r = true → graceReaches K₁ atTime r = graceReaches K₂ atTime r
  graceFits : ∀ r ∈ cenv.rates, r.pair.source ∈ chain.map RateSourceConfig.source →
    coversMoment r.pair atTime r = true → graceFits K₁ r = graceFits K₂ r

/-- The fresh query of a pair of the chain returns the same row, or raises alike. -/
theorem SameFresh.findFreshRate_eq (h : SameFresh cenv chain atTime K₁ K₂) {pair : RatePair}
    (hsource : pair.source ∈ chain.map RateSourceConfig.source) :
    findFreshRate cenv.rateDb cenv.rates pair atTime K₁ =
      findFreshRate cenv.rateDb cenv.rates pair atTime K₂ := by
  have hrow : ∀ r ∈ cenv.rates.rows.filter (coversMoment pair atTime),
      graceReaches K₁ atTime r = graceReaches K₂ atTime r ∧
        Grosh.graceFits K₁ r = Grosh.graceFits K₂ r := by
    intro r hr
    obtain ⟨hmem, hcovers⟩ := List.mem_filter.mp hr
    obtain rfl := pair_of_coversMoment hcovers
    exact ⟨h.reaches r hmem hsource hcovers, h.graceFits r hmem hsource hcovers⟩
  have hfilter : (cenv.rates.rows.filter (coversMoment pair atTime)).filter
      (graceReaches K₁ atTime) = (cenv.rates.rows.filter (coversMoment pair atTime)).filter
      (graceReaches K₂ atTime) := List.filter_congr fun r hr => (hrow r hr).1
  have hall : (cenv.rates.rows.filter (coversMoment pair atTime)).all (Grosh.graceFits K₁) =
      (cenv.rates.rows.filter (coversMoment pair atTime)).all (Grosh.graceFits K₂) := by
    rw [Bool.eq_iff_iff, List.all_eq_true, List.all_eq_true]
    exact forall₂_congr fun r hr => by rw [(hrow r hr).2]
  simp only [findFreshRate, h.fits, hall, hfilter]

theorem SameFresh.tryFresh_eq (h : SameFresh cenv chain atTime K₁ K₂) {config : RateSourceConfig}
    (hmem : config ∈ chain) (reverse : Bool) :
    tryFresh (cenv.withTolerance K₁) legFrom legTo atTime config reverse =
      tryFresh (cenv.withTolerance K₂) legFrom legTo atTime config reverse := by
  rw [Grosh.tryFresh_eq, Grosh.tryFresh_eq]
  exact congrArg (fun query => (queryError query).map _)
    (h.findFreshRate_eq (source_mem_of_legPair hmem ..))

/-- Every leg is resolved alike: the closest query does not read the tolerance. -/
theorem SameFresh.resolveLeg_eq (h : SameFresh cenv chain atTime K₁ K₂) (tier : RateTier) :
    resolveLeg (cenv.withTolerance K₁) legFrom legTo atTime chain tier =
      resolveLeg (cenv.withTolerance K₂) legFrom legTo atTime chain tier := by
  cases tier with
  | fresh =>
    rw [resolveLeg, resolveLeg, resolveFresh_eq, resolveFresh_eq]
    exact findSomeM?_congr fun config hmem => by rw [h.tryFresh_eq hmem, h.tryFresh_eq hmem]
  | closest => rfl

theorem SameFresh.resolvePath_eq (h : SameFresh cenv chain atTime K₁ K₂) :
    resolvePath (cenv.withTolerance K₁) src tgt atTime chain pivots =
      resolvePath (cenv.withTolerance K₂) src tgt atTime chain pivots := by
  have hleg : ∀ tier, (fun legFrom legTo =>
      resolveLeg (cenv.withTolerance K₁) legFrom legTo atTime chain tier) = fun legFrom legTo =>
        resolveLeg (cenv.withTolerance K₂) legFrom legTo atTime chain tier :=
    fun tier => funext fun _ => funext fun _ => h.resolveLeg_eq tier
  simp only [resolvePath, hleg]

/-! ## The same rows are used

Two paths may be found at different tiers and still go over the same rows. Then they differ in what
a step says about its tier and its distance, and in nothing else. -/

/-- A step but for its tier and its proximity, which are what the search says about the row. -/
def RateStep.untiered (step : RateStep) : RateStep :=
  { step with tier := .fresh, proximitySeconds := 0 }

/-- A stored value is read as one number, so that a row determines the rate of a step. -/
theorem Numeric.Reads.unique {x : Numeric} {d d' : Dec} (h : x.Reads d) (h' : x.Reads d') :
    d = d' := by
  obtain ⟨n, ⟨hn, rfl⟩, rfl, -⟩ := h
  obtain ⟨n', ⟨hn', heq⟩, rfl, -⟩ := h'
  obtain rfl := (Numeric.units.inj heq)
  rfl

/-- **A row determines the step** but for the tier and the proximity. -/
theorem StepUses.untiered_eq {tier tier' : RateTier} {reverse : Bool} {r : CurrencyRateRow}
    {step step' : RateStep} (h : StepUses legFrom legTo tier reverse r step)
    (h' : StepUses legFrom legTo tier' reverse r step') : step.untiered = step'.untiered := by
  have hside : step.rateSide = step'.rateSide ∧ step.rate = step'.rate := by
    rcases hx : r.rates.side reverse with _ | x
    · exact ⟨(h.mid hx).1.trans (h'.mid hx).1.symm, (h.mid hx).2.unique (h'.mid hx).2⟩
    · exact ⟨(h.liquidates x hx).1.trans (h'.liquidates x hx).1.symm,
        (h.liquidates x hx).2.unique (h'.liquidates x hx).2⟩
  rw [RateStep.untiered, RateStep.untiered, h.currencyFrom, h'.currencyFrom, h.currencyTo,
    h'.currencyTo, h.source, h'.source, h.rateId, h'.rateId, h.divide, h'.divide, hside.1, hside.2]

/-- The row of a leg is one of the pair it leads over, direct or in reverse, whatever the tier. -/
theorem LegAt.uses {tier : RateTier} {step : RateStep}
    (h : LegAt cenv chain atTime legFrom legTo tier step) :
    ∃ reverse r, r ∈ cenv.rates ∧ r.pair.currencyFrom = (if reverse then legTo else legFrom) ∧
      r.pair.currencyTo = (if reverse then legFrom else legTo) ∧
      StepUses legFrom legTo tier reverse r step := by
  cases h with
  | @fresh before after config reverse r _ split earlier direct row newest uses proximity =>
    have hpair := pair_of_coversMoment row.2.1
    refine ⟨reverse, r, row.1, ?_, ?_, uses⟩
    · rw [hpair, legPair]
      split <;> rfl
    · rw [hpair, legPair]
      split <;> rfl
  | @closest reverse r _ direct row nearest uses proximity =>
    exact ⟨reverse, r, row.1, row.2.1, row.2.2.1, uses⟩

/-- **Legs that use the same row** lead to the same currency, and are the same but for tier and
proximity. -/
theorem LegAt.untiered_eq {tier₁ tier₂ : RateTier} {step₁ step₂ : RateStep} {legTo₁ legTo₂ : String}
    (hne : legFrom ≠ legTo₁)
    (h₁ : LegAt (cenv.withTolerance K₁) chain atTime legFrom legTo₁ tier₁ step₁)
    (h₂ : LegAt (cenv.withTolerance K₂) chain atTime legFrom legTo₂ tier₂ step₂)
    (hid : step₁.rateId = step₂.rateId) :
    legTo₁ = legTo₂ ∧ step₁.untiered = step₂.untiered := by
  obtain ⟨reverse₁, r₁, hmem₁, hfrom₁, hto₁, huses₁⟩ := h₁.uses
  obtain ⟨reverse₂, r₂, hmem₂, hfrom₂, hto₂, huses₂⟩ := h₂.uses
  obtain rfl : r₁ = r₂ := by
    apply KeyedTable.eq_of_key_eq hmem₁ hmem₂
    rw [← huses₁.rateId, ← huses₂.rateId, hid]
  -- the row has two different currencies, so it is used in one way only
  rcases reverse₁ with _ | _ <;> rcases reverse₂ with _ | _
  · obtain rfl : legTo₁ = legTo₂ := hto₁.symm.trans hto₂
    exact ⟨rfl, huses₁.untiered_eq huses₂⟩
  · exact absurd (hto₂.symm.trans hto₁) hne
  · exact absurd (hfrom₂.symm.trans hfrom₁) hne
  · obtain rfl : legTo₁ = legTo₂ := hfrom₁.symm.trans hfrom₂
    exact ⟨rfl, huses₁.untiered_eq huses₂⟩

/-- The rows of a path, by their ids, in the order of the legs. -/
def RatePath.rateIds (path : RatePath) : List UUID := path.steps.map RateStep.rateId

/-- The steps of a path but for their tiers and proximities: what the amount depends on. -/
def RatePath.untiered (path : RatePath) : List RateStep := path.steps.map RateStep.untiered

/-- The amount depends on the steps only, and not on their tiers. -/
theorem convertedAmount_of_untiered {path₁ path₂ : RatePath}
    (h : path₁.untiered = path₂.untiered) (amountCents : ℤ) :
    path₁.convertedAmount amountCents = path₂.convertedAmount amountCents := by
  have hscale : ∀ (path : RatePath) (x : ℚ),
      path.scale x = path.untiered.foldl (fun x step => step.scale x) x := by
    intro path x
    rw [RatePath.untiered, List.foldl_map]
    rfl
  rw [RatePath.convertedAmount, RatePath.convertedAmount, hscale, hscale, h]

/-- **Paths over the same rows** are the same but for tiers and proximities. The rows say which
currencies a path goes over. -/
theorem untiered_eq_of_rateIds (hne : src ≠ tgt) {path₁ path₂ : RatePath}
    {place₁ place₂ : ℕ ×ₗ ℕ ×ₗ ℕ}
    (h₁ : IsPath (cenv.withTolerance K₁) chain pivots src tgt atTime place₁ path₁)
    (h₂ : IsPath (cenv.withTolerance K₂) chain pivots src tgt atTime place₂ path₂)
    (hids : path₁.rateIds = path₂.rateIds) : path₁.untiered = path₂.untiered := by
  obtain ⟨h₁⟩ := h₁
  obtain ⟨h₂⟩ := h₂
  cases h₁ with
  | direct leg₁ =>
    cases h₂ with
    | direct leg₂ =>
      have hid := List.head_eq_of_cons_eq hids
      exact congrArg (fun step => [step]) (leg₁.untiered_eq hne leg₂ hid).2
    | pivoted => cases List.tail_eq_of_cons_eq hids
  | pivoted _ ne_src₁ ne_tgt₁ left₁ right₁ =>
    cases h₂ with
    | direct => cases List.tail_eq_of_cons_eq hids
    | pivoted _ ne_src₂ _ left₂ right₂ =>
      have hleft := List.head_eq_of_cons_eq hids
      have hright := List.head_eq_of_cons_eq (List.tail_eq_of_cons_eq hids)
      obtain ⟨rfl, hl⟩ := left₁.untiered_eq ne_src₁.symm left₂ hleft
      have hr := (right₁.untiered_eq ne_tgt₁ right₂ hright).2
      exact congrArg₂ (fun left right => [left, right]) hl hr

/-! ## Conversion

From the paths back to the amounts that a conversion returns. -/

/-- The path of a conversion into a display currency: the chain of the entry source is loaded, and
the search made along it. -/
def resolveTarget (cenv : ConversionEnv) (tx : NormalizedTransaction) (accountCurrency : String)
    (target : Currency) : Except ConversionError (Option RatePath) := do
  let chain ← loadSourceChain cenv.configs tx.entrySource
  resolvePath cenv accountCurrency target.code tx.time chain (orderedPivots chain)

/-- The rows a conversion uses for a display currency, or what it raises. -/
def rowsUsed (cenv : ConversionEnv) (tx : NormalizedTransaction) (accountCurrency : String)
    (target : Currency) : Except ConversionError (Option (List UUID)) :=
  (resolveTarget cenv tx accountCurrency target).map (Option.map RatePath.rateIds)

/-- The steps a conversion makes for a display currency, but for their tiers. -/
def stepsUsed (cenv : ConversionEnv) (tx : NormalizedTransaction) (accountCurrency : String)
    (target : Currency) : Except ConversionError (Option (List RateStep)) :=
  (resolveTarget cenv tx accountCurrency target).map (Option.map RatePath.untiered)

variable {tx : NormalizedTransaction} {accountCurrency : String} {c c₁ c₂ : ConversionResult}
  {target : Currency}

/-- The amount a conversion gives in a display currency other than the account's. -/
theorem amounts_of_convert (h : convert cenv tx accountCurrency = .ok c)
    (htarget : target ∈ displayCurrencies) (hne : accountCurrency ≠ target.code) :
    ∃ path?, resolveTarget cenv tx accountCurrency target = .ok path? ∧
      c.amounts target = path?.map fun path => path.convertedAmount tx.amountCents := by
  obtain ⟨chain, uah, usd, eur, hchain, huah, husd, heur, rfl⟩ := convert_eq_ok.mp h
  have hamount : ∃ r, convertTo cenv chain (orderedPivots chain) tx.amountCents accountCurrency
      tx.time target = .ok r ∧ (ConversionResult.ofTargets uah usd eur).amounts target = r.1 := by
    simp only [displayCurrencies, List.mem_cons, List.not_mem_nil, or_false] at htarget
    obtain rfl | rfl | rfl := htarget
    · exact ⟨uah, huah, rfl⟩
    · exact ⟨usd, husd, rfl⟩
    · exact ⟨eur, heur, rfl⟩
  obtain ⟨r, hr, hamount⟩ := hamount
  obtain ⟨path?, hpath, hr⟩ := (convertTo_eq_ok hne).mp hr
  refine ⟨path?, exceptBind_eq_ok.mpr ⟨chain, hchain, hpath⟩, hamount.trans ?_⟩
  obtain ⟨rfl, rfl⟩ | ⟨path, metadata, rfl, -, -, -, rfl⟩ := hr
  · rfl
  · rfl

theorem amounts_of_account (h : convert cenv tx accountCurrency = .ok c)
    (htarget : target ∈ displayCurrencies) (heq : accountCurrency = target.code) :
    c.amounts target = some tx.amountCents := by
  obtain ⟨chain, uah, usd, eur, hchain, huah, husd, heur, rfl⟩ := convert_eq_ok.mp h
  simp only [displayCurrencies, List.mem_cons, List.not_mem_nil, or_false] at htarget
  obtain rfl | rfl | rfl := htarget
  · rw [convertTo, if_pos heq] at huah
    exact congrArg Prod.fst (Except.ok.inj huah).symm
  · rw [convertTo, if_pos heq] at husd
    exact congrArg Prod.fst (Except.ok.inj husd).symm
  · rw [convertTo, if_pos heq] at heur
    exact congrArg Prod.fst (Except.ok.inj heur).symm

theorem resolveTarget_eq_ok {path? : Option RatePath} :
    resolveTarget cenv tx accountCurrency target = .ok path? ↔
      ∃ chain, loadSourceChain cenv.configs tx.entrySource = .ok chain ∧
        resolvePath cenv accountCurrency target.code tx.time chain (orderedPivots chain) =
          .ok path? := exceptBind_eq_ok

/-- Paths found over the same rows. -/
theorem untiered_eq_of_resolveTarget (hne : accountCurrency ≠ target.code)
    {path₁ path₂ : RatePath}
    (h₁ : resolveTarget (cenv.withTolerance K₁) tx accountCurrency target = .ok (some path₁))
    (h₂ : resolveTarget (cenv.withTolerance K₂) tx accountCurrency target = .ok (some path₂))
    (hids : path₁.rateIds = path₂.rateIds) : path₁.untiered = path₂.untiered := by
  obtain ⟨chain, hchain, hpath₁⟩ := resolveTarget_eq_ok.mp h₁
  obtain ⟨chain', hchain', hpath₂⟩ := resolveTarget_eq_ok.mp h₂
  obtain rfl : chain = chain' := Except.ok.inj (hchain.symm.trans hchain')
  obtain ⟨_, hplace₁, -⟩ := resolvePath_first (inRange_of_resolvePath hpath₁) hpath₁
  obtain ⟨_, hplace₂, -⟩ := resolvePath_first (inRange_of_resolvePath hpath₂) hpath₂
  exact untiered_eq_of_rateIds hne hplace₁ hplace₂ hids

/-- The steps over the same rows. -/
theorem stepsUsed_eq (hne : accountCurrency ≠ target.code)
    (hrows : rowsUsed (cenv.withTolerance K₁) tx accountCurrency target =
      rowsUsed (cenv.withTolerance K₂) tx accountCurrency target) :
    stepsUsed (cenv.withTolerance K₁) tx accountCurrency target =
      stepsUsed (cenv.withTolerance K₂) tx accountCurrency target := by
  rw [rowsUsed, rowsUsed] at hrows
  rw [stepsUsed, stepsUsed]
  rcases h₁ : resolveTarget (cenv.withTolerance K₁) tx accountCurrency target with e₁ | path₁?
  · rw [h₁, eq_comm, Except.map, exceptMap_eq_error] at hrows
    rw [hrows]
  rw [h₁] at hrows
  obtain ⟨path₂?, h₂, hids⟩ := exceptMap_eq_ok.mp hrows.symm
  rw [h₂]
  rcases path₁? with _ | path₁
  · rw [Option.map_eq_none_iff.mp hids]
  · obtain ⟨path₂, rfl, hids₂⟩ := Option.map_eq_some_iff.mp hids
    have hsteps := untiered_eq_of_resolveTarget hne h₁ h₂ hids₂.symm
    exact congrArg (fun steps => Except.ok (some steps)) hsteps

theorem convert_of_chain {cenv : ConversionEnv}
    (hchain : loadSourceChain cenv.configs tx.entrySource = .ok chain) :
    convert cenv tx accountCurrency = (do
      let uah ← convertTo cenv chain (orderedPivots chain) tx.amountCents accountCurrency tx.time
        .UAH
      let usd ← convertTo cenv chain (orderedPivots chain) tx.amountCents accountCurrency tx.time
        .USD
      let eur ← convertTo cenv chain (orderedPivots chain) tx.amountCents accountCurrency tx.time
        .EUR
      return .ofTargets uah usd eur) := by
  rw [convert, hchain]
  rfl

/-- Tolerances that make the same rows fresh convert alike. -/
theorem SameFresh.convert_eq
    (hchain : loadSourceChain cenv.configs tx.entrySource = .ok chain)
    (h : SameFresh cenv chain tx.time K₁ K₂) :
    convert (cenv.withTolerance K₁) tx accountCurrency =
      convert (cenv.withTolerance K₂) tx accountCurrency := by
  have hto : ∀ target, convertTo (cenv.withTolerance K₁) chain (orderedPivots chain)
      tx.amountCents accountCurrency tx.time target =
        convertTo (cenv.withTolerance K₂) chain (orderedPivots chain) tx.amountCents
          accountCurrency tx.time target := by
    intro target
    rw [convertTo, convertTo, h.resolvePath_eq]
  have hconfigs : ∀ K, loadSourceChain (cenv.withTolerance K).configs tx.entrySource =
      .ok chain := fun _ => hchain
  rw [convert_of_chain (hconfigs K₁), convert_of_chain (hconfigs K₂), hto, hto, hto]

/-- **The poll tolerance** matters only by the rows it makes fresh, and to the amounts only by the
rows that are used. -/
theorem convert_tolerance (cenv : ConversionEnv) (tx : NormalizedTransaction)
    (accountCurrency : String) (K₁ K₂ : ℤ) :
    (∀ chain, loadSourceChain cenv.configs tx.entrySource = .ok chain →
      SameFresh cenv chain tx.time K₁ K₂ →
        convert (cenv.withTolerance K₁) tx accountCurrency =
          convert (cenv.withTolerance K₂) tx accountCurrency) ∧
    ∀ c₁ c₂, convert (cenv.withTolerance K₁) tx accountCurrency = .ok c₁ →
      convert (cenv.withTolerance K₂) tx accountCurrency = .ok c₂ →
        ∀ target ∈ displayCurrencies,
          rowsUsed (cenv.withTolerance K₁) tx accountCurrency target =
            rowsUsed (cenv.withTolerance K₂) tx accountCurrency target →
          c₁.amounts target = c₂.amounts target ∧
            (accountCurrency ≠ target.code →
              stepsUsed (cenv.withTolerance K₁) tx accountCurrency target =
                stepsUsed (cenv.withTolerance K₂) tx accountCurrency target) := by
  refine ⟨fun chain hchain hfresh => hfresh.convert_eq hchain,
    fun c₁ c₂ h₁ h₂ target htarget hrows => ?_⟩
  by_cases heq : accountCurrency = target.code
  · exact ⟨(amounts_of_account h₁ htarget heq).trans (amounts_of_account h₂ htarget heq).symm,
      fun hne => absurd heq hne⟩
  have hsteps := stepsUsed_eq heq hrows
  refine ⟨?_, fun _ => hsteps⟩
  obtain ⟨path₁?, hpath₁, hamount₁⟩ := amounts_of_convert h₁ htarget heq
  obtain ⟨path₂?, hpath₂, hamount₂⟩ := amounts_of_convert h₂ htarget heq
  rw [stepsUsed, stepsUsed, hpath₁, hpath₂] at hsteps
  rw [hamount₁, hamount₂]
  rcases path₁? with _ | path₁ <;> rcases path₂? with _ | path₂
  · rfl
  · cases hsteps
  · cases hsteps
  · exact congrArg some
      (convertedAmount_of_untiered (Option.some.inj (Except.ok.inj hsteps)) tx.amountCents)

/-! ### A lower tolerance -/

/-- A source that is polled, without a fallback. -/
def sampleBank : RateSourceConfig where
  source := "monobank"
  source_noNul := by decide
  fallbackSource := none
  baseCurrencies := ["UAH"]
  baseCurrencies_noNul := noNul_uah

theorem natAbs_forty_lt : Int.natAbs 4000000000 < 10 ^ 18 := by decide

/-- A rate of 40, polled at 0 for the last time and valid until 1000 s. -/
def sampleOlder : CurrencyRateRow where
  id := 1
  pair := ⟨"monobank", "USD", "UAH"⟩
  rates := ⟨none, none, .units 4000000000 natAbs_forty_lt⟩
  validFrom := 0
  validTo := some (1000 * second)
  lastPolledAt := some 0
  updateCadenceSeconds := some 300

/-- A rate of 41, polled at 1000 s for the first time. -/
def sampleNewer : CurrencyRateRow where
  id := 2
  pair := ⟨"monobank", "USD", "UAH"⟩
  rates := ⟨none, none, .units 4100000000 (by decide)⟩
  validFrom := 1000 * second
  validTo := none
  lastPolledAt := some (1000 * second)
  updateCadenceSeconds := some 300

/-- The rate tables with the two rates. -/
def sampleTwoRates : ConversionEnv where
  rateDb := sampleRateDb
  rates := ⟨[sampleOlder, sampleNewer], by decide⟩
  configs := ⟨[sampleBank], by decide⟩
  pollTolerance := 2

/-- A dollar spent at 900 s. -/
def sampleLate : NormalizedTransaction :=
  { sampleLeg 1 10 "a" .expense with time := 900 * second }

/-- At 900 s the older rate is fresh three cadences after its last poll, but not after one: then
the newer rate is nearer, and the dollar makes 41 hryvnias instead of 40. -/
theorem convert_tolerance_matters :
    ((convert (sampleTwoRates.withTolerance 3) sampleLate "USD").toOption.bind
      fun c => c.amounts .UAH) = some 4000 ∧
    ((convert (sampleTwoRates.withTolerance 1) sampleLate "USD").toOption.bind
      fun c => c.amounts .UAH) = some 4100 := by
  constructor
  · decide +kernel
  · decide +kernel

end Grosh
