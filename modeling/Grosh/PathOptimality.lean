import Grosh.Conversion
import Grosh.Lib.FirstHit

/-!
# The path is the best one

`_resolve_path` stops at the first path it finds. The paths there are, in the order that says
which is better: a fresh path before one of closest rates, one hop before two, an earlier pivot
before a later one. The legs are what the table holds, said without the queries.

* `LegAt` — a leg of one tier: the row it uses, and the side of the row that liquidates the
  currency it leaves.
* `IsPath` — a path of one tier, with the place it has among the others.
* `resolvePath_optimal` — a path that is returned is the first of all, and none is returned
  exactly if there is none; the search raises only over rows it cannot read.
-/

namespace Grosh

open DecimalFloat FirstHit Isoformat

variable {cenv : ConversionEnv} {chain : List RateSourceConfig} {pivots : List String}
  {legFrom legTo src tgt : String} {atTime : Timestamp} {pair : RatePair} {reverse : Bool}
  {r : CurrencyRateRow} {step : RateStep} {tier : RateTier}

/-! ## The rows of a leg

A leg leads from one currency to another over one row. Here it is said which rows it may use,
without saying how they are looked for. -/

/-- The row meets the conditions of the fresh query: it is valid at the moment, and has not gone
stale. -/
def IsFresh (cenv : ConversionEnv) (pair : RatePair) (atTime : Timestamp) (r : CurrencyRateRow) :
    Prop :=
  r ∈ cenv.rates ∧ coversMoment pair atTime r = true ∧
    graceReaches cenv.pollTolerance atTime r = true

/-- A row that meets the conditions of the closest query: of the pair, of a source of the chain,
and at most seven days away. -/
def IsNear (cenv : ConversionEnv) (chain : List RateSourceConfig) (legFrom legTo : String)
    (atTime : Timestamp) (r : CurrencyRateRow) : Prop :=
  r ∈ cenv.rates ∧ r.pair.currencyFrom = legFrom ∧ r.pair.currencyTo = legTo ∧
    r.pair.source ∈ chain.map RateSourceConfig.source ∧ proximity atTime r ≤ maxClosestRateAge

/-- A stored value is the number a step computes with. -/
def Numeric.Reads (x : Numeric) (d : Dec) : Prop :=
  ∃ n, (∃ h, x = .units n h) ∧ d = (Decimal.finite ((n : ℚ) / 10 ^ 8)).toDec ∧
    d.value = n / 10 ^ 8

/-- The pair a leg looks up at a source: its own, or the reverse, whose rate it divides by. -/
def legPair (source legFrom legTo : String) (divide : Bool) : RatePair :=
  if divide then ⟨source, legTo, legFrom⟩ else ⟨source, legFrom, legTo⟩

theorem source_mem_of_legPair {chain : List RateSourceConfig} {config : RateSourceConfig}
    (hmem : config ∈ chain) (legFrom legTo : String) (divide : Bool) :
    (legPair config.source legFrom legTo divide).source ∈ chain.map RateSourceConfig.source := by
  rw [legPair]
  split <;> exact List.mem_map_of_mem hmem

/-- The side of the quote a leg prefers: the bank buys what the leg gives, or sells it in
reverse. -/
def StoredRates.side (rates : StoredRates) (reverse : Bool) : Option Numeric :=
  if reverse then rates.rateSell else rates.rateBuy

/-- The step uses the row: at the side of the quote that liquidates the currency it leaves, buy
for a direct row and sell for a reversed one, and at the mid rate where that side is absent. -/
structure StepUses (legFrom legTo : String) (tier : RateTier) (reverse : Bool)
    (r : CurrencyRateRow) (step : RateStep) : Prop where
  currencyFrom : step.currencyFrom = legFrom
  currencyTo : step.currencyTo = legTo
  source : step.source = r.pair.source
  rateId : step.rateId = r.id
  tier : step.tier = tier
  divide : step.divide = reverse
  liquidates : ∀ x, r.rates.side reverse = some x →
    step.rateSide = (if reverse then .sell else .buy) ∧ x.Reads step.rate
  mid : r.rates.side reverse = none → step.rateSide = .mid ∧ r.rates.rateMid.Reads step.rate

/-- The leg of a tier: a step that uses one of the best rows the tier has for it. -/
inductive LegAt (cenv : ConversionEnv) (chain : List RateSourceConfig) (atTime : Timestamp)
    (legFrom legTo : String) : RateTier → RateStep → Prop where
  /-- a newest fresh row of the first source of the chain that has one, of the direct pair if
  that has one -/
  | fresh {before after : List RateSourceConfig} {config : RateSourceConfig} {reverse : Bool}
      {r : CurrencyRateRow} {step : RateStep} (split : chain = before ++ config :: after)
      (earlier : ∀ c ∈ before, ∀ d r', ¬ IsFresh cenv (legPair c.source legFrom legTo d) atTime r')
      (direct : reverse = true →
        ∀ r', ¬ IsFresh cenv (legPair config.source legFrom legTo false) atTime r')
      (row : IsFresh cenv (legPair config.source legFrom legTo reverse) atTime r)
      (newest : ∀ r', IsFresh cenv (legPair config.source legFrom legTo reverse) atTime r' →
        r'.validFrom ≤ r.validFrom)
      (uses : StepUses legFrom legTo .fresh reverse r step)
      (proximity : step.proximitySeconds = 0) :
      LegAt cenv chain atTime legFrom legTo .fresh step
  /-- the nearest row of the whole chain, of the direct pair if that has one within seven days -/
  | closest {reverse : Bool} {r : CurrencyRateRow} {step : RateStep}
      (direct : reverse = true → ∀ r', ¬ IsNear cenv chain legFrom legTo atTime r')
      (row : IsNear cenv chain (if reverse then legTo else legFrom)
        (if reverse then legFrom else legTo) atTime r)
      (nearest : ∀ r', IsNear cenv chain (if reverse then legTo else legFrom)
        (if reverse then legFrom else legTo) atTime r' →
          closestKey (chain.map RateSourceConfig.source) atTime r ≤
            closestKey (chain.map RateSourceConfig.source) atTime r')
      (uses : StepUses legFrom legTo .closest reverse r step)
      (proximity : step.proximitySeconds = roundHalfAway (proximity atTime r / 10 ^ 6)) :
      LegAt cenv chain atTime legFrom legTo .closest step

/-! ### Reading a row

The tables hold numerics of eight decimals, and a step computes with decimals of 28 digits. -/

/-- A rate of eight decimals is read as it is stored, without rounding. -/
theorem value_toDec (n : ℤ) : (Decimal.finite ((n : ℚ) / 10 ^ 8)).toDec.value = n / 10 ^ 8 := by
  have hround : roundHalfAway ((n : ℚ) / 10 ^ 8 * 10 ^ 8) = n := by
    rw [div_mul_cancel₀ _ (by norm_num), roundHalfAway_intCast]
  have hscale : ((10 : ℚ) ^ (-8 : ℤ)) = 1 / 10 ^ 8 := by norm_num
  simp only [Decimal.toDec, hround, Dec.value, hscale, Nat.cast_natAbs]
  by_cases hn : n < 0
  · have hneg : (n : ℚ) / 10 ^ 8 < 0 :=
      div_neg_of_neg_of_pos (Int.cast_lt_zero.mpr hn) (by norm_num)
    rw [decide_eq_true hneg, abs_of_neg hn]
    simp [signOf, div_eq_mul_inv]
  · have hpos : ¬ (n : ℚ) / 10 ^ 8 < 0 :=
      not_lt.mpr (div_nonneg (Int.cast_nonneg (not_lt.mp hn)) (by norm_num))
    rw [decide_eq_false hpos, abs_of_nonneg (not_lt.mp hn)]
    simp [signOf, div_eq_mul_inv]

/-- A stored rate that is read is a number, and the step computes with it. -/
theorem reads_of_toFinite {x : Numeric} {d : Decimal} (h : x.toFinite = some d) :
    x.Reads d.toDec := by
  rcases x with ⟨n, hn⟩ | _
  · obtain rfl := Option.some.inj h
    exact ⟨n, ⟨hn, rfl⟩, rfl, value_toDec n⟩
  · cases h

/-- What the service reads of the rates of a row: each side by itself. -/
theorem read_eq_some {stored : StoredRates} {rates : RateValues} (h : stored.read = some rates) :
    readRate stored.rateBuy = some rates.rateBuy ∧ readRate stored.rateSell = some rates.rateSell ∧
      stored.rateMid.toFinite = some rates.rateMid := by
  obtain ⟨buy, hbuy, h⟩ := Option.bind_eq_some_iff.mp h
  obtain ⟨sell, hsell, h⟩ := Option.bind_eq_some_iff.mp h
  obtain ⟨mid, hmid, h⟩ := Option.bind_eq_some_iff.mp h
  obtain rfl := Option.some.inj h
  exact ⟨hbuy, hsell, hmid⟩

/-- The side of a quote, as it is read: it is absent, or a number. -/
theorem readRate_cases {x : Option Numeric} {d : Option Decimal} (h : readRate x = some d) :
    x = none ∧ d = none ∨ ∃ x' d', x = some x' ∧ d = some d' ∧ x'.Reads d'.toDec := by
  rcases x with _ | x
  · exact Or.inl ⟨rfl, (Option.some.inj h).symm⟩
  · obtain ⟨d', hd', rfl⟩ := Option.map_eq_some_iff.mp h
    exact Or.inr ⟨x, d', rfl, rfl, reads_of_toFinite hd'⟩

/-- **The step made of a row uses it**, at the side that belongs to the direction. -/
theorem stepUses_rateStep {row : RateRow} {seconds : ℤ} (hid : row.id = r.id)
    (hsource : row.source = r.pair.source) (hread : r.rates.read = some row.rates) :
    StepUses legFrom legTo tier reverse r
      (rateStep legFrom legTo row tier seconds reverse) := by
  obtain ⟨hbuy, hsell, hmid⟩ := read_eq_some hread
  have hside : readRate (r.rates.side reverse) =
      some (if reverse then row.rates.rateSell else row.rates.rateBuy) := by
    rcases reverse with _ | _
    · exact hbuy
    · exact hsell
  refine ⟨rfl, rfl, hsource, hid, rfl, rfl, fun x hx => ?_, fun hx => ?_⟩
  · obtain ⟨hnone, -⟩ | ⟨x', d, hx', hd, hreads⟩ := readRate_cases hside
    · rw [hnone] at hx
      cases hx
    · obtain rfl := Option.some.inj (hx'.symm.trans hx)
      simp only [rateStep, pickRate, hd]
      exact ⟨trivial, hreads⟩
  · obtain ⟨-, hd⟩ | ⟨x', d, hx', -, -⟩ := readRate_cases hside
    · simp only [rateStep, pickRate, hd]
      exact ⟨trivial, reads_of_toFinite hmid⟩
    · rw [hx'] at hx
      cases hx

/-! ### The fresh query

From the query as it is executed to the rows it may return. The order of the database decides
between equals. -/

/-- What the queries cannot read: a tolerance that is no `INTEGER`, or a row of a source of the
chain with a rate that is no number or a tolerance in seconds that is no `INTEGER`. -/
def Unreadable (cenv : ConversionEnv) (chain : List RateSourceConfig) : Prop :=
  fitsInteger cenv.pollTolerance = false ∨
    ∃ r ∈ cenv.rates, r.pair.source ∈ chain.map RateSourceConfig.source ∧
      (r.rates.read = none ∨ graceFits cenv.pollTolerance r = false)

theorem ofRow_eq_ok {source : String} {row : RateRow} (h : RateRow.ofRow source r = .ok row) :
    row.id = r.id ∧ row.source = source ∧ r.rates.read = some row.rates := by
  rw [RateRow.ofRow] at h
  rcases hread : r.rates.read with _ | rates
  · rw [hread] at h
    cases h
  · rw [hread] at h
    obtain rfl := Except.ok.inj h
    exact ⟨rfl, rfl, rfl⟩

theorem read_of_ofRow_eq_error {source : String} {e : RateQueryError}
    (h : RateRow.ofRow source r = .error e) : r.rates.read = none := by
  rw [RateRow.ofRow] at h
  rcases hread : r.rates.read with _ | rates
  · rfl
  · rw [hread] at h
    cases h

instance : Std.Total newestFirst := ⟨fun a b => le_total b.validFrom a.validFrom⟩

instance : IsTrans CurrencyRateRow newestFirst := ⟨fun _ _ _ hab hbc => le_trans hbc hab⟩

theorem pair_of_coversMoment (h : coversMoment pair atTime r = true) : r.pair = pair := by
  simp only [coversMoment, Bool.and_eq_true, decide_eq_true_eq] at h
  exact h.1.1.1.1

/-- The rows of the fresh query, in the order the database chooses. -/
theorem mem_freshRows :
    r ∈ cenv.rateDb.scan ((cenv.rates.rows.filter (coversMoment pair atTime)).filter
      (graceReaches cenv.pollTolerance atTime)) ↔ IsFresh cenv pair atTime r := by
  rw [(cenv.rateDb.scan_perm _).mem_iff, List.mem_filter, List.mem_filter, and_assoc]
  rfl

/-- **The fresh query** finds a newest fresh row, if there is one, and nothing otherwise. -/
theorem findFreshRate_eq_ok {row? : Option RateRow}
    (h : findFreshRate cenv.rateDb cenv.rates pair atTime cenv.pollTolerance = .ok row?) :
    (row? = none ∧ ∀ r, ¬ IsFresh cenv pair atTime r) ∨
      ∃ r row, row? = some row ∧ RateRow.ofRow pair.source r = .ok row ∧
        IsFresh cenv pair atTime r ∧ ∀ r', IsFresh cenv pair atTime r' →
          r'.validFrom ≤ r.validFrom := by
  rcases findFreshRate_head h with ⟨rfl, hhead⟩ | ⟨r, row, rfl, hrow, hhead⟩
  · refine Or.inl ⟨rfl, fun r hr => ?_⟩
    have hmem := mem_freshRows.mpr hr
    rw [head?_insertionSort_eq_none hhead] at hmem
    cases hmem
  · obtain ⟨hmem, hleast⟩ := head?_insertionSort hhead
    exact Or.inr ⟨r, row, rfl, hrow, mem_freshRows.mp hmem,
      fun r' hr' => hleast r' (mem_freshRows.mpr hr')⟩

theorem unreadable_of_findFreshRate {e : RateQueryError}
    (hsource : pair.source ∈ chain.map RateSourceConfig.source)
    (h : findFreshRate cenv.rateDb cenv.rates pair atTime cenv.pollTolerance = .error e) :
    Unreadable cenv chain := by
  simp only [findFreshRate] at h
  split at h
  · next hK => exact Or.inl hK
  split at h
  · next hall =>
    obtain ⟨r, hr, hfit⟩ := List.all_eq_false.mp hall
    obtain ⟨hr, hc⟩ := List.mem_filter.mp hr
    exact Or.inr ⟨r, hr, pair_of_coversMoment hc ▸ hsource, Or.inr (Bool.not_eq_true _ ▸ hfit)⟩
  split at h
  · cases h
  · next r hhead =>
    obtain ⟨hr, hc, -⟩ := mem_freshRows.mp (head?_insertionSort hhead).1
    refine Or.inr ⟨r, hr, pair_of_coversMoment hc ▸ hsource, Or.inl ?_⟩
    rcases hrow : RateRow.ofRow pair.source r with e' | row
    · exact read_of_ofRow_eq_error hrow
    · rw [hrow] at h
      cases h

/-! ### The closest query

The same for the query of the second tier, which orders the rows by their distance. -/

/-- The rows of the closest query, before they are ordered. -/
theorem mem_nearRows :
    r ∈ (cenv.rates.rows.filter fun r =>
      decide (r.pair.currencyFrom = legFrom ∧ r.pair.currencyTo = legTo ∧
        r.pair.source ∈ chain.map RateSourceConfig.source) &&
        decide (proximity atTime r ≤ maxClosestRateAge)) ↔
      IsNear cenv chain legFrom legTo atTime r := by
  rw [List.mem_filter, Bool.and_eq_true, decide_eq_true_eq, decide_eq_true_eq, and_assoc, and_assoc]
  rfl

/-- **The closest query** finds a nearest row, if there is one within seven days. -/
theorem findClosestRate_eq_ok {row? : Option RateRow}
    (h : findClosestRate cenv.rates legFrom legTo atTime (chain.map RateSourceConfig.source) =
      .ok row?) :
    (row? = none ∧ ∀ r, ¬ IsNear cenv chain legFrom legTo atTime r) ∨
      ∃ r row, RateRow.ofRow r.pair.source r = .ok row ∧
        row? = some { row with
          proximitySeconds := some (roundHalfAway (proximity atTime r / 10 ^ 6)) } ∧
        IsNear cenv chain legFrom legTo atTime r ∧
        ∀ r', IsNear cenv chain legFrom legTo atTime r' →
          closestKey (chain.map RateSourceConfig.source) atTime r ≤
            closestKey (chain.map RateSourceConfig.source) atTime r' := by
  simp only [findClosestRate] at h
  split at h
  · next hhead =>
    obtain rfl := Except.ok.inj h
    refine Or.inl ⟨rfl, fun r hr => ?_⟩
    have hmem := mem_nearRows.mpr hr
    rw [head?_insertionSort_eq_none hhead] at hmem
    cases hmem
  · next r hhead =>
    obtain ⟨row, hrow, rfl⟩ := exceptMap_eq_ok.mp h
    obtain ⟨hmem, hleast⟩ := head?_insertionSort hhead
    exact Or.inr ⟨r, row, hrow, rfl, mem_nearRows.mp hmem,
      fun r' hr' => hleast r' (mem_nearRows.mpr hr')⟩

theorem unreadable_of_findClosestRate {e : RateQueryError}
    (h : findClosestRate cenv.rates legFrom legTo atTime (chain.map RateSourceConfig.source) =
      .error e) :
    Unreadable cenv chain := by
  simp only [findClosestRate] at h
  split at h
  · cases h
  · next r hhead =>
    obtain ⟨hr, -, -, hsource, -⟩ := mem_nearRows.mp (head?_insertionSort hhead).1
    refine Or.inr ⟨r, hr, hsource, Or.inl ?_⟩
    rcases hrow : RateRow.ofRow r.pair.source r with e' | row
    · exact read_of_ofRow_eq_error hrow
    · rw [hrow] at h
      cases h

/-! ## A leg

The two queries are tried along the chain, direct before reverse. A leg that is found is the best of
its tier. -/

theorem exceptMap_eq_error {ε α β : Type} {f : α → β} {x : Except ε α} {e : ε} :
    x.map f = .error e ↔ x = .error e := by
  rcases x with e' | a
  · exact ⟨fun h => congrArg _ (Except.error.inj h), fun h => congrArg _ (Except.error.inj h)⟩
  · exact iff_of_false (fun h => by cases h) fun h => by cases h

theorem exceptBind_eq_error {ε α β : Type} {x : Except ε α} {f : α → Except ε β} {e : ε}
    (h : (x >>= f) = .error e) : x = .error e ∨ ∃ a, x = .ok a ∧ f a = .error e := by
  rcases x with e' | a
  · exact Or.inl (congrArg _ (Except.error.inj h))
  · exact Or.inr ⟨a, rfl, h⟩

theorem queryError_eq_error {α : Type} {result : Except RateQueryError α} {e : ConversionError}
    (h : queryError result = .error e) : e = .rateQuery ∧ ∃ e', result = .error e' := by
  rcases result with e' | a
  · exact ⟨(Except.error.inj h).symm, e', rfl⟩
  · cases h

section Leg

variable {config : RateSourceConfig} {e : ConversionError}

/-- The probe of one source and direction is the fresh query of its pair, and the step made of its
row. -/
theorem tryFresh_eq :
    tryFresh cenv legFrom legTo atTime config reverse =
      (queryError (findFreshRate cenv.rateDb cenv.rates
        (legPair config.source legFrom legTo reverse) atTime cenv.pollTolerance)).map
        (Option.map fun row => rateStep legFrom legTo row .fresh 0 reverse) := rfl

theorem tryFresh_eq_none (h : tryFresh cenv legFrom legTo atTime config reverse = .ok none) (r) :
    ¬ IsFresh cenv (legPair config.source legFrom legTo reverse) atTime r := by
  rw [tryFresh_eq] at h
  obtain ⟨row?, hrow, h⟩ := exceptMap_eq_ok.mp h
  obtain rfl := Option.map_eq_none_iff.mp h
  obtain ⟨-, hnone⟩ | ⟨_, _, h, -⟩ := findFreshRate_eq_ok (queryError_eq_ok.mp hrow)
  · exact hnone r
  · cases h

theorem tryFresh_eq_some (h : tryFresh cenv legFrom legTo atTime config reverse = .ok (some step)) :
    ∃ r, IsFresh cenv (legPair config.source legFrom legTo reverse) atTime r ∧
      (∀ r', IsFresh cenv (legPair config.source legFrom legTo reverse) atTime r' →
        r'.validFrom ≤ r.validFrom) ∧
      StepUses legFrom legTo .fresh reverse r step ∧ step.proximitySeconds = 0 := by
  rw [tryFresh_eq] at h
  obtain ⟨row?, hrow, h⟩ := exceptMap_eq_ok.mp h
  obtain ⟨row, rfl, rfl⟩ := Option.map_eq_some_iff.mp h
  obtain ⟨h, -⟩ | ⟨r, row', hrow', hof, hfresh, hnewest⟩ :=
    findFreshRate_eq_ok (queryError_eq_ok.mp hrow)
  · cases h
  obtain rfl := Option.some.inj hrow'
  obtain ⟨hid, hsource, hread⟩ := ofRow_eq_ok hof
  have hpair := (pair_of_coversMoment hfresh.2.1).symm
  exact ⟨r, hfresh, hnewest, stepUses_rateStep hid (hsource.trans (congrArg _ hpair)) hread, rfl⟩

theorem tryFresh_eq_error (hmem : config ∈ chain)
    (h : tryFresh cenv legFrom legTo atTime config reverse = .error e) :
    e = .rateQuery ∧ Unreadable cenv chain := by
  rw [tryFresh_eq, exceptMap_eq_error] at h
  obtain ⟨he, e', hfind⟩ := queryError_eq_error h
  exact ⟨he, unreadable_of_findFreshRate (source_mem_of_legPair hmem ..) hfind⟩

/-- The walk along the chain is a search, each source tried directly and in reverse. -/
theorem resolveFresh_eq :
    resolveFresh cenv legFrom legTo atTime chain = chain.findSomeM? fun config =>
      orElse (tryFresh cenv legFrom legTo atTime config false)
        (tryFresh cenv legFrom legTo atTime config true) := by
  induction chain with
  | nil => rfl
  | cons config chain ih =>
    rw [List.findSomeM?_cons, ← ih, resolveFresh]
    rcases tryFresh cenv legFrom legTo atTime config false with e | _ | step
    · rfl
    · rcases tryFresh cenv legFrom legTo atTime config true with e | _ | step
      · rfl
      · rfl
      · rfl
    · rfl

theorem resolveFresh_eq_none (h : resolveFresh cenv legFrom legTo atTime chain = .ok none)
    (step : RateStep) : ¬ LegAt cenv chain atTime legFrom legTo .fresh step := by
  rw [resolveFresh_eq, findSomeM?_eq_none] at h
  intro hleg
  cases hleg with
  | @fresh before after config reverse r _ split _ _ row =>
    have hmem : config ∈ chain := by
      rw [split]
      exact List.mem_append_right _ List.mem_cons_self
    obtain ⟨hdirect, hreverse⟩ := orElse_eq_none.mp (h config hmem)
    cases reverse with
    | false => exact tryFresh_eq_none hdirect r row
    | true => exact tryFresh_eq_none hreverse r row

theorem resolveFresh_eq_some (h : resolveFresh cenv legFrom legTo atTime chain = .ok (some step)) :
    LegAt cenv chain atTime legFrom legTo .fresh step := by
  rw [resolveFresh_eq, findSomeM?_eq_some] at h
  obtain ⟨before, config, after, split, hmiss, hhit⟩ := h
  have hearlier : ∀ c ∈ before, ∀ d r',
      ¬ IsFresh cenv (legPair c.source legFrom legTo d) atTime r' := by
    intro c hc d r'
    obtain ⟨hdirect, hreverse⟩ := orElse_eq_none.mp (hmiss c hc)
    rcases d with _ | _
    · exact tryFresh_eq_none hdirect r'
    · exact tryFresh_eq_none hreverse r'
  rcases orElse_eq_some.mp hhit with hdirect | ⟨hdirect, hreverse⟩
  · obtain ⟨r, hrow, hnewest, huses, hprox⟩ := tryFresh_eq_some hdirect
    exact .fresh split hearlier (fun h => by cases h) hrow hnewest huses hprox
  · obtain ⟨r, hrow, hnewest, huses, hprox⟩ := tryFresh_eq_some hreverse
    exact .fresh split hearlier (fun _ => tryFresh_eq_none hdirect) hrow hnewest huses hprox

theorem resolveFresh_eq_error (h : resolveFresh cenv legFrom legTo atTime chain = .error e) :
    e = .rateQuery ∧ Unreadable cenv chain := by
  rw [resolveFresh_eq] at h
  obtain ⟨config, hmem, h⟩ := exists_of_findSomeM?_eq_error h
  rcases orElse_eq_error.mp h with h | ⟨-, h⟩
  · exact tryFresh_eq_error hmem h
  · exact tryFresh_eq_error hmem h

/-- One direction is the closest query of its pair, over all sources of the chain. -/
theorem tryClosest_eq :
    tryClosest cenv legFrom legTo atTime chain reverse =
      (queryError (findClosestRate cenv.rates (if reverse then legTo else legFrom)
        (if reverse then legFrom else legTo) atTime (chain.map RateSourceConfig.source))).map
        (Option.map fun row =>
          rateStep legFrom legTo row .closest (row.proximitySeconds.getD 0) reverse) := by
  cases reverse <;> rfl

theorem tryClosest_eq_none (h : tryClosest cenv legFrom legTo atTime chain reverse = .ok none)
    (r) : ¬ IsNear cenv chain (if reverse then legTo else legFrom)
      (if reverse then legFrom else legTo) atTime r := by
  rw [tryClosest_eq] at h
  obtain ⟨row?, hrow, h⟩ := exceptMap_eq_ok.mp h
  obtain rfl := Option.map_eq_none_iff.mp h
  obtain ⟨-, hnone⟩ | ⟨_, _, -, h, -⟩ := findClosestRate_eq_ok (queryError_eq_ok.mp hrow)
  · exact hnone r
  · cases h

theorem tryClosest_eq_some
    (h : tryClosest cenv legFrom legTo atTime chain reverse = .ok (some step))
    (direct : reverse = true → ∀ r', ¬ IsNear cenv chain legFrom legTo atTime r') :
    LegAt cenv chain atTime legFrom legTo .closest step := by
  rw [tryClosest_eq] at h
  obtain ⟨row?, hrow, h⟩ := exceptMap_eq_ok.mp h
  obtain ⟨row, rfl, rfl⟩ := Option.map_eq_some_iff.mp h
  obtain ⟨h, -⟩ | ⟨r, row', hof, hrow', hnear, hnearest⟩ :=
    findClosestRate_eq_ok (queryError_eq_ok.mp hrow)
  · cases h
  obtain rfl := Option.some.inj hrow'
  obtain ⟨hid, hsource, hread⟩ := ofRow_eq_ok hof
  exact .closest direct hnear hnearest (stepUses_rateStep hid hsource hread) rfl

theorem tryClosest_eq_error
    (h : tryClosest cenv legFrom legTo atTime chain reverse = .error e) :
    e = .rateQuery ∧ Unreadable cenv chain := by
  rw [tryClosest_eq, exceptMap_eq_error] at h
  obtain ⟨he, e', hfind⟩ := queryError_eq_error h
  exact ⟨he, unreadable_of_findClosestRate hfind⟩

theorem resolveClosest_eq :
    resolveClosestAcrossChain cenv legFrom legTo atTime chain =
      orElse (tryClosest cenv legFrom legTo atTime chain false)
        (tryClosest cenv legFrom legTo atTime chain true) := by
  rw [resolveClosestAcrossChain]
  rcases tryClosest cenv legFrom legTo atTime chain false with e | _ | step
  · rfl
  · rfl
  · rfl

theorem resolveClosest_eq_none
    (h : resolveClosestAcrossChain cenv legFrom legTo atTime chain = .ok none) (step : RateStep) :
    ¬ LegAt cenv chain atTime legFrom legTo .closest step := by
  rw [resolveClosest_eq] at h
  obtain ⟨hdirect, hreverse⟩ := orElse_eq_none.mp h
  intro hleg
  cases hleg with
  | @closest reverse r _ _ row =>
    cases reverse with
    | false => exact tryClosest_eq_none hdirect r row
    | true => exact tryClosest_eq_none hreverse r row

theorem resolveClosest_eq_some
    (h : resolveClosestAcrossChain cenv legFrom legTo atTime chain = .ok (some step)) :
    LegAt cenv chain atTime legFrom legTo .closest step := by
  rw [resolveClosest_eq] at h
  rcases orElse_eq_some.mp h with hdirect | ⟨hdirect, hreverse⟩
  · exact tryClosest_eq_some hdirect fun h => by cases h
  · exact tryClosest_eq_some hreverse fun _ => tryClosest_eq_none hdirect

theorem resolveClosest_eq_error
    (h : resolveClosestAcrossChain cenv legFrom legTo atTime chain = .error e) :
    e = .rateQuery ∧ Unreadable cenv chain := by
  rw [resolveClosest_eq] at h
  rcases orElse_eq_error.mp h with h | ⟨-, h⟩
  · exact tryClosest_eq_error h
  · exact tryClosest_eq_error h

/-- **A leg that is resolved** is a leg of its tier, with the best row there is. -/
theorem resolveLeg_eq_some
    (h : resolveLeg cenv legFrom legTo atTime chain tier = .ok (some step)) :
    LegAt cenv chain atTime legFrom legTo tier step := by
  cases tier with
  | fresh => exact resolveFresh_eq_some h
  | closest => exact resolveClosest_eq_some h

/-- A leg is not resolved only if its tier has none. -/
theorem resolveLeg_eq_none (h : resolveLeg cenv legFrom legTo atTime chain tier = .ok none)
    (step : RateStep) : ¬ LegAt cenv chain atTime legFrom legTo tier step := by
  cases tier with
  | fresh => exact resolveFresh_eq_none h step
  | closest => exact resolveClosest_eq_none h step

theorem resolveLeg_eq_error (h : resolveLeg cenv legFrom legTo atTime chain tier = .error e) :
    e = .rateQuery ∧ Unreadable cenv chain := by
  cases tier with
  | fresh => exact resolveFresh_eq_error h
  | closest => exact resolveClosest_eq_error h

end Leg

/-! ## Paths

A path has a place in the order in which the search goes: the tier first, then the number of hops,
then the pivot. -/

/-- A fresh path comes before one of closest rates. -/
def RateTier.rank : RateTier → ℕ
  | .fresh => 0
  | .closest => 1

/-- A path of legs of one tier: one hop, or two over a listed pivot. The place is the number of
hops, then the position of the pivot. -/
inductive TierPath (leg : String → String → RateStep → Prop) (pivots : List String)
    (src tgt : String) : ℕ ×ₗ ℕ → RatePath → Prop where
  | direct {step : RateStep} (direct : leg src tgt step) :
      TierPath leg pivots src tgt (toLex (1, 0)) (.direct step)
  | pivoted {pivot : String} {left right : RateStep} (mem : pivot ∈ pivots) (ne_src : pivot ≠ src)
      (ne_tgt : pivot ≠ tgt) (left_leg : leg src pivot left) (right_leg : leg pivot tgt right) :
      TierPath leg pivots src tgt (toLex (2, pivots.idxOf pivot)) (.pivoted left right)

/-- A path, and its place: the tier, the number of hops, the position of the pivot. -/
inductive IsPath (cenv : ConversionEnv) (chain : List RateSourceConfig) (pivots : List String)
    (src tgt : String) (atTime : Timestamp) : ℕ ×ₗ ℕ ×ₗ ℕ → RatePath → Prop where
  | of {tier : RateTier} {place : ℕ ×ₗ ℕ} {path : RatePath}
      (path_of_tier : TierPath (fun legFrom legTo => LegAt cenv chain atTime legFrom legTo tier)
        pivots src tgt place path) :
      IsPath cenv chain pivots src tgt atTime (toLex (tier.rank, place)) path

/-! ### One tier

Within a tier the direct leg is tried first, then one pivot after another. -/

section Tier

variable {leg : String → String → Except ConversionError (Option RateStep)}
  {IsLeg : String → String → RateStep → Prop} {path : RatePath} {e : ConversionError}

/-- The probe of one pivot, which must not be an end of the path. -/
def tryPivot (leg : String → String → Except ConversionError (Option RateStep))
    (src tgt pivot : String) : Except ConversionError (Option RatePath) :=
  if pivot = src ∨ pivot = tgt then .ok none
  else do
    match ← leg src pivot with
    | none => return none
    | some left =>
      match ← leg pivot tgt with
      | none => return none
      | some right => return some (.pivoted left right)

/-- The loop over the pivots is a search for the first that succeeds. -/
theorem resolvePivots_eq : resolvePivots leg src tgt pivots =
    pivots.findSomeM? (tryPivot leg src tgt) := by
  induction pivots with
  | nil => rfl
  | cons pivot pivots ih =>
    rw [List.findSomeM?_cons, ← ih, resolvePivots, tryPivot]
    split
    · rfl
    · rcases leg src pivot with e | _ | left
      · rfl
      · rfl
      · rcases leg pivot tgt with e | _ | right
        · rfl
        · rfl
        · rfl

theorem resolveTier_eq : resolveTier leg src tgt pivots =
    orElse ((leg src tgt).map (Option.map .direct)) (pivots.findSomeM? (tryPivot leg src tgt)) := by
  rw [resolveTier, ← resolvePivots_eq]
  rcases leg src tgt with e | _ | step
  · rfl
  · rfl
  · rfl

/-- A probe of a pivot finds the two legs over it. -/
theorem tryPivot_eq_some {pivot : String} (h : tryPivot leg src tgt pivot = .ok (some path)) :
    ¬ (pivot = src ∨ pivot = tgt) ∧ ∃ left right, leg src pivot = .ok (some left) ∧
      leg pivot tgt = .ok (some right) ∧ path = .pivoted left right := by
  rw [tryPivot] at h
  split at h
  · cases h
  next hne =>
  obtain ⟨left, hleft, h⟩ := exceptBind_eq_ok.mp h
  rcases left with _ | left
  · cases h
  obtain ⟨right, hright, h⟩ := exceptBind_eq_ok.mp h
  rcases right with _ | right
  · cases h
  obtain rfl := Option.some.inj (Except.ok.inj h)
  exact ⟨hne, left, right, hleft, hright, rfl⟩

/-- A probe of a pivot misses if the pivot is an end, or a leg is missing. -/
theorem tryPivot_eq_none {pivot : String} (h : tryPivot leg src tgt pivot = .ok none) :
    (pivot = src ∨ pivot = tgt) ∨ leg src pivot = .ok none ∨ leg pivot tgt = .ok none := by
  rw [tryPivot] at h
  split at h
  · next heq => exact Or.inl heq
  obtain ⟨left, hleft, h⟩ := exceptBind_eq_ok.mp h
  rcases left with _ | left
  · exact Or.inr (Or.inl hleft)
  obtain ⟨right, hright, h⟩ := exceptBind_eq_ok.mp h
  rcases right with _ | right
  · exact Or.inr (Or.inr hright)
  · cases h

theorem tryPivot_eq_error {pivot : String} (h : tryPivot leg src tgt pivot = .error e) :
    ∃ legFrom legTo, leg legFrom legTo = .error e := by
  rw [tryPivot] at h
  split at h
  · cases h
  rcases exceptBind_eq_error h with hleft | ⟨left, -, h⟩
  · exact ⟨src, pivot, hleft⟩
  rcases left with _ | left
  · cases h
  rcases exceptBind_eq_error h with hright | ⟨right, -, h⟩
  · exact ⟨pivot, tgt, hright⟩
  rcases right with _ | right
  · cases h
  · cases h

theorem resolveTier_eq_error (h : resolveTier leg src tgt pivots = .error e) :
    ∃ legFrom legTo, leg legFrom legTo = .error e := by
  rw [resolveTier_eq] at h
  rcases orElse_eq_error.mp h with h | ⟨-, h⟩
  · exact ⟨src, tgt, exceptMap_eq_error.mp h⟩
  · obtain ⟨pivot, -, h⟩ := exists_of_findSomeM?_eq_error h
    exact tryPivot_eq_error h

section Legs

variable (hsome : ∀ {legFrom legTo step}, leg legFrom legTo = .ok (some step) →
    IsLeg legFrom legTo step)
  (hnone : ∀ {legFrom legTo}, leg legFrom legTo = .ok none → ∀ step, ¬ IsLeg legFrom legTo step)

include hnone

/-- A probe that misses leaves no path over the pivot. -/
theorem no_legs_of_tryPivot {pivot : String} {left right : RateStep}
    (h : tryPivot leg src tgt pivot = .ok none) (ne_src : pivot ≠ src) (ne_tgt : pivot ≠ tgt)
    (hleft : IsLeg src pivot left) (hright : IsLeg pivot tgt right) : False := by
  rcases tryPivot_eq_none h with (heq | heq) | hmiss | hmiss
  · exact ne_src heq
  · exact ne_tgt heq
  · exact hnone hmiss left hleft
  · exact hnone hmiss right hright

/-- A tier finds no path only if it has none. -/
theorem no_path_of_resolveTier (h : resolveTier leg src tgt pivots = .ok none) {place : ℕ ×ₗ ℕ}
    (hpath : TierPath IsLeg pivots src tgt place path) : False := by
  rw [resolveTier_eq, orElse_eq_none, findSomeM?_eq_none] at h
  obtain ⟨hdirect, hpivots⟩ := h
  cases hpath with
  | direct direct =>
    obtain ⟨step?, hleg, hstep⟩ := exceptMap_eq_ok.mp hdirect
    rw [Option.map_eq_none_iff.mp hstep] at hleg
    exact hnone hleg _ direct
  | pivoted mem ne_src ne_tgt left right =>
    exact no_legs_of_tryPivot hnone (hpivots _ mem) ne_src ne_tgt left right

include hsome

/-- **The path a tier finds** is the first of its paths, in hops and in the order of the pivots. -/
theorem resolveTier_optimal (h : resolveTier leg src tgt pivots = .ok (some path)) :
    ∃ place, TierPath IsLeg pivots src tgt place path ∧
      ∀ place' path', TierPath IsLeg pivots src tgt place' path' → place ≤ place' := by
  rw [resolveTier_eq] at h
  rcases orElse_eq_some.mp h with hdirect | ⟨hdirect, hpivots⟩
  · obtain ⟨step?, hleg, hstep⟩ := exceptMap_eq_ok.mp hdirect
    obtain ⟨step, rfl, rfl⟩ := Option.map_eq_some_iff.mp hstep
    refine ⟨_, .direct (hsome hleg), fun place' path' hpath => ?_⟩
    cases hpath with
    | direct => exact le_rfl
    | pivoted => exact Prod.Lex.toLex_le_toLex.mpr (Or.inl Nat.one_lt_two)
  · obtain ⟨before, pivot, after, hsplit, hmiss, hhit⟩ := findSomeM?_eq_some.mp hpivots
    obtain ⟨hne, left, right, hleft, hright, rfl⟩ := tryPivot_eq_some hhit
    obtain ⟨hsrc, htgt⟩ := not_or.mp hne
    have hmem : pivot ∈ pivots := by
      rw [hsplit]
      exact List.mem_append_right _ List.mem_cons_self
    refine ⟨_, .pivoted hmem hsrc htgt (hsome hleft) (hsome hright), fun place' path' hpath => ?_⟩
    cases hpath with
    | direct direct =>
      -- the direct leg has been tried
      obtain ⟨step?, hleg, hstep⟩ := exceptMap_eq_ok.mp hdirect
      rw [Option.map_eq_none_iff.mp hstep] at hleg
      exact absurd direct (hnone hleg _)
    | pivoted mem ne_src ne_tgt left' right' =>
      refine Prod.Lex.toLex_le_toLex.mpr (Or.inr ⟨rfl, ?_⟩)
      refine idxOf_le_of_hit hsplit hmiss (fun h => ?_) fun h => ?_
      · rw [hhit] at h
        cases h
      · exact no_legs_of_tryPivot hnone h ne_src ne_tgt left' right'

end Legs

end Tier

/-! ### Both tiers

The second tier is searched only if the first has no path at all. -/

theorem resolvePath_eq (htime : InRange atTime) :
    resolvePath cenv src tgt atTime chain pivots =
      orElse
        (resolveTier (fun legFrom legTo => resolveLeg cenv legFrom legTo atTime chain .fresh)
          src tgt pivots)
        (resolveTier (fun legFrom legTo => resolveLeg cenv legFrom legTo atTime chain .closest)
          src tgt pivots) := by
  rw [resolvePath, if_neg (not_not.mpr htime)]
  rcases h : resolveTier (fun legFrom legTo => resolveLeg cenv legFrom legTo atTime chain .fresh)
    src tgt pivots with e | _ | path
  · simp only [h]
    rfl
  · simp only [h]
    rfl
  · simp only [h]
    rfl

/-- A search that finds nothing leaves no path of either tier. -/
theorem no_path_of_resolvePath (htime : InRange atTime)
    (h : resolvePath cenv src tgt atTime chain pivots = .ok none) {place : ℕ ×ₗ ℕ ×ₗ ℕ}
    {path : RatePath} (hpath : IsPath cenv chain pivots src tgt atTime place path) : False := by
  rw [resolvePath_eq htime] at h
  obtain ⟨hfresh, hclosest⟩ := orElse_eq_none.mp h
  cases hpath with
  | @of tier place path hpath =>
    cases tier with
    | fresh => exact no_path_of_resolveTier resolveLeg_eq_none hfresh hpath
    | closest => exact no_path_of_resolveTier resolveLeg_eq_none hclosest hpath

/-- **What the search finds** is the first of the paths of both tiers. -/
theorem resolvePath_first (htime : InRange atTime) {path : RatePath}
    (h : resolvePath cenv src tgt atTime chain pivots = .ok (some path)) :
    ∃ place, IsPath cenv chain pivots src tgt atTime place path ∧
      ∀ place' path', IsPath cenv chain pivots src tgt atTime place' path' → place ≤ place' := by
  have hleg : ∀ {legFrom legTo step tier},
      resolveLeg cenv legFrom legTo atTime chain tier = .ok (some step) →
        LegAt cenv chain atTime legFrom legTo tier step := resolveLeg_eq_some
  rw [resolvePath_eq htime] at h
  rcases orElse_eq_some.mp h with hfresh | ⟨hfresh, hclosest⟩
  · obtain ⟨place, hpath, hfirst⟩ := resolveTier_optimal hleg resolveLeg_eq_none hfresh
    refine ⟨_, .of hpath, fun place' path' hpath' => ?_⟩
    cases hpath' with
    | @of tier place' path' hpath' =>
      cases tier with
      | fresh => exact Prod.Lex.toLex_le_toLex.mpr (Or.inr ⟨rfl, hfirst _ _ hpath'⟩)
      | closest => exact Prod.Lex.toLex_le_toLex.mpr (Or.inl Nat.zero_lt_one)
  · obtain ⟨place, hpath, hfirst⟩ := resolveTier_optimal hleg resolveLeg_eq_none hclosest
    refine ⟨_, .of hpath, fun place' path' hpath' => ?_⟩
    cases hpath' with
    | @of tier place' path' hpath' =>
      cases tier with
      | fresh => exact (no_path_of_resolveTier resolveLeg_eq_none hfresh hpath').elim
      | closest => exact Prod.Lex.toLex_le_toLex.mpr (Or.inr ⟨rfl, hfirst _ _ hpath'⟩)

theorem resolvePath_of_not_inRange (htime : ¬ InRange atTime) :
    resolvePath cenv src tgt atTime chain pivots = .error .rateQuery := by
  rw [resolvePath, if_pos htime]
  rfl

theorem inRange_of_resolvePath {result : Option RatePath}
    (h : resolvePath cenv src tgt atTime chain pivots = .ok result) : InRange atTime := by
  by_contra htime
  rw [resolvePath_of_not_inRange htime] at h
  cases h

/-- The search raises over a moment it cannot encode, or where a query does. -/
theorem resolvePath_eq_error {e : ConversionError}
    (h : resolvePath cenv src tgt atTime chain pivots = .error e) :
    e = .rateQuery ∧ (¬ InRange atTime ∨ Unreadable cenv chain) := by
  by_cases htime : InRange atTime
  swap
  · rw [resolvePath_of_not_inRange htime] at h
    exact ⟨(Except.error.inj h).symm, Or.inl htime⟩
  have hleg : ∀ tier, resolveTier (fun legFrom legTo =>
      resolveLeg cenv legFrom legTo atTime chain tier) src tgt pivots = .error e →
      e = .rateQuery ∧ Unreadable cenv chain := by
    intro tier h
    obtain ⟨legFrom, legTo, h⟩ := resolveTier_eq_error h
    exact resolveLeg_eq_error h
  rw [resolvePath_eq htime] at h
  rcases orElse_eq_error.mp h with h | ⟨-, h⟩
  · exact (hleg _ h).imp_right Or.inr
  · exact (hleg _ h).imp_right Or.inr

/-- **The path is the best one.** What `_resolve_path` returns is a path, and first of all paths
in tier, number of hops and order of the pivots; it returns `None` exactly if there is no path.
It raises only over a moment outside the years 1 to 9999, or what a query cannot read. -/
theorem resolvePath_optimal (cenv : ConversionEnv) (chain : List RateSourceConfig)
    (pivots : List String) (src tgt : String) (atTime : Timestamp) :
    (∀ result, resolvePath cenv src tgt atTime chain pivots = .ok result →
      (∀ path, result = some path → ∃ place, IsPath cenv chain pivots src tgt atTime place path ∧
        ∀ place' path', IsPath cenv chain pivots src tgt atTime place' path' → place ≤ place') ∧
      (result = none ↔ ∀ place path, ¬ IsPath cenv chain pivots src tgt atTime place path)) ∧
    ∀ e, resolvePath cenv src tgt atTime chain pivots = .error e →
      e = .rateQuery ∧ (¬ InRange atTime ∨ Unreadable cenv chain) := by
  refine ⟨fun result h => ?_, fun e => resolvePath_eq_error⟩
  have htime := inRange_of_resolvePath h
  rcases result with _ | path
  · refine ⟨(fun path h => by cases h), iff_of_true rfl fun place path hpath => ?_⟩
    exact no_path_of_resolvePath htime h hpath
  · obtain ⟨place, hpath, hfirst⟩ := resolvePath_first htime h
    refine ⟨fun path' h' => ?_, iff_of_false (fun h => by cases h) fun h => h place path hpath⟩
    obtain rfl := Option.some.inj h'
    exact ⟨place, hpath, hfirst⟩

/-! ### A rate that is no number

PostgreSQL stores such a rate, and the search raises at it. -/

/-- A source without a fallback, with the hryvnia as its only pivot. -/
def samplePublisher : RateSourceConfig where
  source := "nbu"
  source_noNul := noNul_nbu
  fallbackSource := none
  baseCurrencies := ["UAH"]
  baseCurrencies_noNul := noNul_uah

/-- A published rate that is not a number: the column is a `NUMERIC`, which has a `NaN`. -/
def sampleNaN : CurrencyRateRow where
  id := 1
  pair := ⟨"nbu", "USD", "UAH"⟩
  rates := ⟨none, none, .nan⟩
  validFrom := 0
  validTo := none
  lastPolledAt := none
  updateCadenceSeconds := none

/-- The rate tables with that rate, as the service reads them. -/
def sampleNaNRates : ConversionEnv where
  rateDb := sampleRateDb
  rates := ⟨[sampleNaN], by decide⟩
  configs := ⟨[samplePublisher], by decide⟩
  pollTolerance := 2

/-- The search for a path from the dollar to the hryvnia raises at that rate. -/
theorem resolvePath_raises :
    "USD" ≠ "UAH" ∧ ∀ result, resolvePath sampleNaNRates "USD" "UAH" 0 [samplePublisher]
      (orderedPivots [samplePublisher]) ≠ .ok result := by
  refine ⟨by decide, fun result h => ?_⟩
  have hraise : resolvePath sampleNaNRates "USD" "UAH" 0 [samplePublisher]
      (orderedPivots [samplePublisher]) = .error .rateQuery := rfl
  rw [hraise] at h
  cases h

end Grosh
