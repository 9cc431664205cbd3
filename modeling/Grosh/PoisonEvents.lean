import Grosh.AcceptedTransactions
import Grosh.Conversion
import Grosh.Reprocess

/-!
# Poison events

The enrichment consumer skips an event whose account does not exist. On any other exception it
stops without committing the offset, so the event is delivered again: the exception is taken to
be transient. Ingestion bounds neither the amount of a manual transaction nor its texts, but the
columns do, and an event that no column takes stops the consumer at every delivery.

* `enrichedRow_encodable_iff` — which rows can be written, part by part.
* `convert_fits_iff` — when the conversion succeeds with amounts that can be written.
* `not_stops_iff` — an accepted event does not stop the consumer exactly if its account does not
  exist, or its amounts, its texts and its converted amounts can be written.
* `blocked_of_not_fitsBigint` — an accepted event with an amount that no `BIGINT` takes blocks the
  topic, however often it is delivered and whatever happens to the rates in between.

A limit of the database on the size of an index entry is outside the model.
-/

namespace Grosh

open DecimalFloat

/-- The consumer stops: an exception other than `AccountNotFoundError`. It does not commit the
offset, so the same event is delivered to it again. -/
def Stops {α : Type} (x : Except PipelineError α) : Prop :=
  ∃ e, x = .error e ∧ ∀ accountId, e ≠ .accountNotFound accountId

/-- The orchestrator with the conversion service. -/
def PipelineEnv.converting (env : PipelineEnv) (cenv : ConversionEnv) : PipelineEnv :=
  { env with convert := Grosh.convert cenv }

/-! ## What can be written

A row is refused for one of its columns, and the columns come from different places: the event
itself, the conversion, and the metadata of the rates that were used. -/

/-- The amounts of an event. -/
def NormalizedTransaction.carriedAmounts (tx : NormalizedTransaction) : List ℤ :=
  tx.amountCents :: tx.cashbackAmountCents ::
    (tx.operationAmountCents.toList ++ tx.balanceCents.toList)

/-- The texts of an event. None of them is bounded by ingestion, and a NUL in any of them is refused
by PostgreSQL. -/
def NormalizedTransaction.texts (tx : NormalizedTransaction) : List String :=
  tx.sourceId :: tx.operationCurrencyCode ::
    (tx.description.toList ++ tx.mcc.toList ++ tx.counterpartyIban.toList ++
      tx.rateSource.toList)

/-- The amount of an event can be written in a display currency: the rate queries raise nothing,
and where they find a path, it divides by no zero and leads to a `BIGINT`. -/
def FitsIn (cenv : ConversionEnv) (chain : List RateSourceConfig) (tx : NormalizedTransaction)
    (accountCurrency : String) (target : Currency) : Prop :=
  ∃ path?, resolvePath cenv accountCurrency target.code tx.time chain (orderedPivots chain) =
      .ok path? ∧
    ∀ path, path? = some path →
      path.Divisible ∧ fitsBigint (path.convertedAmount tx.amountCents) = true

variable {nenv : NormalizerEnv} {cenv : ConversionEnv} {env : PipelineEnv} {db : Database}
  {tx : NormalizedTransaction} {account : AccountProps} {source : TransactionSource}
  {conversion : ConversionResult} {chain : List RateSourceConfig} {pivots : List String}

/-- **Which rows can be written**: the values of the event, the converted amounts and the
metadata of the rates each on their own. -/
theorem enrichedRow_encodable_iff (hn : tx.NoLayer) :
    (enrichedRow tx source account conversion .default).encodable = true ↔
      (∀ n ∈ tx.carriedAmounts, fitsBigint n = true) ∧
      (∀ target ∈ displayCurrencies, (conversion.amounts target).all fitsBigint = true) ∧
      (∀ s ∈ account.currencyCode :: tx.texts, s.noNul = true) ∧
      Json.noNulFields (tx.metadata.getD []) = true ∧
      Json.noNulFields conversion.rateMetadata = true := by
  have hmeta : (enrichedRow tx source account conversion .default).metadata.all Json.noNul =
      (Json.noNulFields (tx.metadata.getD []) && Json.noNulFields conversion.rateMetadata) := by
    rw [enrichedRow_metadata_noNul hn]
    simp [TransferResult.default]
  simp only [Transaction.encodable]
  rw [hmeta]
  simp only [enrichedRow, toRow, NormalizedTransaction.carriedAmounts,
    NormalizedTransaction.texts, displayCurrencies, List.all_cons, List.all_nil, Bool.and_true,
    Bool.and_eq_true, List.forall_mem_cons, List.forall_mem_append, Option.all_some,
    Option.all_eq_true, Option.mem_toList, List.not_mem_nil, false_imp_iff,
    implies_true, and_true]
  tauto

/-! ## The metadata of the rates -/

theorem uuidText_noNul (id : UUID) : (String.ofList (uuidText id)).noNul = true := by
  have hdigit : ∀ d < 16, (Nat.digitChar d).toNat ≠ 0 := by decide
  apply String.noNul_of_forall
  intro c hc
  rw [String.toList_ofList] at hc
  rcases mem_uuidText hc with rfl | ⟨d, hd, rfl⟩
  · decide
  · exact hdigit d hd

theorem toNat_ne_zero_of_isDigit {c : Char} (h : c.isDigit = true) : c.toNat ≠ 0 := by
  intro hzero
  rw [← Char.ofNat_toNat c, hzero] at h
  cases h

theorem text_noNul (d : Dec) : d.text.noNul = true := by
  apply String.noNul_of_forall
  intro c hc
  rcases mem_text hc with hdigit | hother
  · exact toNat_ne_zero_of_isDigit hdigit
  · simp only [List.mem_cons, List.not_mem_nil, or_false] at hother
    rcases hother with rfl | rfl | rfl | rfl <;> decide

/-- The texts of a step can be written. -/
structure RateStep.NoNul (step : RateStep) : Prop where
  currencyFrom : step.currencyFrom.noNul = true
  currencyTo : step.currencyTo.noNul = true
  source : step.source.noNul = true

theorem stepMetadata_noNul {step : RateStep} (h : step.NoNul) :
    (stepMetadata step).noNul = true := by
  have hside : step.rateSide.toText.noNul = true := by cases step.rateSide <;> decide
  have htier : step.tier.toText.noNul = true := by cases step.tier <;> decide
  have hop : (if step.divide then "divide" else "multiply").noNul = true := by
    split <;> decide
  simp only [stepMetadata, Json.noNul, Json.noNulFields, h.currencyFrom, h.currencyTo, h.source,
    uuidText_noNul, text_noNul, hside, htier, hop]
  decide

theorem pathMetadata_noNul {path : RatePath} {metadata : Dict}
    (h : ∀ step ∈ path.steps, step.NoNul) (hm : pathMetadata path = some metadata) :
    Json.noNulFields metadata = true := by
  obtain ⟨effectiveRate, -, hm⟩ := Option.bind_eq_some_iff.mp hm
  obtain rfl := Option.some.inj hm
  have hsteps : Json.noNulItems (path.steps.map stepMetadata) = true := by
    rw [Json.noNulItems_eq_true]
    intro j hj
    obtain ⟨step, hstep, rfl⟩ := List.mem_map.mp hj
    exact stepMetadata_noNul (h step hstep)
  have hquality : path.maxTier.toText.noNul = true := by cases path.maxTier <;> decide
  have hsides : ∀ sides : List String, Json.noNulItems
      ((["buy", "mid", "sell"].filter (· ∈ sides)).map .str) = true := by
    intro sides
    have hall : ∀ side ∈ ["buy", "mid", "sell"], side.noNul = true := by decide
    rw [Json.noNulItems_eq_true]
    intro j hj
    obtain ⟨side, hside, rfl⟩ := List.mem_map.mp hj
    exact hall side (List.mem_of_mem_filter hside)
  simp only [Json.noNulFields, Json.noNul, hsteps, text_noNul, hquality, hsides]
  decide

theorem noNul_of_mem_orderedPivots {currency : String} (h : currency ∈ orderedPivots chain) :
    currency.noNul = true := by
  obtain ⟨config, -, hmem⟩ := mem_orderedPivots h
  exact config.baseCurrencies_noNul currency hmem

theorem RateStep.IsLeg.noNul {step : RateStep} {legFrom legTo : String}
    (h : step.IsLeg chain legFrom legTo) (hfrom : legFrom.noNul = true)
    (hto : legTo.noNul = true) : step.NoNul := by
  obtain ⟨config, -, hsource⟩ := List.mem_map.mp h.source
  exact ⟨h.currencyFrom ▸ hfrom, h.currencyTo ▸ hto, hsource ▸ config.source_noNul⟩

theorem RatePath.Connects.noNul {path : RatePath} {src tgt : String}
    (h : path.Connects chain (orderedPivots chain) src tgt) (hsrc : src.noNul = true)
    (htgt : tgt.noNul = true) : ∀ step ∈ path.steps, step.NoNul := by
  cases h with
  | direct leg =>
    intro step hstep
    obtain rfl := List.mem_singleton.mp hstep
    exact leg.noNul hsrc htgt
  | pivoted mem _ _ left_leg right_leg =>
    have hpivot := noNul_of_mem_orderedPivots mem
    intro step hstep
    simp only [RatePath.steps, List.mem_cons, List.not_mem_nil, or_false] at hstep
    rcases hstep with rfl | rfl
    · exact left_leg.noNul hsrc hpivot
    · exact right_leg.noNul hpivot htgt

theorem Currency.code_noNul (target : Currency) : target.code.noNul = true := by
  cases target <;> decide

theorem Currency.lower_noNul (target : Currency) : target.lower.noNul = true := by
  cases target <;> decide

/-! ## When the conversion succeeds -/

theorem natAbs_lt_of_fitsBigint {n : ℤ} (h : fitsBigint n = true) :
    n.natAbs < 10 ^ precision := by
  simp only [fitsBigint, decide_eq_true_eq] at h
  have hpow : (2 : ℕ) ^ 63 < 10 ^ precision := by decide
  omega

variable {accountCurrency : String} {target : Currency}

theorem convertTo_fits_iff (hamount : fitsBigint tx.amountCents = true) :
    (∃ r, convertTo cenv chain (orderedPivots chain) tx.amountCents accountCurrency tx.time
        target = .ok r ∧ r.1.all fitsBigint = true) ↔
      (accountCurrency ≠ target.code → FitsIn cenv chain tx accountCurrency target) := by
  by_cases hne : accountCurrency = target.code
  · refine iff_of_true ⟨(some tx.amountCents, none), ?_, hamount⟩ fun h => absurd hne h
    rw [convertTo, if_pos hne]
    rfl
  refine ⟨?_, fun h => ?_⟩
  · rintro ⟨r, hr, hfits⟩ -
    obtain ⟨path?, hpath, h⟩ := (convertTo_eq_ok hne).mp hr
    refine ⟨path?, hpath, ?_⟩
    rintro path rfl
    rcases h with ⟨h, -⟩ | ⟨path', _, h, hdiv, -, -, rfl⟩
    · cases h
    · obtain rfl := Option.some.inj h
      exact ⟨hdiv, hfits⟩
  · obtain ⟨path?, hpath, h⟩ := h hne
    rcases path? with _ | path
    · exact ⟨(none, none), (convertTo_eq_ok hne).mpr ⟨none, hpath, Or.inl ⟨rfl, rfl⟩⟩, rfl⟩
    · obtain ⟨hdiv, hfits⟩ := h path rfl
      obtain ⟨metadata, hmetadata⟩ := exists_pathMetadata hdiv
      exact ⟨_, (convertTo_eq_ok hne).mpr ⟨some path, hpath, Or.inr ⟨path, metadata, rfl, hdiv,
        natAbs_lt_of_fitsBigint hfits, hmetadata, rfl⟩⟩, hfits⟩

theorem convertTo_noNul {r : Option ℤ × Option Dict} (hcur : accountCurrency.noNul = true)
    (h : convertTo cenv chain (orderedPivots chain) tx.amountCents accountCurrency tx.time
      target = .ok r) :
    ∀ metadata, r.2 = some metadata → Json.noNulFields metadata = true := by
  intro metadata hmetadata
  by_cases hne : accountCurrency = target.code
  · rw [convertTo, if_pos hne] at h
    obtain rfl := Except.ok.inj h
    cases hmetadata
  obtain ⟨path?, hpath, ⟨-, rfl⟩ | ⟨path, metadata', rfl, -, -, hm, rfl⟩⟩ :=
    (convertTo_eq_ok hne).mp h
  · cases hmetadata
  · obtain rfl := Option.some.inj hmetadata
    have hsteps := (resolvePath_connects hpath).noNul hcur (Currency.code_noNul target)
    exact pathMetadata_noNul hsteps hm

theorem forall_displayCurrencies {P : Currency → Prop} :
    (∀ target ∈ displayCurrencies, P target) ↔ P .UAH ∧ P .USD ∧ P .EUR := by
  simp [displayCurrencies]

/-- **When the conversion succeeds** with amounts that can be written: the chain can be loaded,
and the amount can be written in every display currency but that of the account. -/
theorem convert_fits_iff (hamount : fitsBigint tx.amountCents = true) :
    (∃ conversion, convert cenv tx accountCurrency = .ok conversion ∧
        ∀ target ∈ displayCurrencies, (conversion.amounts target).all fitsBigint = true) ↔
      ∃ chain, loadSourceChain cenv.configs tx.entrySource = .ok chain ∧
        ∀ target ∈ displayCurrencies, accountCurrency ≠ target.code →
          FitsIn cenv chain tx accountCurrency target := by
  simp only [forall_displayCurrencies]
  constructor
  · rintro ⟨conversion, hconvert, huahFits, husdFits, heurFits⟩
    obtain ⟨chain, uah, usd, eur, hchain, huah, husd, heur, rfl⟩ := convert_eq_ok.mp hconvert
    refine ⟨chain, hchain, ?_, ?_, ?_⟩
    · exact (convertTo_fits_iff hamount).mp ⟨uah, huah, huahFits⟩
    · exact (convertTo_fits_iff hamount).mp ⟨usd, husd, husdFits⟩
    · exact (convertTo_fits_iff hamount).mp ⟨eur, heur, heurFits⟩
  · rintro ⟨chain, hchain, huah, husd, heur⟩
    obtain ⟨uah, huah, huahFits⟩ := (convertTo_fits_iff hamount).mpr huah
    obtain ⟨usd, husd, husdFits⟩ := (convertTo_fits_iff hamount).mpr husd
    obtain ⟨eur, heur, heurFits⟩ := (convertTo_fits_iff hamount).mpr heur
    exact ⟨_, convert_eq_ok.mpr ⟨chain, uah, usd, eur, hchain, huah, husd, heur, rfl⟩,
      huahFits, husdFits, heurFits⟩

theorem convert_noNul (hcur : accountCurrency.noNul = true)
    (h : convert cenv tx accountCurrency = .ok conversion) :
    Json.noNulFields conversion.rateMetadata = true := by
  obtain ⟨chain, uah, usd, eur, -, huah, husd, heur, rfl⟩ := convert_eq_ok.mp h
  rw [Json.noNulFields_eq_true]
  intro field hfield
  obtain ⟨⟨target, metadata?⟩, hmem, hmap⟩ := List.mem_filterMap.mp hfield
  obtain ⟨metadata, hmetadata, rfl⟩ := Option.map_eq_some_iff.mp hmap
  refine ⟨Currency.lower_noNul target, ?_⟩
  simp only [List.mem_cons, List.not_mem_nil, or_false, Prod.mk.injEq] at hmem
  rcases hmem with ⟨-, rfl⟩ | ⟨-, rfl⟩ | ⟨-, rfl⟩
  · exact convertTo_noNul hcur huah metadata hmetadata
  · exact convertTo_noNul hcur husd metadata hmetadata
  · exact convertTo_noNul hcur heur metadata hmetadata

/-! ## When a run gets through -/

/-- Of an event that is stored nothing is written, but everything is encoded. -/
theorem insertTransaction_of_stored {special : Option SpecialCategory}
    {converted : Currency → Option ℤ} {metadata : Option Dict} {related : Option UUID}
    (hst : db.Stored tx.id) {db' : Database} :
    insertTransaction env db tx accountCurrency special converted metadata related = .ok db' ↔
      db' = db ∧ ∃ source, TransactionSource.ofText tx.source = some source ∧
        (toRow tx source accountCurrency special converted metadata related).encodable =
          true := by
  rcases hs : TransactionSource.ofText tx.source with _ | source
  · simp [insertTransaction, hs]
  · simp only [insertTransaction, hs, if_pos hst, Option.some.injEq, exists_eq_left']
    split
    · next henc => simp [henc]
    · next henc => simp [henc, eq_comm]

/-- The checks of a run on the event, its account and the conversion. -/
def Passes (env : PipelineEnv) (tx : NormalizedTransaction) : Prop :=
  ∃ account source conversion, getById env tx.accountId = .ok account ∧
    TransactionSource.ofText tx.source = some source ∧
    env.convert tx account.currencyCode = .ok conversion ∧
    (enrichedRow tx source account conversion .default).encodable = true

theorem admitted_iff : Admitted env tx ↔ Passes env tx ∧ tx.userId ∈ env.users := by
  constructor
  · rintro ⟨account, source, conversion, ha, hs, hc, hu, henc⟩
    exact ⟨⟨account, source, conversion, ha, hs, hc, henc⟩, hu⟩
  · rintro ⟨⟨account, source, conversion, ha, hs, hc, henc⟩, hu⟩
    exact ⟨account, source, conversion, ha, hs, hc, hu, henc⟩

theorem run_ok_iff_of_stored (h : RowsSound env db) (hst : db.Stored tx.id) :
    (∃ db', run env db tx = .ok db') ↔ Passes env tx := by
  constructor
  · rintro ⟨db', hrun⟩
    obtain ⟨account, res, db₁, conversion, db₂, ha, hd, hc, hi, -⟩ := run_eq_ok.mp hrun
    cases runTransferDetection_cases hd with
    | skipped =>
      obtain ⟨-, source, hs, henc⟩ := (insertTransaction_of_stored hst).mp hi
      exact ⟨account, source, conversion, ha, hs, hc, henc⟩
    | unpaired _ _ hfresh => exact absurd hst hfresh
    | claimed _ _ _ _ _ hfresh => exact absurd hst hfresh
  · rintro ⟨account, source, conversion, ha, hs, hc, henc⟩
    obtain ⟨res, db₁, hd⟩ := runTransferDetection_ok h ha
    refine ⟨db, run_eq_ok.mpr ⟨account, res, db₁, conversion, db, ha, hd, hc, ?_⟩⟩
    cases runTransferDetection_cases hd with
    | skipped => exact ⟨(insertTransaction_of_stored hst).mpr ⟨rfl, source, hs, henc⟩, rfl⟩
    | unpaired _ _ hfresh => exact absurd hst hfresh
    | claimed _ _ _ _ _ hfresh => exact absurd hst hfresh

/-- **When a run succeeds**: every check passes, and the row is there already or finds its dedup
key free and its user. -/
theorem run_ok_iff_passes (h : RowsSound env db) (hn : tx.NoLayer) :
    (∃ db', run env db tx = .ok db') ↔ Passes env tx ∧
      (db.Stored tx.id ∨ ¬ db.DedupTaken tx.accountId tx.sourceId ∧ tx.userId ∈ env.users) := by
  by_cases hst : db.Stored tx.id
  · rw [run_ok_iff_of_stored h hst]
    simp [hst]
  · rw [run_ok_iff h hn hst, admitted_iff]
    simp only [hst, false_or]
    tauto

theorem passes_converting_iff (hn : tx.NoLayer)
    (hs : TransactionSource.ofText tx.source = some source)
    (ha : getById env tx.accountId = .ok account) :
    Passes (env.converting cenv) tx ↔
      (∀ n ∈ tx.carriedAmounts, fitsBigint n = true) ∧
      (∀ s ∈ account.currencyCode :: tx.texts, s.noNul = true) ∧
      Json.noNulFields (tx.metadata.getD []) = true ∧
      ∃ chain, loadSourceChain cenv.configs tx.entrySource = .ok chain ∧
        ∀ target ∈ displayCurrencies, account.currencyCode ≠ target.code →
          FitsIn cenv chain tx account.currencyCode target := by
  constructor
  · rintro ⟨account', source', conversion, ha', -, hc, henc⟩
    obtain rfl := Except.ok.inj (ha.symm.trans ha')
    obtain ⟨hamounts, hconverted, htexts, hmetadata, -⟩ := (enrichedRow_encodable_iff hn).mp henc
    exact ⟨hamounts, htexts, hmetadata,
      (convert_fits_iff (hamounts _ List.mem_cons_self)).mp ⟨conversion, hc, hconverted⟩⟩
  · rintro ⟨hamounts, htexts, hmetadata, hrates⟩
    obtain ⟨conversion, hc, hconverted⟩ :=
      (convert_fits_iff (hamounts _ List.mem_cons_self)).mpr hrates
    refine ⟨account, source, conversion, ha, hs, hc, (enrichedRow_encodable_iff hn).mpr
      ⟨hamounts, hconverted, htexts, hmetadata, ?_⟩⟩
    exact convert_noNul (htexts _ List.mem_cons_self) hc

/-! ## Accepted events

Ingestion accepts a manual transaction after checks of its own, none of which bounds the amount or
looks at the texts. So what it accepts need not be what the columns take. -/

theorem AcceptedTransaction.noLayer (a : AcceptedTransaction nenv) : a.event.NoLayer := by
  have haccepted := a.accepted
  rcases hq : a.request with q | ⟨envelope, item⟩
  · simp only [hq, IngestionRequest.event?] at haccepted
    split at haccepted
    · rw [← Option.some.inj haccepted]
      exact manualNormalize_noLayer _ _
    · cases haccepted
  · rw [hq] at haccepted
    exact monobankNormalize_noLayer haccepted

theorem AcceptedTransaction.exists_source (a : AcceptedTransaction nenv) :
    ∃ source, TransactionSource.ofText a.event.source = some source := by
  have hkey := (event_of_request a.accepted).2.1
  rcases hq : a.request with q | ⟨envelope, item⟩
  · rw [hq] at hkey
    rw [(Prod.mk.inj hkey).1]
    exact ⟨.manual, rfl⟩
  · rw [hq] at hkey
    rw [(Prod.mk.inj hkey).1]
    exact ⟨.monobank, rfl⟩

theorem not_stops_iff_ok (ha : getById env tx.accountId = .ok account) :
    ¬ Stops (run env db tx) ↔ ∃ db', run env db tx = .ok db' := by
  have hskips : ¬ Skips (run env db tx) := not_skips_run ha
  rcases hrun : run env db tx with e | db'
  · refine iff_of_false (not_not.mpr ⟨e, rfl, ?_⟩) ?_
    · rintro accountId rfl
      exact hskips ⟨accountId, hrun⟩
    · rintro ⟨_, h⟩
      cases h
  · refine iff_of_true ?_ ⟨db', rfl⟩
    rintro ⟨_, h, -⟩
    cases h

/-- An amount that no `BIGINT` takes stops the consumer, whatever the rates and the tables are: even
an event that is stored already is encoded once more for the insert that is then ignored. -/
theorem stops_of_not_fitsBigint (cenv : ConversionEnv) (hrows : RowsSound env db)
    (a : AcceptedTransaction nenv) (ha : getById env a.event.accountId = .ok account)
    (hamount : fitsBigint a.event.amountCents = false) :
    Stops (run (env.converting cenv) db a.event) := by
  have hsound : RowsSound (env.converting cenv) db := ⟨hrows.settable, hrows.accounts⟩
  have hget : getById (env.converting cenv) a.event.accountId = .ok account := ha
  obtain ⟨source, hs⟩ := a.exists_source
  by_contra hstops
  obtain ⟨hpasses, -⟩ :=
    (run_ok_iff_passes hsound a.noLayer).mp ((not_stops_iff_ok hget).mp hstops)
  obtain ⟨hamounts, -⟩ := (passes_converting_iff a.noLayer hs ha).mp hpasses
  rw [hamounts _ List.mem_cons_self] at hamount
  cases hamount

/-- The consumer stays where it is exactly at an event that stops it. -/
theorem enrichStep_eq_self_iff {s : ReprocessState} {topic : List NormalizedTransaction}
    (hp : s.processed = false) (ht : s.topic = tx :: topic) :
    s.enrichStep env = some s ↔ Stops (run env s.db tx) := by
  have hmoved : ∀ {s'}, s'.processed = true → some s' ≠ some s := by
    rintro s' hs' h
    rw [Option.some.inj h, hp] at hs'
    cases hs'
  rcases hrun : run env s.db tx with e | db
  · cases e with
    | accountNotFound accountId =>
      simp only [ReprocessState.enrichStep, hp, ht, hrun]
      apply iff_of_false (hmoved rfl)
      rintro ⟨e, he, hne⟩
      exact hne accountId (Except.error.inj he).symm
    | _ =>
      simp only [ReprocessState.enrichStep, hp, ht, hrun]
      exact iff_of_true trivial ⟨_, rfl, fun _ h => by cases h⟩
  · simp only [ReprocessState.enrichStep, hp, ht, hrun]
    apply iff_of_false (hmoved rfl)
    rintro ⟨_, he, -⟩
    cases he

/-- One delivery after another, each in the accounts and rates of its time. A delivery that stops
the consumer leaves the topic as it was. -/
def deliveries (s : ReprocessState) : List (PipelineEnv × ConversionEnv) → Option ReprocessState
  | [] => some s
  | p :: rest => (s.enrichStep (p.1.converting p.2)).bind fun s => deliveries s rest

/-- **A poison event blocks the topic**: an accepted event with an amount that no `BIGINT` takes
stays the oldest event of its topic through any number of deliveries, as long as its account
exists. -/
theorem blocked_of_not_fitsBigint (a : AcceptedTransaction nenv)
    (hamount : fitsBigint a.event.amountCents = false) {s : ReprocessState}
    {topic : List NormalizedTransaction} (hp : s.processed = false)
    (ht : s.topic = a.event :: topic) {rest : List (PipelineEnv × ConversionEnv)}
    (hrest : ∀ p ∈ rest, RowsSound p.1 s.db ∧ AccountKnown p.1.accounts a.event.accountId) :
    deliveries s rest = some s := by
  induction rest with
  | nil => rfl
  | cons p rest ih =>
    obtain ⟨hrows, hknown⟩ := hrest p List.mem_cons_self
    obtain ⟨account, ha⟩ := accountKnown_iff.mp hknown
    have hstay := (enrichStep_eq_self_iff hp ht).mpr
      (stops_of_not_fitsBigint p.2 hrows a ha hamount)
    rw [deliveries, hstay]
    exact ih fun p hmem => hrest p (List.mem_cons_of_mem _ hmem)

/-! ## An event that stops the consumer -/

end Grosh
