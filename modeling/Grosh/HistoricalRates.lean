import Grosh.Lib.Timeline
import Grosh.CurrencyRates

/-!
# Historical rates

`upsert_historical` writes the rate a source publishes for a moment into `currency_rates`. For
each pair the historical rows are meant to be the periods of a timeline: a new moment splits
the row that covers it, precedes the first row, or opens the history; a known one overwrites
its row. Polled rows share the table and are not looked at. A call is one transaction under an
advisory lock on the pair.

The moments come in any order, and a moment may be published again with other rates. What the rows
are meant to be is a timeline: a value for every moment that was published, in force until the next.

* `upsertHistorical_slots` — one call gives its moment its rates in the timeline of the pair;
* `upsertAll_canonical` — after any sequence of calls every history is in canonical form.
-/

namespace Grosh

/-! ## The upsert

The function tries four cases in their order: the moment has a row, it falls into one, it precedes
all of them, or none of these. The last is what the `RuntimeError` is for. -/

/-- What a call of `upsert_historical` can raise. The first of the two would be a hole in the
history. -/
inductive RateError : Type where
  /-- `RuntimeError`, with what its message names -/
  | invariantViolated (pair : RatePair) (validFrom : Timestamp) (orphanCount : ℕ)
  /-- numeric field overflow -/
  | numericOverflow
  deriving DecidableEq

/-- The row a call inserts: the rates of the call, from its moment on. -/
def newRow (env : RateDbEnv) (table : RateTable) (pair : RatePair) (stored : StoredRates)
    (validFrom : Timestamp) (validTo : Option Timestamp) : CurrencyRateRow where
  id := env.uuidv7 (table.rows.map CurrencyRateRow.id)
  pair := pair
  rates := stored
  validFrom := validFrom
  validTo := validTo
  lastPolledAt := none
  updateCadenceSeconds := none

/-- The `INSERT` of a historical row, or the overflow of one of its rates. -/
def insertRate (env : RateDbEnv) (table : RateTable) (pair : RatePair) (rates : RateValues)
    (validFrom : Timestamp) (validTo : Option Timestamp) : Except RateError RateTable :=
  match storeRates rates with
  | none => .error .numericOverflow
  | some stored =>
    .ok (table.insertIgnore (newRow env table pair stored validFrom validTo))

/-- `UPDATE currency_rates SET rate_buy, rate_sell, rate_mid WHERE id`: the period of the row
stays. -/
def setRates (table : RateTable) (id : UUID) (stored : StoredRates) : RateTable :=
  table.updateWhere (fun r => decide (r.id = id)) (fun r => { r with rates := stored })
    fun _ => rfl

/-- `UPDATE currency_rates SET valid_to WHERE id`: the row ends earlier than before. -/
def setValidTo (table : RateTable) (id : UUID) (validTo : Timestamp) : RateTable :=
  table.updateWhere (fun r => decide (r.id = id)) (fun r => { r with validTo := some validTo })
    fun _ => rfl

/-- The row the call's moment falls into, without being its start. -/
def coversTime (r : CurrencyRateRow) (atTime : Timestamp) : Bool :=
  decide (r.validFrom < atTime) &&
    match r.validTo with
    | none => true
    | some validTo => decide (atTime < validTo)

/-- `ORDER BY valid_from ASC LIMIT 1` over the later rows: the next `valid_from`. -/
def nextHistorical (table : RateTable) (pair : RatePair) (atTime : Timestamp) :
    Option Timestamp :=
  ((table.rows.filter fun r => decide (r.Historical pair) && decide (atTime < r.validFrom)).map
    CurrencyRateRow.validFrom).min?

/-- `CurrencyRateRepo.upsert_historical`. -/
def upsertHistorical (env : RateDbEnv) (table : RateTable) (pair : RatePair)
    (rates : RateValues) (atTime : Timestamp) : Except RateError RateTable :=
  match fetchrow env table
      (fun r => decide (r.Historical pair) && decide (r.validFrom = atTime)) with
  | some existing =>
    if ratesEqual existing.rates rates then .ok table
    else
      match storeRates rates with
      | none => .error .numericOverflow
      | some stored => .ok (setRates table existing.id stored)
  | none =>
    match fetchrow env table (fun r => decide (r.Historical pair) && coversTime r atTime) with
    | some covering =>
      insertRate env (setValidTo table covering.id atTime) pair rates atTime covering.validTo
    | none =>
      match nextHistorical table pair atTime with
      | some nextValidFrom => insertRate env table pair rates atTime (some nextValidFrom)
      | none =>
        let orphanCount := (table.rows.filter fun r => decide (r.Historical pair)).length
        if orphanCount ≠ 0 then .error (.invariantViolated pair atTime orphanCount)
        else insertRate env table pair rates atTime none

/-- One call of a source: a rate that it has published for a moment. -/
structure HistoricalCall : Type where
  currencyFrom : String
  currencyTo : String
  rates : RateValues
  atTime : Timestamp

/-- The pair of a call, with the source that makes it. -/
def HistoricalCall.pair (c : HistoricalCall) (source : String) : RatePair :=
  ⟨source, c.currencyFrom, c.currencyTo⟩

/-- One call, one transaction: an exception leaves the table as it was. -/
def upsertOne (env : RateDbEnv) (source : String) (table : RateTable) (c : HistoricalCall) :
    RateTable :=
  match upsertHistorical env table (c.pair source) c.rates c.atTime with
  | .ok table' => table'
  | .error _ => table

/-- A sequence of calls of one source, each in its own transaction. -/
def upsertAll (env : RateDbEnv) (source : String) (table : RateTable)
    (calls : List HistoricalCall) : RateTable :=
  calls.foldl (upsertOne env source) table

/-! ## The history of a pair

The historical rows of a pair are periods. What a call does to them is what setting a value does to
a timeline, for which the library has the lemmas. -/

variable {env : RateDbEnv} {table table' : RateTable} {pair : RatePair} {rates : RateValues}
  {atTime : Timestamp} {stored : StoredRates} {T : Timeline Timestamp StoredRates}

/-- A row as a period: its start, its end and its rates. -/
def CurrencyRateRow.period (r : CurrencyRateRow) : Period Timestamp StoredRates :=
  ⟨r.validFrom, r.validTo, r.rates⟩

/-- The historical rows of the pair are the periods `P`, one row each. -/
structure HistoryIs (table : RateTable) (pair : RatePair)
    (P : Period Timestamp StoredRates → Prop) : Prop where
  distinct : ∀ r ∈ table, ∀ r' ∈ table, r.Historical pair → r'.Historical pair →
    r.validFrom = r'.validFrom → r = r'
  periods : ∀ q, (∃ r ∈ table, r.Historical pair ∧ r.period = q) ↔ P q
  cadence : ∀ r ∈ table, r.Historical pair → r.updateCadenceSeconds = none

theorem coversTime_iff {r : CurrencyRateRow} :
    coversTime r atTime = true ↔ Timeline.Covers r.period atTime := by
  simp only [coversTime, Timeline.Covers, CurrencyRateRow.period]
  rcases r.validTo with _ | validTo <;> simp

section HistoryIs

variable {P P' : Period Timestamp StoredRates → Prop} {r₀ : CurrencyRateRow}

theorem HistoryIs.congr (h : HistoryIs table pair P) (hP : ∀ q, P' q ↔ P q) :
    HistoryIs table pair P' :=
  ⟨h.distinct, fun q => (h.periods q).trans (hP q).symm, h.cadence⟩

theorem HistoryIs.of_row (h : HistoryIs table pair P) {r : CurrencyRateRow} (hr : r ∈ table)
    (hh : r.Historical pair) : P r.period :=
  (h.periods _).mp ⟨r, hr, hh, rfl⟩

/-- A history depends on the historical rows of the pair alone: others may come and go. -/
theorem HistoryIs.of_mem_iff (h : HistoryIs table pair P)
    (hmem : ∀ r : CurrencyRateRow, r.Historical pair → (r ∈ table' ↔ r ∈ table)) :
    HistoryIs table' pair P := by
  refine ⟨fun r hr r' hr' hh hh' => ?_, fun q => ?_, fun r hr hh => ?_⟩
  · exact h.distinct r ((hmem r hh).mp hr) r' ((hmem r' hh').mp hr') hh hh'
  · rw [← h.periods q]
    apply exists_congr
    intro r
    exact ⟨fun ⟨hr, hh, hq⟩ => ⟨(hmem r hh).mp hr, hh, hq⟩,
      fun ⟨hr, hh, hq⟩ => ⟨(hmem r hh).mpr hr, hh, hq⟩⟩
  · exact h.cadence r ((hmem r hh).mp hr) hh

/-- A new row adds its period, if no other starts there. -/
theorem HistoryIs.insert (h : HistoryIs table pair P) (hfresh : ¬ table.HasKey r₀.id)
    (hh₀ : r₀.Historical pair) (hc₀ : r₀.updateCadenceSeconds = none)
    (hstart : ∀ q, P q → q.start ≠ r₀.validFrom) :
    HistoryIs (table.insertIgnore r₀) pair (fun q => q = r₀.period ∨ P q) := by
  have hmem : ∀ {r}, r ∈ table.insertIgnore r₀ ↔ r ∈ table ∨ r = r₀ :=
    KeyedTable.mem_insertIgnore_of_not_hasKey hfresh
  refine ⟨fun r hr r' hr' hh hh' heq => ?_, fun q => ?_, fun r hr hh => ?_⟩
  · rcases hmem.mp hr with h₁ | h₁ <;> rcases hmem.mp hr' with h₂ | h₂
    · exact h.distinct r h₁ r' h₂ hh hh' heq
    · exact absurd (heq.trans (congrArg _ h₂)) (hstart _ (h.of_row h₁ hh))
    · exact absurd (heq.symm.trans (congrArg _ h₁)) (hstart _ (h.of_row h₂ hh'))
    · exact h₁.trans h₂.symm
  · rw [← h.periods q]
    refine ⟨?_, ?_⟩
    · rintro ⟨r, hr, hh, rfl⟩
      rcases hmem.mp hr with hr | rfl
      · exact Or.inr ⟨r, hr, hh, rfl⟩
      · exact Or.inl rfl
    · rintro (rfl | ⟨r, hr, hh, rfl⟩)
      · exact ⟨r₀, hmem.mpr (Or.inr rfl), hh₀, rfl⟩
      · exact ⟨r, hmem.mpr (Or.inl hr), hh, rfl⟩
  · rcases hmem.mp hr with hr | rfl
    · exact h.cadence r hr hh
    · exact hc₀

/-- An update of one historical row replaces its period, and leaves the others. -/
theorem HistoryIs.update (h : HistoryIs table pair P) (hr₀ : r₀ ∈ table)
    (hh₀ : r₀.Historical pair) {f : CurrencyRateRow → CurrencyRateRow}
    (hid : ∀ r, (f r).id = r.id) (hh : (f r₀).Historical pair)
    (hfrom : (f r₀).validFrom = r₀.validFrom)
    (hc : (f r₀).updateCadenceSeconds = r₀.updateCadenceSeconds) :
    HistoryIs (table.updateWhere (fun r => decide (r.id = r₀.id)) f hid) pair
      (fun q => q = (f r₀).period ∨ (P q ∧ q.start ≠ r₀.validFrom)) := by
  have hmem : ∀ {r}, r ∈ table.updateWhere (fun r => decide (r.id = r₀.id)) f hid ↔
      r = f r₀ ∨ (r ∈ table ∧ r.id ≠ r₀.id) := KeyedTable.mem_updateWhere_key hid hr₀
  -- another historical row starts at another moment
  have hother : ∀ r ∈ table, r.Historical pair → r.id ≠ r₀.id → r.validFrom ≠ r₀.validFrom :=
    fun r hr hhr hne heq => hne (congrArg _ (h.distinct r hr r₀ hr₀ hhr hh₀ heq))
  refine ⟨fun r hr r' hr' hhr hhr' heq => ?_, fun q => ?_, fun r hr hhr => ?_⟩
  · rcases hmem.mp hr with rfl | ⟨hr, hne⟩ <;> rcases hmem.mp hr' with rfl | ⟨hr', hne'⟩
    · rfl
    · exact absurd (heq.symm.trans hfrom) (hother r' hr' hhr' hne')
    · exact absurd (heq.trans hfrom) (hother r hr hhr hne)
    · exact h.distinct r hr r' hr' hhr hhr' heq
  · rw [← h.periods q]
    refine ⟨?_, ?_⟩
    · rintro ⟨r, hr, hhr, rfl⟩
      rcases hmem.mp hr with rfl | ⟨hr, hne⟩
      · exact Or.inl rfl
      · exact Or.inr ⟨⟨r, hr, hhr, rfl⟩, hother r hr hhr hne⟩
    · rintro (rfl | ⟨⟨r, hr, hhr, rfl⟩, hne⟩)
      · exact ⟨f r₀, hmem.mpr (Or.inl rfl), hh, rfl⟩
      · refine ⟨r, hmem.mpr (Or.inr ⟨hr, fun heq => hne ?_⟩), hhr, rfl⟩
        rw [KeyedTable.eq_of_key_eq hr hr₀ heq]
        rfl
  · rcases hmem.mp hr with rfl | ⟨hr, -⟩
    · exact hc.trans (h.cadence r₀ hr₀ hh₀)
    · exact h.cadence r hr hhr

end HistoryIs

/-- The historical rows of the pair are the periods of the timeline. -/
abbrev Slots (table : RateTable) (pair : RatePair) (T : Timeline Timestamp StoredRates) : Prop :=
  HistoryIs table pair T.IsPeriod

theorem Slots.exists_row (h : Slots table pair T) {t : Timestamp} (ht : t ∈ T.dom) :
    ∃ r ∈ table, r.Historical pair ∧ r.validFrom = t := by
  obtain ⟨p, hp, rfl⟩ := Timeline.exists_isPeriod ht
  obtain ⟨r, hr, hh, rfl⟩ := (h.periods p).mpr hp
  exact ⟨r, hr, hh, rfl⟩

/-- The query for the next row finds the next instant of the timeline. -/
theorem Slots.nextHistorical_eq (h : Slots table pair T) :
    nextHistorical table pair atTime = T.next atTime := by
  have hlater : ∀ u, u ∈ (table.rows.filter fun r => decide (r.Historical pair) &&
      decide (atTime < r.validFrom)).map CurrencyRateRow.validFrom ↔
      u ∈ T.dom ∧ atTime < u := by
    intro u
    simp only [List.mem_map, List.mem_filter, Bool.and_eq_true, decide_eq_true_eq]
    refine ⟨?_, ?_⟩
    · rintro ⟨r, ⟨hr, hh, hlt⟩, rfl⟩
      exact ⟨(h.of_row hr hh).start_mem, hlt⟩
    · rintro ⟨hu, hlt⟩
      obtain ⟨r, hr, hh, rfl⟩ := h.exists_row hu
      exact ⟨r, ⟨hr, hh, hlt⟩, rfl⟩
  rcases hmin : nextHistorical table pair atTime with _ | n
  · have hnil := List.min?_eq_none_iff.mp hmin
    refine (Timeline.next_eq_none.mpr fun u hu => not_lt.mp fun hlt => ?_).symm
    have hmem := (hlater u).mpr ⟨hu, hlt⟩
    rw [hnil] at hmem
    cases hmem
  · obtain ⟨hn, hle⟩ := List.min?_eq_some_iff.mp hmin
    obtain ⟨hnd, hnt⟩ := (hlater n).mp hn
    exact (Timeline.next_eq_some.mpr
      ⟨hnd, hnt, fun u hu hlt => hle u ((hlater u).mpr ⟨hu, hlt⟩)⟩).symm

/-! ## One call

Each case of the function is one of the ways a timeline changes, and there is no other. -/

/-- The rows a call on the pair does not look at stay: polled rows, and those of other pairs. -/
def Untouched (pair : RatePair) (table table' : RateTable) : Prop :=
  ∀ r : CurrencyRateRow, ¬ r.Historical pair → (r ∈ table' ↔ r ∈ table)

theorem untouched_update {f : CurrencyRateRow → CurrencyRateRow} {r₀ : CurrencyRateRow}
    (hid : ∀ r, (f r).id = r.id) (hr₀ : r₀ ∈ table) (hh₀ : r₀.Historical pair)
    (hh : (f r₀).Historical pair) :
    Untouched pair table (table.updateWhere (fun r => decide (r.id = r₀.id)) f hid) := by
  intro r hr
  rw [KeyedTable.mem_updateWhere_key hid hr₀]
  refine ⟨?_, ?_⟩
  · rintro (rfl | ⟨hrm, -⟩)
    · exact absurd hh hr
    · exact hrm
  · intro hrm
    refine Or.inr ⟨hrm, fun heq => hr ?_⟩
    rw [KeyedTable.eq_of_key_eq hrm hr₀ heq]
    exact hh₀

theorem newRow_fresh {validTo : Option Timestamp} :
    ¬ table.HasKey (newRow env table pair stored atTime validTo).id := by
  rw [KeyedTable.hasKey_iff_mem_map]
  exact env.uuidv7_fresh _

theorem newRow_historical {validTo : Option Timestamp} :
    (newRow env table pair stored atTime validTo).Historical pair := ⟨rfl, rfl⟩

theorem insertRate_eq {validTo : Option Timestamp} (hs : storeRates rates = some stored) :
    insertRate env table pair rates atTime validTo =
      .ok (table.insertIgnore (newRow env table pair stored atTime validTo)) := by
  simp only [insertRate, hs]

theorem insertRate_overflow {validTo : Option Timestamp} (hs : storeRates rates = none) :
    insertRate env table pair rates atTime validTo = .error .numericOverflow := by
  simp only [insertRate, hs]

theorem untouched_insert {validTo : Option Timestamp} :
    Untouched pair table
      (table.insertIgnore (newRow env table pair stored atTime validTo)) := by
  intro r hr
  rw [KeyedTable.mem_insertIgnore_of_not_hasKey newRow_fresh]
  apply or_iff_left
  rintro rfl
  exact hr newRow_historical

/-- The call hits a row: its rates become those of the call, and no period moves. -/
theorem setRates_slots {r : CurrencyRateRow} (h : Slots table pair T) (hr : r ∈ table)
    (hh : r.Historical pair) :
    Slots (setRates table r.id stored) pair (T.set r.validFrom stored) ∧
      Untouched pair table (setRates table r.id stored) := by
  have hq := h.of_row hr hh
  have hstart : r.validFrom ∈ T.dom := hq.start_mem
  have hstop : r.validTo = T.next r.validFrom := hq.2
  have hset := h.update (f := fun r => { r with rates := stored }) hr hh (fun _ => rfl) hh rfl rfl
  refine ⟨hset.congr fun q => ?_,
    untouched_update (f := fun r => { r with rates := stored }) (fun _ => rfl) hr hh hh⟩
  rw [Timeline.isPeriod_set_of_mem hstart, ← hstop]
  rfl

/-- The call falls into a row: the row ends there, and the new one takes the rest. -/
theorem splitRow_slots {r : CurrencyRateRow} (h : Slots table pair T) (hr : r ∈ table)
    (hh : r.Historical pair) (hcov : Timeline.Covers r.period atTime) :
    Slots ((setValidTo table r.id atTime).insertIgnore
        (newRow env (setValidTo table r.id atTime) pair stored atTime r.validTo)) pair
      (T.set atTime stored) ∧
    Untouched pair table ((setValidTo table r.id atTime).insertIgnore
        (newRow env (setValidTo table r.id atTime) pair stored atTime r.validTo)) := by
  have hq := h.of_row hr hh
  have hcut := h.update (f := fun r => { r with validTo := some atTime }) hr hh (fun _ => rfl) hh
    rfl rfl
  refine ⟨?_, ?_⟩
  · refine (hcut.insert newRow_fresh newRow_historical rfl ?_).congr fun q => ?_
    · rintro q (rfl | ⟨hp, -⟩)
      · exact ne_of_lt hcov.1
      · have hne : q.start ≠ atTime := fun heq => hcov.not_mem hq (heq ▸ hp.start_mem)
        exact hne
    · rw [Timeline.isPeriod_set_of_covers hq hcov, or_left_comm]
      rfl
  · intro r' hr'
    exact (untouched_insert r' hr').trans
      (untouched_update (f := fun r => { r with validTo := some atTime }) (fun _ => rfl) hr hh hh
        r' hr')

/-- The call precedes every row: the new one ends where the first begins, or never. -/
theorem prepend_slots (h : Slots table pair T) (hfirst : ∀ u ∈ T.dom, atTime < u) :
    Slots (table.insertIgnore (newRow env table pair stored atTime (T.next atTime))) pair
      (T.set atTime stored) := by
  refine (h.insert newRow_fresh newRow_historical rfl fun q hq => ?_).congr fun q => ?_
  · exact ne_of_gt (hfirst _ hq.start_mem)
  · rw [Timeline.isPeriod_set_of_first hfirst]
    rfl

/-- **One call** sets the rates of its moment in the history of the pair and touches nothing
else; it raises only if a rate does not fit its column. -/
theorem upsertHistorical_slots (h : Slots table pair T) :
    (storeRates rates = none ∧
      upsertHistorical env table pair rates atTime = .error .numericOverflow) ∨
    ∃ stored table', storeRates rates = some stored ∧
      upsertHistorical env table pair rates atTime = .ok table' ∧
      Slots table' pair (T.set atTime stored) ∧ Untouched pair table table' := by
  simp only [upsertHistorical]
  rcases hexact : fetchrow env table
      (fun r => decide (r.Historical pair) && decide (r.validFrom = atTime)) with _ | r
  swap
  · obtain ⟨hr, hcond⟩ := fetchrow_eq_some hexact
    simp only [Bool.and_eq_true, decide_eq_true_eq] at hcond
    obtain ⟨hh, rfl⟩ := hcond
    by_cases heq : ratesEqual r.rates rates = true
    · refine Or.inr ⟨r.rates, table, storeRates_of_equal heq, if_pos heq, ?_, fun _ _ => Iff.rfl⟩
      have hvalue : T.value r.validFrom = some r.rates := (h.of_row hr hh).1
      rw [Timeline.set_eq_self hvalue]
      exact h
    · simp only [if_neg heq]
      rcases hs : storeRates rates with _ | stored
      · exact Or.inl ⟨rfl, rfl⟩
      · exact Or.inr ⟨stored, _, rfl, rfl, setRates_slots h hr hh⟩
  have hfree : atTime ∉ T.dom := by
    intro hmem
    obtain ⟨r, hr, hh, hfrom⟩ := h.exists_row hmem
    simpa [hh, hfrom] using fetchrow_eq_none.mp hexact r hr
  simp only
  rcases hcovering : fetchrow env table
      (fun r => decide (r.Historical pair) && coversTime r atTime) with _ | r
  swap
  · obtain ⟨hr, hcond⟩ := fetchrow_eq_some hcovering
    simp only [Bool.and_eq_true, decide_eq_true_eq] at hcond
    rcases hs : storeRates rates with _ | stored
    · exact Or.inl ⟨rfl, insertRate_overflow hs⟩
    · exact Or.inr ⟨stored, _, rfl, insertRate_eq hs,
        splitRow_slots h hr hcond.1 (coversTime_iff.mp hcond.2)⟩
  -- without a covering row every row is later
  have hfirst : ∀ u ∈ T.dom, atTime < u := by
    intro u hu
    by_contra hle
    have hlt : u < atTime := lt_of_le_of_ne (not_lt.mp hle) fun heq => hfree (heq ▸ hu)
    obtain ⟨q, hq, hcov⟩ := Timeline.exists_covers hu hlt hfree
    obtain ⟨r, hr, hh, rfl⟩ := (h.periods q).mpr hq
    simpa [hh, coversTime_iff.mpr hcov] using fetchrow_eq_none.mp hcovering r hr
  have hinsert : ∀ validTo, T.next atTime = validTo →
      (storeRates rates = none ∧
        insertRate env table pair rates atTime validTo = .error .numericOverflow) ∨
      ∃ stored table', storeRates rates = some stored ∧
        insertRate env table pair rates atTime validTo = .ok table' ∧
        Slots table' pair (T.set atTime stored) ∧ Untouched pair table table' := by
    rintro _ rfl
    rcases hs : storeRates rates with _ | stored
    · exact Or.inl ⟨rfl, insertRate_overflow hs⟩
    · exact Or.inr ⟨stored, _, rfl, insertRate_eq hs, prepend_slots h hfirst, untouched_insert⟩
  simp only [h.nextHistorical_eq]
  rcases hnext : T.next atTime with _ | n
  swap
  · exact hinsert (some n) hnext
  · -- no later row either: the pair has no history
    have hcount : (table.rows.filter fun r => decide (r.Historical pair)).length = 0 := by
      rw [List.length_eq_zero_iff, List.filter_eq_nil_iff]
      intro r hr
      rw [decide_eq_true_eq]
      intro hh
      have hmem := (h.of_row hr hh).start_mem
      exact absurd (hfirst _ hmem) (not_lt.mpr (Timeline.next_eq_none.mp hnext _ hmem))
    simp only [hcount, ne_eq, not_true_eq_false, if_false]
    exact hinsert none hnext

/-! ## A sequence of calls

The timelines after any sequence of calls, from those of one call. Which rates a moment has is said
by the last call for it that was stored. -/

variable {source : String} {calls calls' : List HistoricalCall} {c : HistoricalCall}

/-- The rates last written for a moment of the pair, as stored. -/
def lastWritten (source : String) (calls : List HistoricalCall) (pair : RatePair)
    (t : Timestamp) : Option StoredRates :=
  calls.reverse.findSome? fun c =>
    if c.pair source = pair ∧ c.atTime = t then storeRates c.rates else none

/-- What one call does to the timeline of a pair. -/
def HistoricalCall.write (c : HistoricalCall) (source : String) (pair : RatePair)
    (T : Timeline Timestamp StoredRates) : Timeline Timestamp StoredRates :=
  if c.pair source = pair then
    match storeRates c.rates with
    | none => T
    | some stored => T.set c.atTime stored
  else T

/-- The timeline a sequence of calls describes, without any table. -/
def timelineOf (source : String) (calls : List HistoricalCall) (pair : RatePair) :
    Timeline Timestamp StoredRates :=
  calls.foldl (fun T c => c.write source pair T) .empty

theorem timelineOf_value (calls : List HistoricalCall) (t : Timestamp) :
    (timelineOf source calls pair).value t = lastWritten source calls pair t := by
  induction calls using List.reverseRecOn with
  | nil => rfl
  | append_singleton calls c ih =>
    have hlast : lastWritten source (calls ++ [c]) pair t =
        ((if c.pair source = pair ∧ c.atTime = t then storeRates c.rates else none).or
          (lastWritten source calls pair t)) := by
      simp only [lastWritten, List.reverse_append, List.reverse_singleton, List.singleton_append,
        List.findSome?_cons]
      split <;> simp_all
    rw [hlast, ← ih, timelineOf, List.foldl_append, List.foldl_cons, List.foldl_nil,
      ← timelineOf, HistoricalCall.write]
    by_cases hp : c.pair source = pair
    swap
    · simp [hp]
    rcases hs : storeRates c.rates with _ | stored
    · simp [hp]
    by_cases ht : c.atTime = t
    · subst ht
      simp [hp]
    · simp [hp, ht, Timeline.set_value_of_ne _ _ (Ne.symm ht)]

/-- One call of the source, on the histories of all its pairs: it changes that of its own pair. -/
theorem upsertOne_slots {T : RatePair → Timeline Timestamp StoredRates}
    (h : ∀ pair, pair.source = source → Slots table pair (T pair)) :
    (∀ pair, pair.source = source →
      Slots (upsertOne env source table c) pair (c.write source pair (T pair))) ∧
    Untouched (c.pair source) table (upsertOne env source table c) := by
  have hcall : (storeRates c.rates = none ∧
      upsertHistorical env table (c.pair source) c.rates c.atTime = .error .numericOverflow) ∨ _ :=
    upsertHistorical_slots (h (c.pair source) rfl)
  rcases hcall with ⟨hs, he⟩ | ⟨stored, table', hs, he, hslots, hunt⟩
  · have htable : upsertOne env source table c = table := by simp only [upsertOne, he]
    rw [htable]
    refine ⟨fun pair hp => ?_, fun _ _ => Iff.rfl⟩
    have hwrite : c.write source pair (T pair) = T pair := by
      simp only [HistoricalCall.write, hs]
      exact ite_self _
    rw [hwrite]
    exact h pair hp
  · have htable : upsertOne env source table c = table' := by simp only [upsertOne, he]
    rw [htable]
    refine ⟨fun pair hp => ?_, hunt⟩
    by_cases heq : c.pair source = pair
    · subst heq
      have hwrite : c.write source (c.pair source) (T (c.pair source)) =
          (T (c.pair source)).set c.atTime stored := by
        simp only [HistoricalCall.write, if_true, hs]
      rw [hwrite]
      exact hslots
    · have hwrite : c.write source pair (T pair) = T pair := if_neg heq
      rw [hwrite]
      exact (h pair hp).of_mem_iff fun r hr => hunt r fun hr' => heq (hr'.1.symm.trans hr.1)

/-- What is written already changes no row, and no id. -/
theorem upsertOne_of_written (h : Slots table (c.pair source) T)
    (hs : ∀ stored, storeRates c.rates = some stored → T.value c.atTime = some stored) :
    upsertOne env source table c = table := by
  have hcall : (storeRates c.rates = none ∧
      upsertHistorical env table (c.pair source) c.rates c.atTime = .error .numericOverflow) ∨ _ :=
    upsertHistorical_slots h
  rcases hcall with ⟨-, he⟩ | ⟨stored, -, hstored, -⟩
  · simp only [upsertOne, he]
  have hvalue := hs stored hstored
  rcases hexact : fetchrow env table (fun r => decide (r.Historical (c.pair source)) &&
      decide (r.validFrom = c.atTime)) with _ | r
  · obtain ⟨r, hr, hh, hfrom⟩ := h.exists_row (Timeline.mem_dom_of_value hvalue)
    simpa [hh, hfrom] using fetchrow_eq_none.mp hexact r hr
  obtain ⟨hr, hcond⟩ := fetchrow_eq_some hexact
  simp only [Bool.and_eq_true, decide_eq_true_eq] at hcond
  have hrates : r.rates = stored := by
    have hrow : T.value r.validFrom = some r.rates := (h.of_row hr hcond.1).1
    rw [hcond.2, hvalue] at hrow
    exact (Option.some.inj hrow).symm
  -- the row is rewritten with the rates it has
  have hset : setRates table r.id stored = table := by
    refine KeyedTable.ext ((List.map_congr_left fun r' hr' => ?_).trans (List.map_id _))
    by_cases hid : r'.id = r.id
    · obtain rfl : r' = r := KeyedTable.eq_of_key_eq hr' hr hid
      simp [← hrates]
    · simp [hid]
  simp only [upsertOne, upsertHistorical, hexact]
  by_cases heq : ratesEqual r.rates c.rates = true
  · rw [if_pos heq]
  · simp only [if_neg heq, hstored, hset]

theorem upsertAll_concat :
    upsertAll env source table (calls ++ [c]) =
      upsertOne env source (upsertAll env source table calls) c := by
  simp only [upsertAll, List.foldl_append, List.foldl_cons, List.foldl_nil]

/-- A sequence of calls of which none changes a row leaves the table as it is. -/
theorem upsertAll_eq_self (h : ∀ c ∈ calls, upsertOne env source table c = table) :
    upsertAll env source table calls = table := by
  induction calls with
  | nil => rfl
  | cons c calls ih =>
    rw [upsertAll, List.foldl_cons, h c (List.mem_cons_self ..)]
    exact ih fun c' hc' => h c' (List.mem_cons_of_mem _ hc')

/-- **The histories after a sequence of calls** are the timelines it describes. -/
theorem upsertAll_slots (h : ∀ pair, pair.source = source → Slots table pair .empty)
    (calls : List HistoricalCall) :
    ∀ pair, pair.source = source →
      Slots (upsertAll env source table calls) pair (timelineOf source calls pair) := by
  induction calls using List.reverseRecOn with
  | nil => exact h
  | append_singleton calls c ih =>
    intro pair hp
    rw [upsertAll_concat, timelineOf, List.foldl_append]
    exact (upsertOne_slots ih).1 pair hp

/-- Rows that are polled or of another source stay, and none is added. -/
theorem mem_upsertAll_of_other (h : ∀ pair, pair.source = source → Slots table pair .empty)
    {r : CurrencyRateRow} (hr : r.lastPolledAt ≠ none ∨ r.pair.source ≠ source)
    (calls : List HistoricalCall) : r ∈ upsertAll env source table calls ↔ r ∈ table := by
  induction calls using List.reverseRecOn with
  | nil => exact Iff.rfl
  | append_singleton calls c ih =>
    rw [upsertAll_concat, ← ih]
    apply (upsertOne_slots (upsertAll_slots h calls)).2 r
    rintro ⟨hpair, hpoll⟩
    rcases hr with hr | hr
    · exact hr hpoll
    · exact hr (by rw [hpair]; rfl)

/-- Without historical rows of the source every history is empty: that is where the sequences
start. -/
theorem slots_empty (hnone : ∀ r ∈ table, r.pair.source = source → r.lastPolledAt ≠ none)
    (hp : pair.source = source) : Slots table pair .empty := by
  have hno : ∀ r ∈ table, ¬ r.Historical pair := by
    rintro r hr ⟨rfl, hpoll⟩
    exact hnone r hr hp hpoll
  refine ⟨fun r hr _ _ hh => absurd hh (hno r hr), fun q => ?_, fun r hr hh => absurd hh (hno r hr)⟩
  refine iff_of_false ?_ ?_
  · rintro ⟨r, hr, hh, -⟩
    exact hno r hr hh
  · rintro ⟨hv, -⟩
    cases hv

/-! ## The canonical form

What the histories are meant to be, said of the rows and the instants: without the timelines of the
proofs. -/

/-- A row is valid at an instant: from its start on, and before its end. -/
def CurrencyRateRow.ValidAt (r : CurrencyRateRow) (t : Timestamp) : Prop :=
  r.validFrom ≤ t ∧ ∀ u, r.validTo = some u → t < u

/-- The historical rows of a pair in canonical form: one for each moment written, with the
rates written last, valid until the next of them. -/
structure CanonicalHistory (table : RateTable) (pair : RatePair)
    (written : Timestamp → Option StoredRates) : Prop where
  distinct : ∀ r ∈ table, ∀ r' ∈ table, r.Historical pair → r'.Historical pair →
    r.validFrom = r'.validFrom → r = r'
  rates : ∀ t stored, (∃ r ∈ table, r.Historical pair ∧ r.validFrom = t ∧ r.rates = stored) ↔
    written t = some stored
  validTo_none : ∀ r ∈ table, r.Historical pair → r.validTo = none →
    ∀ r' ∈ table, r'.Historical pair → r'.validFrom ≤ r.validFrom
  validTo_some : ∀ r ∈ table, r.Historical pair → ∀ u, r.validTo = some u →
    IsLeast {t | r.validFrom < t ∧ ∃ r' ∈ table, r'.Historical pair ∧ r'.validFrom = t} u
  validAt : ∀ t, ∀ r ∈ table, ∀ r' ∈ table, r.Historical pair → r'.Historical pair →
    r.ValidAt t → r'.ValidAt t → r = r'

theorem Slots.canonical (h : Slots table pair T) : CanonicalHistory table pair T.value := by
  have hdom : ∀ {t}, t ∈ T.dom ↔ ∃ r ∈ table, r.Historical pair ∧ r.validFrom = t := by
    intro t
    refine ⟨h.exists_row, ?_⟩
    rintro ⟨r, hr, hh, rfl⟩
    exact (h.of_row hr hh).start_mem
  refine ⟨h.distinct, fun t stored => ⟨?_, fun hv => ?_⟩, fun r hr hh hnone r' hr' hh' => ?_,
    fun r hr hh u hu => ?_, fun t r hr r' hr' hh hh' hv hv' => ?_⟩
  · rintro ⟨r, hr, hh, rfl, rfl⟩
    exact (h.of_row hr hh).1
  · obtain ⟨r, hr, hh, rfl⟩ := h.exists_row (Timeline.mem_dom_of_value hv)
    have hvr : T.value r.validFrom = some r.rates := (h.of_row hr hh).1
    exact ⟨r, hr, hh, rfl, Option.some.inj (hvr.symm.trans hv)⟩
  · have hstop : r.validTo = T.next r.validFrom := (h.of_row hr hh).2
    exact Timeline.next_eq_none.mp (hstop.symm.trans hnone) _ (hdom.mpr ⟨r', hr', hh', rfl⟩)
  · have hstop : r.validTo = T.next r.validFrom := (h.of_row hr hh).2
    obtain ⟨hud, hlt, hmin⟩ := Timeline.next_eq_some.mp (hstop.symm.trans hu)
    exact ⟨⟨hlt, hdom.mp hud⟩, fun t ⟨htl, ht⟩ => hmin t (hdom.mpr ht) htl⟩
  · have hperiod : r.period = r'.period :=
      Timeline.inForce_unique (h.of_row hr hh) (h.of_row hr' hh') hv hv'
    exact h.distinct r hr r' hr' hh hh' (congrArg Period.start hperiod)

/-- Where the calls for a moment agree, what is written is what any of them writes. -/
theorem lastWritten_eq_some_iff_of_agree
    (hagree : ∀ c ∈ calls, ∀ c' ∈ calls, c.pair source = c'.pair source → c.atTime = c'.atTime →
      storeRates c.rates = storeRates c'.rates) {t : Timestamp} :
    lastWritten source calls pair t = some stored ↔
      ∃ c ∈ calls, c.pair source = pair ∧ c.atTime = t ∧ storeRates c.rates = some stored := by
  refine ⟨?_, ?_⟩
  · intro h
    obtain ⟨c, hc, hs⟩ := List.exists_of_findSome?_eq_some h
    split at hs
    · next hkey => exact ⟨c, List.mem_reverse.mp hc, hkey.1, hkey.2, hs⟩
    · cases hs
  · rintro ⟨c, hc, hp, ht, hs⟩
    rcases hlast : lastWritten source calls pair t with _ | stored'
    · have hno := List.findSome?_eq_none_iff.mp hlast c (List.mem_reverse.mpr hc)
      simp [hp, ht, hs] at hno
    · obtain ⟨c', hc', hs'⟩ := List.exists_of_findSome?_eq_some hlast
      split at hs'
      · next hkey =>
        rw [hagree c' (List.mem_reverse.mp hc') c hc (by rw [hkey.1, hp]) (by rw [hkey.2, ht]),
          hs] at hs'
        exact hs'.symm
      · cases hs'

/-- For distinct moments what is written does not depend on the order. -/
theorem lastWritten_eq_some_iff
    (hnd : (calls.map fun c => (c.pair source, c.atTime)).Nodup) {t : Timestamp} :
    lastWritten source calls pair t = some stored ↔
      ∃ c ∈ calls, c.pair source = pair ∧ c.atTime = t ∧ storeRates c.rates = some stored := by
  apply lastWritten_eq_some_iff_of_agree
  intro c hc c' hc' hpair htime
  rw [List.inj_on_of_nodup_map hnd hc hc' (by rw [hpair, htime])]

theorem timelineOf_perm (hperm : calls.Perm calls')
    (hnd : (calls.map fun c => (c.pair source, c.atTime)).Nodup) :
    timelineOf source calls pair = timelineOf source calls' pair := by
  have hnd' : (calls'.map fun c => (c.pair source, c.atTime)).Nodup :=
    (hperm.map _).nodup_iff.mp hnd
  ext1 t
  rw [timelineOf_value, timelineOf_value]
  apply Option.ext
  intro stored
  rw [lastWritten_eq_some_iff hnd, lastWritten_eq_some_iff hnd']
  exact exists_congr fun c => and_congr_left fun _ => hperm.mem_iff

/-- **Historical rates are in canonical form**: from a table without historical rows of the
source, any sequence of calls leaves the histories of all pairs canonical, touches no other
row, never meets the `RuntimeError`, and for distinct moments leaves the same periods in every
order. -/
theorem upsertAll_canonical (env : RateDbEnv)
    (hnone : ∀ r ∈ table, r.pair.source = source → r.lastPolledAt ≠ none)
    (calls : List HistoricalCall) :
    (∀ pair, pair.source = source →
      CanonicalHistory (upsertAll env source table calls) pair (lastWritten source calls pair)) ∧
    (∀ r : CurrencyRateRow,
      r.lastPolledAt ≠ none ∨ r.updateCadenceSeconds ≠ none ∨ r.pair.source ≠ source →
        (r ∈ upsertAll env source table calls ↔ r ∈ table)) ∧
    (∀ before c after, calls = before ++ c :: after → ∀ pair t n,
      upsertHistorical env (upsertAll env source table before) (c.pair source) c.rates c.atTime ≠
        .error (.invariantViolated pair t n)) ∧
    ∀ (env' : RateDbEnv) (calls' : List HistoricalCall), calls.Perm calls' →
      (calls.map fun c => (c.pair source, c.atTime)).Nodup → ∀ pair, pair.source = source →
        ∀ q, (∃ r ∈ upsertAll env source table calls, r.Historical pair ∧ r.period = q) ↔
          ∃ r ∈ upsertAll env' source table calls', r.Historical pair ∧ r.period = q := by
  have hempty : ∀ pair, pair.source = source → Slots table pair .empty :=
    fun pair hp => slots_empty hnone hp
  refine ⟨fun pair hp => ?_, fun r hr => ?_, fun before c after _ pair t n herr => ?_,
    fun env' calls' hperm hnd pair hp q => ?_⟩
  · have hvalue : (timelineOf source calls pair).value = lastWritten source calls pair :=
      funext fun t => timelineOf_value calls t
    rw [← hvalue]
    exact (upsertAll_slots hempty calls pair hp).canonical
  · by_cases hother : r.lastPolledAt ≠ none ∨ r.pair.source ≠ source
    · exact mem_upsertAll_of_other hempty hother calls
    -- a historical row of the source has no cadence, before and after
    obtain ⟨hpoll, hsource⟩ := not_or.mp hother
    rw [not_not] at hpoll hsource
    have hcadence : r.updateCadenceSeconds ≠ none := by
      rcases hr with hr | hr | hr
      · exact absurd hpoll hr
      · exact hr
      · exact absurd hsource hr
    refine iff_of_false (fun hmem => ?_) fun hmem => hnone r hmem hsource hpoll
    exact hcadence ((upsertAll_slots hempty calls r.pair hsource).cadence r hmem ⟨rfl, hpoll⟩)
  · rcases upsertHistorical_slots (upsertAll_slots hempty before (c.pair source) rfl) with
      ⟨-, he⟩ | ⟨_, _, -, he, -⟩ <;>
      · rw [he] at herr
        cases herr
  · rw [(upsertAll_slots hempty calls pair hp).periods,
      (upsertAll_slots hempty calls' pair hp).periods, timelineOf_perm hperm hnd]

/-- A polled rate of the bank, beside which it publishes historical ones. -/
def samplePolled : RateTable :=
  .insertIgnore .empty
    { id := 1, pair := ⟨"nbu", "USD", "UAH"⟩, rates := ⟨none, none, .nan⟩, validFrom := 5
      validTo := none, lastPolledAt := some 5, updateCadenceSeconds := some 300 }

/-- A publication without bid and ask, as the National Bank makes them. -/
def samplePublication (rateMid : ℚ) (atTime : Timestamp) : HistoricalCall :=
  ⟨"USD", "UAH", ⟨none, none, .finite rateMid⟩, atTime⟩

/-- Two moments, the later one first and then corrected. -/
theorem upsertAll_canonical_samplePolled :
    CanonicalHistory
      (upsertAll sampleRateDb "nbu" samplePolled
        [samplePublication 40 20, samplePublication 41 10, samplePublication 42 20])
      ⟨"nbu", "USD", "UAH"⟩
      (lastWritten "nbu"
        [samplePublication 40 20, samplePublication 41 10, samplePublication 42 20]
        ⟨"nbu", "USD", "UAH"⟩) := by
  have hnone : ∀ r ∈ samplePolled, r.pair.source = "nbu" → r.lastPolledAt ≠ none := by
    intro r hr _
    rcases KeyedTable.mem_of_mem_insertIgnore hr with hr | rfl
    · exact absurd hr KeyedTable.not_mem_empty
    · exact fun h => by cases h
  exact (upsertAll_canonical sampleRateDb hnone _).1 _ rfl

end Grosh
