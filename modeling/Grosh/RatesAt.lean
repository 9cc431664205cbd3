import Grosh.Pagination

/-!
# The rates at a moment

`GET /rates/at` answers the rows of `currency_rates` that are valid at a moment. Two writers share
the table: a poller extends or closes the open row of a pair, a backfill puts a publication into
the history of one, and neither looks at the rows of the other.

* `ratesSound_writeRates` — after any writes of both, the polled rows of every pair give the
  latest poll, and its historical rows are the periods of what was published;
* `ratesAt_of_writes` — so the answer is a function of the writes: for each pair that is asked for,
  the rates of its latest poll at or before the moment and those last published for the latest
  moment at or before it, each once, and nothing else.
-/

namespace Grosh

open PartialMap


/-! ## The query

The endpoint asks for the rows whose validity covers the moment, of the pairs the filters let
through, in the order of the collation. -/

/-- The parameters of `GET /rates/at`: a moment, and filters that may each be left out. -/
structure RatesAtQuery : Type where
  atTime : Timestamp
  source : Option String
  currencyFrom : Option String
  currencyTo : Option String

/-- The filters on the pair: one that is left out lets every pair through. -/
def RatesAtQuery.asks (q : RatesAtQuery) (pair : RatePair) : Bool :=
  q.source.all (fun s => decide (pair.source = s)) &&
    q.currencyFrom.all (fun c => decide (pair.currencyFrom = c)) &&
    q.currencyTo.all (fun c => decide (pair.currencyTo = c))

/-- The `WHERE` of `get_rates_at`: a row is valid from its start, and up to its end without it. -/
def ratesAtConditions (q : RatesAtQuery) (r : CurrencyRateRow) : Bool :=
  decide (r.validFrom ≤ q.atTime) && r.validTo.all (fun u => decide (q.atTime < u)) &&
    q.asks r.pair

/-- The collation of the database. Two texts may be equal to it without being the same. -/
structure Collation : Type where
  le : String → String → Bool
  total : ∀ a b, le a b = true ∨ le b a = true
  trans : ∀ a b c, le a b = true → le b c = true → le a c = true

/-- `ORDER BY source, currency_from, currency_to`, in the collation. -/
def Collation.pairLe (collation : Collation) (a b : RatePair) : Bool :=
  collation.le a.source b.source &&
    (!collation.le b.source a.source ||
      collation.le a.currencyFrom b.currencyFrom &&
        (!collation.le b.currencyFrom a.currencyFrom ||
          collation.le a.currencyTo b.currencyTo))

/-- `get_rates_at`: all rows of the query, sorted. A row that cannot be decoded or shown fails the
request. -/
def getRatesAt (env : RateDbEnv) (collation : Collation) (table : RateTable) (q : RatesAtQuery) :
    Except ListError (List RateResponse) :=
  let rows := (env.scan (table.rows.filter (ratesAtConditions q))).insertionSort fun a b =>
    collation.pairLe a.pair b.pair = true
  if rows.all rateListing.decodes = false then .error .unreadableRow
  else
    match rows.mapM rateListing.respond with
    | none => .error .unreadableRow
    | some items => .ok items

/-! ## The writers

The pollers and the backfills write into one table, each call in a transaction of its own. A
sequence of calls is any interleaving of theirs. -/

/-- A call that writes rates: a poll of a pair, or a publication of a source. -/
inductive RateWrite : Type where
  | poll (pair : RatePair) (c : PolledCall)
  | publish (source : String) (c : HistoricalCall)

/-- The table after a call, which has been committed or rolled back as a whole. -/
def RateWrite.apply (env : RateDbEnv) (table : RateTable) : RateWrite → RateTable
  | poll pair c => pollOne env pair table c
  | publish source c => upsertOne env source table c

/-- Calls one after another, on one table, each finding what the last has left. -/
def writeRates (env : RateDbEnv) (table : RateTable) (writes : List RateWrite) : RateTable :=
  writes.foldl (RateWrite.apply env) table

/-- The polls of a pair, in the order of the calls; those of other pairs are left out. -/
def pollsOf (pair : RatePair) (writes : List RateWrite) : List PolledCall :=
  writes.filterMap fun
    | .poll pair' c => if pair' = pair then some c else none
    | .publish _ _ => none

/-- What a source has published, in the order of the calls, for whichever pairs. -/
def publishedBy (source : String) (writes : List RateWrite) : List HistoricalCall :=
  writes.filterMap fun
    | .poll _ _ => none
    | .publish source' c => if source' = source then some c else none

/-- The rates last published for a moment of a pair: a later publication for the same moment
corrects the earlier one. -/
def lastPublished (writes : List RateWrite) (pair : RatePair) : Timestamp → Option StoredRates :=
  lastWritten pair.source (publishedBy pair.source writes) pair

/-- The pollers: the polls of a pair come at increasing moments and at the cadence of its source,
with rates that are stored as they are. -/
structure OrderlyPolls (cadence : String → ℤ) (writes : List RateWrite) : Prop where
  increasing : ∀ pair, (pollsOf pair writes).Pairwise fun p q => p.atTime < q.atTime
  representable : ∀ pair, ∀ p ∈ pollsOf pair writes, Representable p.rates
  atCadence : ∀ pair, ∀ p ∈ pollsOf pair writes, p.updateCadenceSeconds = cadence pair.source
  fits : ∀ source, fitsInteger (cadence source) = true

/-- What the writers know of a pair at a moment: the rates of its latest poll, and those last
published for the latest moment that has any. -/
inductive KnownAt (writes : List RateWrite) (t : Timestamp) (pair : RatePair) :
    Bool → RateValues → Prop where
  | polled (p : PolledCall) (h : IsLatest (pollsOf pair writes) t p) :
      KnownAt writes t pair true p.rates
  | published (u : Timestamp) (stored : StoredRates) (rates : RateValues)
      (h : IsGreatest {u | u ≤ t ∧ lastPublished writes pair u ≠ none} u)
      (hs : lastPublished writes pair u = some stored) (hr : stored.read = some rates) :
      KnownAt writes t pair false rates

/-- The pair a response is about, by its three fields. -/
def RateResponse.pair (i : RateResponse) : RatePair := ⟨i.source, i.currencyFrom, i.currencyTo⟩

/-- **The answer shows what is known**: in order, each pair once for each of its writers, and
nothing else. -/
structure ShowsKnown (collation : Collation) (writes : List RateWrite) (q : RatesAtQuery)
    (items : List RateResponse) : Prop where
  sorted : items.Pairwise fun a b => collation.pairLe a.pair b.pair = true
  nodup : (items.map fun i => (i.pair, i.lastPolledAt.isSome)).Nodup
  known : ∀ pair polled rates,
    (∃ i ∈ items, i.pair = pair ∧ i.lastPolledAt.isSome = polled ∧ i.rates = rates) ↔
      q.asks pair = true ∧ KnownAt writes q.atTime pair polled rates

/-! ## The rows of a writer depend on its calls alone

A poller looks at the polled rows of its pair, a backfill at the historical ones. Neither writes the
rows of the other. -/

variable {env : RateDbEnv} {table table' : RateTable} {pair : RatePair} {c : PolledCall}
  {r : CurrencyRateRow} {cadence : String → ℤ} {writes : List RateWrite} {w : RateWrite}
  {t : Timestamp} {n : ℤ} {polls : List PolledCall} {p p' : PolledCall}

/-- A poll leaves every row that is not a polled one of its pair. -/
theorem mem_pollOne_of_other (hr : ¬ r.Polled pair) :
    r ∈ pollOne env pair table c ↔ r ∈ table := by
  have hother : ∀ {cur : CurrencyRateRow}, cur ∈ table → cur.OpenPolled pair → r ∈ table →
      r.id ≠ cur.id := by
    intro cur hcur ho hmem hid
    exact hr (KeyedTable.eq_of_key_eq hmem hcur hid ▸ ho.1)
  have hm := pollOne_cases env pair table c
  generalize pollOne env pair table c = table' at hm
  cases hm with
  | raised _ => exact Iff.rfl
  | touched cur _ hcur ho _ =>
    rw [mem_setPolled hcur]
    refine ⟨?_, fun hmem => Or.inr ⟨hmem, hother hcur ho hmem⟩⟩
    rintro (rfl | ⟨hmem, -⟩)
    · exact absurd ⟨ho.1.1, Option.some_ne_none _⟩ hr
    · exact hmem
  | reopened cur stored _ hcur ho _ _ =>
    rw [mem_reopened hcur]
    refine ⟨?_, fun hmem => Or.inr (Or.inr ⟨hmem, hother hcur ho hmem⟩)⟩
    rintro (rfl | rfl | ⟨hmem, -⟩)
    · exact absurd ⟨rfl, Option.some_ne_none _⟩ hr
    · exact absurd ho.1 hr
    · exact hmem
  | opened stored _ _ _ =>
    rw [mem_insert_opened]
    refine ⟨?_, Or.inl⟩
    rintro (hmem | rfl)
    · exact hmem
    · exact absurd ⟨rfl, Option.some_ne_none _⟩ hr

/-- What is tracked depends on the polled rows of the pair alone. -/
theorem Tracks.of_mem_iff (h : Tracks pair n polls table)
    (hmem : ∀ r : CurrencyRateRow, r.Polled pair → (r ∈ table' ↔ r ∈ table)) :
    Tracks pair n polls table' where
  sound :=
    { lastPolledAt := fun r hr hp => h.sound.lastPolledAt r ((hmem r hp).mp hr) hp
      validTo := fun r hr hp => h.sound.validTo r ((hmem r hp).mp hr) hp
      disjoint := fun r hr r' hr' hp hp' =>
        h.sound.disjoint r ((hmem r hp).mp hr) r' ((hmem r' hp').mp hr') hp hp'
      openRow := fun ⟨r, hr, hp⟩ => by
        obtain ⟨cur, hcur, ho, hone⟩ := h.sound.openRow ⟨r, (hmem r hp).mp hr, hp⟩
        exact ⟨cur, (hmem cur ho.1).mpr hcur, ho, fun r' hr' ho' =>
          hone r' ((hmem r' ho'.1).mp hr') ho'⟩ }
  current := fun r hr hp => h.current r ((hmem r hp).mp hr) hp
  covered := fun p hp t ht => by
    obtain ⟨r, hr, hrp, hv⟩ := h.covered p hp t ht
    exact ⟨r, (hmem r hrp).mpr hr, hrp, hv⟩
  polledAt := fun r hr hp => h.polledAt r ((hmem r hp).mp hr) hp
  cadence := fun r hr hp => h.cadence r ((hmem r hp).mp hr) hp

/-- **What the table says about the writes**: of every pair, its polled rows are those of its polls,
and its historical ones those of its source. -/
structure RatesSound (cadence : String → ℤ) (writes : List RateWrite) (table : RateTable) :
    Prop where
  polled : ∀ pair, Tracks pair (cadence pair.source) (pollsOf pair writes) table
  published : ∀ pair,
    Slots table pair (timelineOf pair.source (publishedBy pair.source writes) pair)

theorem pollsOf_append (before after : List RateWrite) :
    pollsOf pair (before ++ after) = pollsOf pair before ++ pollsOf pair after :=
  List.filterMap_append

theorem publishedBy_append (source : String) (before after : List RateWrite) :
    publishedBy source (before ++ after) = publishedBy source before ++ publishedBy source after :=
  List.filterMap_append

theorem OrderlyPolls.of_append {before after : List RateWrite}
    (h : OrderlyPolls cadence (before ++ after)) : OrderlyPolls cadence before := by
  have hsub : ∀ {pair p}, p ∈ pollsOf pair before → p ∈ pollsOf pair (before ++ after) := by
    intro pair p hp
    rw [pollsOf_append]
    exact List.mem_append_left _ hp
  refine ⟨fun pair => ?_, fun pair p hp => h.representable pair p (hsub hp),
    fun pair p hp => h.atCadence pair p (hsub hp), h.fits⟩
  have hinc := h.increasing pair
  rw [pollsOf_append] at hinc
  exact (List.pairwise_append.mp hinc).1

/-- A poll, which no backfill and no other pair notices. -/
theorem RatesSound.poll (h : RatesSound cadence writes table)
    (hw : OrderlyPolls cadence (writes ++ [.poll pair c])) :
    RatesSound cadence (writes ++ [.poll pair c]) (pollOne env pair table c) where
  polled pair' := by
    -- the last poll of the pair is later than all before it
    by_cases heq : pair = pair'
    · subst heq
      have hpolls : pollsOf pair (writes ++ [.poll pair c]) = pollsOf pair writes ++ [c] := by
        rw [pollsOf_append]
        simp [pollsOf]
      have hc : c ∈ pollsOf pair (writes ++ [.poll pair c]) := by
        rw [hpolls]
        exact List.mem_append_right _ (List.mem_singleton_self c)
      have hinc := hw.increasing pair
      rw [hpolls] at hinc ⊢
      have hcad := hw.atCadence pair c hc
      refine (h.polled pair).poll (fun p hp => ?_) (hw.representable pair c hc) ?_ hcad
      · exact (List.pairwise_append.mp hinc).2.2 p hp c (List.mem_singleton_self c)
      · rw [hcad]
        exact hw.fits _
    · have hpolls : pollsOf pair' (writes ++ [.poll pair c]) = pollsOf pair' writes := by
        rw [pollsOf_append]
        simp [pollsOf, heq]
      rw [hpolls]
      refine (h.polled pair').of_mem_iff fun r hr => mem_pollOne_of_other fun hr' => ?_
      exact heq (hr'.1.symm.trans hr.1)
  published pair' := by
    have hpublished : publishedBy pair'.source (writes ++ [.poll pair c]) =
        publishedBy pair'.source writes := by
      rw [publishedBy_append]
      simp [publishedBy]
    rw [hpublished]
    refine (h.published pair').of_mem_iff fun r hr => mem_pollOne_of_other fun hp => ?_
    exact hp.2 hr.2

/-- A publication, which no poller notices. -/
theorem RatesSound.publish (h : RatesSound cadence writes table) (source : String)
    (c : HistoricalCall) :
    RatesSound cadence (writes ++ [.publish source c]) (upsertOne env source table c) := by
  have hbefore : ∀ pair, pair.source = source →
      Slots table pair (timelineOf source (publishedBy source writes) pair) := by
    intro pair hp
    subst hp
    exact h.published pair
  obtain ⟨hslots, huntouched⟩ : (∀ pair, pair.source = source →
      Slots (upsertOne env source table c) pair
        (c.write source pair (timelineOf source (publishedBy source writes) pair))) ∧
      Untouched (c.pair source) table (upsertOne env source table c) := upsertOne_slots hbefore
  refine ⟨fun pair => ?_, fun pair => ?_⟩
  · have hpolls : pollsOf pair (writes ++ [.publish source c]) = pollsOf pair writes := by
      rw [pollsOf_append]
      simp [pollsOf]
    rw [hpolls]
    exact (h.polled pair).of_mem_iff fun r hr => huntouched r fun hh => hr.2 hh.2
  · -- the history of a pair changes only where its source publishes
    by_cases heq : source = pair.source
    · subst heq
      have hpublished : publishedBy pair.source (writes ++ [.publish pair.source c]) =
          publishedBy pair.source writes ++ [c] := by
        rw [publishedBy_append]
        simp [publishedBy]
      rw [hpublished, timelineOf, List.foldl_append]
      exact hslots pair rfl
    · have hpublished : publishedBy pair.source (writes ++ [.publish source c]) =
          publishedBy pair.source writes := by
        rw [publishedBy_append]
        simp [publishedBy, heq]
      rw [hpublished]
      refine (h.published pair).of_mem_iff fun r hr => huntouched r fun hh => heq ?_
      exact congrArg RatePair.source (hh.1.symm.trans hr.1)

/-- **The table after any writes**, by induction on them. -/
theorem ratesSound_writeRates (h : OrderlyPolls cadence writes) :
    RatesSound cadence writes (writeRates env .empty writes) := by
  induction writes using List.reverseRecOn with
  | nil =>
    exact ⟨fun _ => tracks_nil fun _ hr => absurd hr KeyedTable.not_mem_empty,
      fun pair => slots_empty (fun _ hr => absurd hr KeyedTable.not_mem_empty) rfl⟩
  | append_singleton writes w ih =>
    rw [writeRates, List.foldl_append]
    have hsound := ih h.of_append
    cases w with
    | poll pair c => exact hsound.poll h
    | publish source c => exact hsound.publish source c

/-! ## What is valid at a moment

The rows of one writer do not overlap, so at a moment it has one of a pair at most. -/

theorem IsLatest.find?_eq (h : IsLatest polls t p) :
    polls.reverse.find? (fun q => decide (q.atTime ≤ t)) = some p := by
  obtain ⟨before, after, rfl, hp, hafter⟩ := h
  have hnone : after.reverse.find? (fun q => decide (q.atTime ≤ t)) = none := by
    refine List.find?_eq_none.mpr fun q hq hle => ?_
    exact absurd (of_decide_eq_true hle) (not_le.mpr (hafter q (List.mem_reverse.mp hq)))
  rw [List.reverse_append, List.reverse_cons, List.append_assoc, List.find?_append, hnone,
    Option.none_or, List.singleton_append]
  exact List.find?_cons_of_pos (decide_eq_true hp)

theorem IsLatest.unique (h : IsLatest polls t p) (h' : IsLatest polls t p') : p = p' :=
  Option.some.inj (h.find?_eq.symm.trans h'.find?_eq)

theorem IsLatest.mem_le (h : IsLatest polls t p) : p ∈ polls ∧ p.atTime ≤ t := by
  obtain ⟨before, after, rfl, hp, -⟩ := h
  exact ⟨List.mem_append_right _ (List.mem_cons_self ..), hp⟩

/-- A polled row that is valid gives the rates of the latest poll, and from the first poll on there
is one. -/
theorem RatesSound.polled_iff (h : RatesSound cadence writes table) {rates : RateValues} :
    (∃ r ∈ table, r.Polled pair ∧ r.ValidAt t ∧ r.rates.read = some rates) ↔
      KnownAt writes t pair true rates := by
  refine ⟨?_, ?_⟩
  · rintro ⟨r, hr, hp, hv, hread⟩
    obtain ⟨p, hlatest, heq⟩ := (h.polled pair).current r hr hp t hv
    obtain rfl := Option.some.inj ((read_of_equal heq).symm.trans hread)
    exact .polled p hlatest
  · rintro ⟨p, hlatest⟩
    obtain ⟨hmem, hle⟩ := hlatest.mem_le
    obtain ⟨r, hr, hp, hv⟩ := (h.polled pair).covered p hmem t hle
    obtain ⟨p', hlatest', heq⟩ := (h.polled pair).current r hr hp t hv
    obtain rfl := hlatest.unique hlatest'
    exact ⟨r, hr, hp, hv, read_of_equal heq⟩

/-- A historical row that is valid gives what was last published for the latest moment before. -/
theorem RatesSound.published_iff (h : RatesSound cadence writes table) {rates : RateValues} :
    (∃ r ∈ table, r.Historical pair ∧ r.ValidAt t ∧ r.rates.read = some rates) ↔
      KnownAt writes t pair false rates := by
  have hvalue : ∀ u, (timelineOf pair.source (publishedBy pair.source writes) pair).value u =
      lastPublished writes pair u := fun u => timelineOf_value _ u
  have hdom : {u | u ∈ (timelineOf pair.source (publishedBy pair.source writes) pair).dom ∧
      u ≤ t} = {u | u ≤ t ∧ lastPublished writes pair u ≠ none} := by
    ext u
    refine Iff.trans (and_congr_left' ?_) and_comm
    rw [Timeline.mem_dom, hvalue, Option.isSome_iff_ne_none]
  refine ⟨?_, ?_⟩
  · -- a valid row is a period in force, which starts at the last moment published
    rintro ⟨r, hr, hh, hv, hread⟩
    have hperiod := (h.published pair).of_row hr hh
    have hgreatest := hperiod.inForce_iff.mp hv
    rw [hdom] at hgreatest
    exact .published r.validFrom r.rates rates hgreatest ((hvalue _).symm.trans hperiod.1) hread
  · intro hknown
    cases hknown with
    | published u stored _ hgreatest hs hread =>
      obtain ⟨p, hperiod, rfl⟩ := Timeline.exists_isPeriod
        (Timeline.mem_dom_of_value ((hvalue u).trans hs))
      obtain ⟨r, hr, hh, rfl⟩ := ((h.published pair).periods p).mpr hperiod
      rw [← hdom] at hgreatest
      have hrates : stored = r.rates :=
        Option.some.inj ((hs.symm.trans (hvalue _).symm).trans hperiod.1)
      exact ⟨r, hr, hh, hperiod.inForce_iff.mpr hgreatest, hrates ▸ hread⟩

/-- **The valid rows of a writer are what it knows**, of pollers and of backfills alike. -/
theorem RatesSound.known_iff (h : RatesSound cadence writes table) {polled : Bool}
    {rates : RateValues} :
    (∃ r ∈ table, r.pair = pair ∧ r.lastPolledAt.isSome = polled ∧ r.ValidAt t ∧
      r.rates.read = some rates) ↔ KnownAt writes t pair polled rates := by
  cases polled with
  | true =>
    rw [← h.polled_iff]
    simp only [CurrencyRateRow.Polled, Option.isSome_iff_ne_none, and_assoc]
  | false =>
    rw [← h.published_iff]
    simp only [CurrencyRateRow.Historical, Option.isSome_eq_false_iff, Option.isNone_iff_eq_none,
      and_assoc]

/-- Of the rows of one writer and one pair one is valid at a moment, and no other. -/
theorem RatesSound.unique (h : RatesSound cadence writes table) {r' : CurrencyRateRow}
    (hr : r ∈ table) (hr' : r' ∈ table) (hpair : r.pair = r'.pair)
    (hwriter : r.lastPolledAt.isSome = r'.lastPolledAt.isSome) (hv : r.ValidAt t)
    (hv' : r'.ValidAt t) : r = r' := by
  by_cases hp : r.lastPolledAt = none
  · have hp' : r'.lastPolledAt = none := by
      rw [hp] at hwriter
      exact Option.isSome_eq_false_iff.mp hwriter.symm |> Option.isNone_iff_eq_none.mp
    exact (h.published r'.pair).canonical.validAt t r hr r' hr' ⟨hpair, hp⟩ ⟨rfl, hp'⟩ hv hv'
  · have hp' : r'.lastPolledAt ≠ none := by
      rw [Option.isSome_iff_ne_none.mpr hp] at hwriter
      exact Option.isSome_iff_ne_none.mp hwriter.symm
    by_contra hne
    exact (h.polled r'.pair).sound.disjoint r hr r' hr' ⟨hpair, hp⟩ ⟨rfl, hp'⟩ hne t ⟨hv, hv'⟩

/-! ## The answer

The rows that are found are sorted and shown. A row that cannot be shown fails the request as a
whole. -/

section Answer

variable {collation : Collation} {q : RatesAtQuery} {items : List RateResponse} {i : RateResponse}

theorem ratesAtConditions_iff :
    ratesAtConditions q r = true ↔ r.ValidAt q.atTime ∧ q.asks r.pair = true := by
  simp only [ratesAtConditions, Bool.and_eq_true, decide_eq_true_eq, Option.all_eq_true,
    CurrencyRateRow.ValidAt]

/-- What the response shows of a row: its pair, its rates and its last poll. -/
theorem respond_eq_some (h : rateListing.respond r = some i) :
    i.pair = r.pair ∧ i.lastPolledAt = r.lastPolledAt ∧ r.rates.read = some i.rates := by
  obtain ⟨rates, hread, hi⟩ := Option.bind_eq_some_iff.mp h
  obtain rfl := Option.some.inj hi
  exact ⟨rfl, rfl, hread⟩

theorem Collation.pairLe_total (collation : Collation) (a b : RatePair) :
    collation.pairLe a b = true ∨ collation.pairLe b a = true := by
  have hs := collation.total a.source b.source
  have hf := collation.total a.currencyFrom b.currencyFrom
  have ht := collation.total a.currencyTo b.currencyTo
  simp only [pairLe]
  grind

theorem Collation.pairLe_trans (collation : Collation) {a b c : RatePair}
    (hab : collation.pairLe a b = true) (hbc : collation.pairLe b c = true) :
    collation.pairLe a c = true := by
  have htrans := collation.trans
  simp only [pairLe] at *
  grind

/-- An answer is made of rows in the order of the query. -/
theorem getRatesAt_eq_ok (h : getRatesAt env collation table q = .ok items) :
    ∃ rows : List CurrencyRateRow, rows.Perm (table.rows.filter (ratesAtConditions q)) ∧
      (rows.Pairwise fun a b => collation.pairLe a.pair b.pair = true) ∧
      rows.mapM rateListing.respond = some items := by
  have htotal : Std.Total fun a b : CurrencyRateRow => collation.pairLe a.pair b.pair = true :=
    ⟨fun a b => collation.pairLe_total a.pair b.pair⟩
  have htrans : IsTrans CurrencyRateRow fun a b => collation.pairLe a.pair b.pair = true :=
    ⟨fun _ _ _ => collation.pairLe_trans⟩
  simp only [getRatesAt] at h
  split at h
  · cases h
  · split at h
    · cases h
    · next items' hitems =>
      obtain rfl := Except.ok.inj h
      exact ⟨_, (List.perm_insertionSort _ _).trans (env.scan_perm _),
        List.pairwise_insertionSort _ _, hitems⟩

/-- A request is answered, or there is a row that cannot be shown. -/
theorem getRatesAt_cases (env : RateDbEnv) (collation : Collation) (table : RateTable)
    (q : RatesAtQuery) :
    (∃ items, getRatesAt env collation table q = .ok items) ∨
      getRatesAt env collation table q = .error .unreadableRow ∧
        ∃ r ∈ table, ratesAtConditions q r = true ∧ ¬ rateListing.Readable r := by
  by_cases hread : ∀ r ∈ table, ratesAtConditions q r = true → rateListing.Readable r
  · left
    have hrows : ∀ r ∈ (env.scan (table.rows.filter (ratesAtConditions q))).insertionSort
        (fun a b => collation.pairLe a.pair b.pair = true), rateListing.Readable r := by
      intro r hr
      rw [List.mem_insertionSort, (env.scan_perm _).mem_iff, List.mem_filter] at hr
      exact hread r hr.1 hr.2
    obtain ⟨items, hitems⟩ := Listing.exists_items hrows
    have hdecodes := List.all_eq_true.mpr fun r hr => (hrows r hr).1
    exact ⟨items, by simp only [getRatesAt, hdecodes, hitems, Bool.true_eq_false, if_false]⟩
  · push Not at hread
    simp only [getRatesAt]
    split
    · exact Or.inr ⟨rfl, hread⟩
    · split
      · exact Or.inr ⟨rfl, hread⟩
      · next items _ => exact Or.inl ⟨items, rfl⟩

/-- The items show the rows that were found, and nothing else. -/
theorem exists_item_iff {rows : List CurrencyRateRow}
    (hmap : rows.mapM rateListing.respond = some items) {polled : Bool} {rates : RateValues} :
    (∃ i ∈ items, i.pair = pair ∧ i.lastPolledAt.isSome = polled ∧ i.rates = rates) ↔
      ∃ r ∈ rows, r.pair = pair ∧ r.lastPolledAt.isSome = polled ∧ r.rates.read = some rates := by
  refine ⟨?_, ?_⟩
  · rintro ⟨i, hi, rfl, rfl, rfl⟩
    obtain ⟨r, hr, hri⟩ := exists_of_mem_mapM hmap hi
    obtain ⟨hpair, hlast, hread⟩ := respond_eq_some hri
    exact ⟨r, hr, hpair.symm, by rw [hlast], hread⟩
  · rintro ⟨r, hr, rfl, rfl, hread⟩
    have hmem := List.mem_map_of_mem (f := rateListing.respond) hr
    rw [mapM_eq_some_iff.mp hmap] at hmem
    obtain ⟨i, hi, heq⟩ := List.mem_map.mp hmem
    obtain ⟨hpair, hlast, hread'⟩ := respond_eq_some heq.symm
    exact ⟨i, hi, hpair, by rw [hlast], Option.some.inj (hread'.symm.trans hread)⟩

/-- The rows of a sound table that are answered show what is known. -/
theorem RatesSound.showsKnown (h : RatesSound cadence writes table)
    (hitems : getRatesAt env collation table q = .ok items) :
    ShowsKnown collation writes q items := by
  obtain ⟨rows, hperm, hsorted, hmap⟩ := getRatesAt_eq_ok hitems
  have hmem : ∀ r, r ∈ rows ↔ r ∈ table ∧ r.ValidAt q.atTime ∧ q.asks r.pair = true := by
    intro r
    rw [hperm.mem_iff, List.mem_filter, ratesAtConditions_iff]
    exact Iff.rfl
  refine ⟨?_, ?_, fun pair polled rates => ?_⟩
  · have hpairs : items.map RateResponse.pair = rows.map CurrencyRateRow.pair :=
      map_eq_of_mapM_eq_some (fun _ _ hr => (respond_eq_some hr).1) hmap
    have hsorted' : (rows.map CurrencyRateRow.pair).Pairwise fun a b =>
        collation.pairLe a b = true := List.pairwise_map.mpr hsorted
    rw [← hpairs] at hsorted'
    exact List.pairwise_map.mp hsorted'
  · have hkeys : items.map (fun i => (i.pair, i.lastPolledAt.isSome)) =
        rows.map fun r => (r.pair, r.lastPolledAt.isSome) :=
      map_eq_of_mapM_eq_some (fun _ _ hr => by
        rw [(respond_eq_some hr).1, (respond_eq_some hr).2.1]) hmap
    have hrows : rows.Nodup := hperm.nodup_iff.mpr (table.nodup.of_map _ |>.filter _)
    rw [hkeys]
    apply hrows.map_on
    intro r hr r' hr' heq
    obtain ⟨hr, hv, -⟩ := (hmem r).mp hr
    obtain ⟨hr', hv', -⟩ := (hmem r').mp hr'
    obtain ⟨hpair, hwriter⟩ := Prod.mk.inj heq
    exact h.unique hr hr' hpair hwriter hv hv'
  · -- an item stands for a row of the writer, and the row for what it knows
    rw [exists_item_iff hmap, ← h.known_iff]
    refine ⟨?_, ?_⟩
    · rintro ⟨r, hr, rfl, hwriter, hread⟩
      obtain ⟨hr, hv, hasks⟩ := (hmem r).mp hr
      exact ⟨hasks, r, hr, rfl, hwriter, hv, hread⟩
    · rintro ⟨hasks, r, hr, rfl, hwriter, hv, hread⟩
      exact ⟨r, (hmem r).mpr ⟨hr, hv, hasks⟩, rfl, hwriter, hread⟩

end Answer

/-- **The rates at a moment are those of the writers**: after any writes of pollers and backfills,
the answer shows for each pair that is asked for the rates of its latest poll at or before the
moment and those last published for the latest moment at or before it, each once and in order, and
nothing else; there is no answer only where a row that is valid cannot be shown. -/
theorem ratesAt_of_writes (env env' : RateDbEnv) (collation : Collation)
    (h : OrderlyPolls cadence writes) (q : RatesAtQuery) :
    (∃ items, getRatesAt env' collation (writeRates env .empty writes) q = .ok items ∧
      ShowsKnown collation writes q items) ∨
    getRatesAt env' collation (writeRates env .empty writes) q = .error .unreadableRow ∧
      ∃ r ∈ writeRates env .empty writes,
        ratesAtConditions q r = true ∧ ¬ rateListing.Readable r := by
  have hsound : RatesSound cadence writes (writeRates env .empty writes) :=
    ratesSound_writeRates h
  rcases getRatesAt_cases env' collation (writeRates env .empty writes) q with
    ⟨items, hitems⟩ | herr
  · exact Or.inl ⟨items, hitems, hsound.showsKnown hitems⟩
  · exact Or.inr herr

/-- Texts by their code points, as the collation `C` has it. -/
def sampleCollation : Collation where
  le a b := decide (a ≤ b)
  total a b := by
    rcases String.le_total a b with h | h
    · exact Or.inl (decide_eq_true h)
    · exact Or.inr (decide_eq_true h)
  trans a b c hab hbc :=
    decide_eq_true (String.le_trans (of_decide_eq_true hab) (of_decide_eq_true hbc))

/-- A pair is polled twice, and published for a moment before. -/
def sampleWrites : List RateWrite :=
  [.poll samplePair (samplePoll 40 10), .publish "monobank" (samplePublication 39 5),
    .poll samplePair (samplePoll 41 20)]

/-- Between the polls there are two rates of the pair, one of each writer. -/
theorem ratesAt_of_writes_sample : ∃ items,
    getRatesAt sampleRateDb sampleCollation (writeRates sampleRateDb .empty sampleWrites)
      ⟨15, none, some "USD", none⟩ = .ok items ∧
    items.length = 2 ∧
    ShowsKnown sampleCollation sampleWrites ⟨15, none, some "USD", none⟩ items := by
  have horderly : OrderlyPolls (fun _ => 300) sampleWrites := by
    have hpolls : ∀ pair, pollsOf pair sampleWrites = [] ∨
        pollsOf pair sampleWrites = [samplePoll 40 10, samplePoll 41 20] := by
      intro pair
      by_cases heq : samplePair = pair
      · right
        simp [pollsOf, sampleWrites, heq]
      · left
        simp [pollsOf, sampleWrites, heq]
    have hmem : ∀ {pair p}, p ∈ pollsOf pair sampleWrites →
        p = samplePoll 40 10 ∨ p = samplePoll 41 20 := by
      intro pair p hp
      rcases hpolls pair with h | h
      · simp [h] at hp
      · simpa [h] using hp
    refine ⟨fun pair => ?_, fun pair p hp => ?_, fun pair p hp => ?_, fun _ => by decide⟩
    · rcases hpolls pair with h | h
      · rw [h]
        exact List.Pairwise.nil
      · rw [h]
        simp [samplePoll]
    · rcases hmem hp with rfl | rfl
      · exact ⟨⟨none, none, .units 4000000000 (by decide)⟩, by decide +kernel, by decide +kernel⟩
      · exact ⟨⟨none, none, .units 4100000000 (by decide)⟩, by decide +kernel, by decide +kernel⟩
    · rcases hmem hp with rfl | rfl <;> rfl
  have hlength : (getRatesAt sampleRateDb sampleCollation
      (writeRates sampleRateDb .empty sampleWrites) ⟨15, none, some "USD", none⟩).toOption.map
        List.length = some 2 := by decide +kernel
  rcases ratesAt_of_writes sampleRateDb sampleRateDb sampleCollation horderly
    ⟨15, none, some "USD", none⟩ with ⟨items, hitems, hknown⟩ | ⟨herr, -⟩
  · rw [hitems] at hlength
    exact ⟨items, hitems, Option.some.inj hlength, hknown⟩
  · rw [herr] at hlength
    cases hlength

end Grosh
