import Grosh.PolledRates
import Mathlib.Data.List.Sort

/-!
# The fresh rate of a moment

Enrichment reads what the pollers wrote: `find_fresh_rate` looks for a polled row that is valid
at the moment of a transaction and was polled recently enough. Two services, one table: a
reader that sees the compressed rows must get what the plain list of polls would give.

The polls that a row stands for are not in the table any more; a row has only its first and its
last. So what is kept along the polls is a relation between the list of polls and the rows, which
says of every moment which poll the valid row speaks for.

* `findFreshRate_of_polls` — after polls at increasing moments, a row is found exactly within
  the tolerance of the row that covers the moment, and it has the rates of the latest poll at or
  before it, as long as the tolerance in seconds is an `INTEGER`.
-/

namespace Grosh

/-! ## The query

The reader trusts a polled row for a while after its last poll: for as many intervals of the poller
as the tolerance says. -/

/-- What `find_fresh_rate` can raise. The conversion that has asked raises with it. -/
inductive RateQueryError : Type where
  /-- a parameter or a product outside the range of `INTEGER` -/
  | integerOutOfRange
  /-- the model rejects the row: a rate is not a finite number -/
  | validationError
  deriving DecidableEq

/-- A stored value as a `Decimal` the model accepts: `NaN` is none. -/
def Numeric.toFinite : Numeric → Option Decimal
  | .units n _ => some (.finite ((n : ℚ) / 10 ^ 8))
  | .nan => none

/-- A nullable rate column as the model reads it; a `NULL` is a missing rate. -/
def readRate : Option Numeric → Option (Option Decimal)
  | none => some none
  | some x => x.toFinite.map some

/-- The rate columns as the model reads them: one that is no number fails the row. -/
def StoredRates.read (stored : StoredRates) : Option RateValues := do
  let rateBuy ← readRate stored.rateBuy
  let rateSell ← readRate stored.rateSell
  let rateMid ← stored.rateMid.toFinite
  return ⟨rateBuy, rateSell, rateMid⟩

/-- `RateRow`: what the conversion sees of a row. -/
structure RateRow : Type where
  id : UUID
  source : String
  rates : RateValues
  lastPolledAt : Option Timestamp
  updateCadenceSeconds : Option ℤ
  validFrom : Option Timestamp
  validTo : Option Timestamp
  proximitySeconds : Option ℤ

/-- `_row`: the row as it is read, or the error of the model. -/
def RateRow.ofRow (source : String) (r : CurrencyRateRow) : Except RateQueryError RateRow :=
  match r.rates.read with
  | none => .error .validationError
  | some rates =>
    .ok {
      id := r.id
      source := source
      rates := rates
      lastPolledAt := r.lastPolledAt
      updateCadenceSeconds := r.updateCadenceSeconds
      validFrom := some r.validFrom
      validTo := r.validTo
      proximitySeconds := none }

/-- The conditions of the query on the validity window: a polled row, valid at the moment. -/
def coversMoment (pair : RatePair) (atTime : Timestamp) (r : CurrencyRateRow) : Bool :=
  decide (r.pair = pair) && r.lastPolledAt.isSome && r.updateCadenceSeconds.isSome &&
    decide (r.validFrom ≤ atTime) && r.validTo.all fun validTo => decide (atTime < validTo)

/-- `last_polled_at + (update_cadence_seconds * $5) * INTERVAL '1 second' >= $4`: the last poll was
recent enough. -/
def graceReaches (pollTolerance : ℤ) (atTime : Timestamp) (r : CurrencyRateRow) : Bool :=
  match r.lastPolledAt, r.updateCadenceSeconds with
  | some lastPolledAt, some cadence =>
    decide (atTime ≤ lastPolledAt + cadence * pollTolerance * second)
  | _, _ => false

/-- The product of the last condition is an `INTEGER`, as the database computes it. -/
def graceFits (pollTolerance : ℤ) (r : CurrencyRateRow) : Bool :=
  r.updateCadenceSeconds.all fun cadence => fitsInteger (cadence * pollTolerance)

/-- `ORDER BY valid_from DESC`: where several rows cover the moment, the one that started last. -/
def newestFirst (a b : CurrencyRateRow) : Prop := b.validFrom ≤ a.validFrom

instance : DecidableRel newestFirst := fun _ _ => inferInstanceAs (Decidable (_ ≤ _))

/-- `CurrencyRateRepo.find_fresh_rate`. The conditions are evaluated in order, so only a row
that meets the others can overflow the last one. -/
def findFreshRate (env : RateDbEnv) (table : RateTable) (pair : RatePair) (atTime : Timestamp)
    (pollTolerance : ℤ) : Except RateQueryError (Option RateRow) :=
  let covering := table.rows.filter (coversMoment pair atTime)
  if fitsInteger pollTolerance = false then .error .integerOutOfRange
  else if covering.all (graceFits pollTolerance) = false then .error .integerOutOfRange
  else
    match ((env.scan (covering.filter (graceReaches pollTolerance atTime))).insertionSort
        newestFirst).head? with
    | none => .ok none
    | some r => (RateRow.ofRow pair.source r).map some

/-! ## What the rows say about the polls

The reader sees rows, the writer has made polls. A row stands for the polls that have extended it,
and says what the latest of them was. -/

variable {env : RateDbEnv} {table : RateTable} {pair : RatePair} {c p q : PolledCall}
  {polls : List PolledCall} {t : Timestamp} {r : CurrencyRateRow} {cadence pollTolerance : ℤ}

/-- The polls of a pair, one after another, each in its own transaction. -/
def pollAll (env : RateDbEnv) (pair : RatePair) (table : RateTable) (polls : List PolledCall) :
    RateTable :=
  polls.foldl (pollOne env pair) table

/-- The rates are stored as they are, and read back as such. -/
def Representable (rates : RateValues) : Prop :=
  ∃ stored, storeRates rates = some stored ∧ ratesEqual stored rates = true

/-- The latest poll at or before a moment: those after it in the sequence come later. -/
def IsLatest (polls : List PolledCall) (t : Timestamp) (p : PolledCall) : Prop :=
  ∃ before after, polls = before ++ p :: after ∧ p.atTime ≤ t ∧ ∀ q ∈ after, t < q.atTime

theorem isLatest_concat_of_le (h : c.atTime ≤ t) : IsLatest (polls ++ [c]) t c :=
  ⟨polls, [], rfl, h, fun _ hq => absurd hq List.not_mem_nil⟩

theorem IsLatest.concat (h : IsLatest polls t p) (hlt : t < c.atTime) :
    IsLatest (polls ++ [c]) t p := by
  obtain ⟨before, after, rfl, hp, hafter⟩ := h
  refine ⟨before, after ++ [c], by rw [List.append_assoc, List.cons_append], hp, fun q hq => ?_⟩
  rcases List.mem_append.mp hq with hq | hq
  · exact hafter q hq
  · rw [List.mem_singleton.mp hq]
    exact hlt

theorem readRate_of_equal {x : Option Numeric} {d : Option Decimal} (h : rateEqual x d = true) :
    readRate x = some d := by
  rcases x with _ | ⟨n, hn⟩ | _ <;> rcases d with _ | q | _ | _ <;> try cases h
  · rfl
  · have hq : (n : ℚ) / 10 ^ 8 = q := of_decide_eq_true h
    simp only [readRate, Numeric.toFinite, hq, Option.map_some]

/-- Rates equal to the stored ones are read back as what was passed. -/
theorem read_of_equal {stored : StoredRates} {rates : RateValues}
    (h : ratesEqual stored rates = true) : stored.read = some rates := by
  simp only [ratesEqual, Bool.and_eq_true] at h
  obtain ⟨⟨hbuy, hsell⟩, hmid⟩ := h
  have hmid' : readRate (some stored.rateMid) = some (some rates.rateMid) :=
    readRate_of_equal hmid
  simp only [readRate, Option.map_eq_some_iff, Option.some.injEq, exists_eq_right] at hmid'
  simp only [StoredRates.read, readRate_of_equal hbuy, readRate_of_equal hsell, hmid']
  rfl

/-- **The polled rows of the pair give every moment the rates of its latest poll.** -/
structure Tracks (pair : RatePair) (cadence : ℤ) (polls : List PolledCall) (table : RateTable) :
    Prop where
  sound : PolledSound pair table
  current : ∀ r ∈ table, r.Polled pair → ∀ t, r.ValidAt t →
    ∃ p, IsLatest polls t p ∧ ratesEqual r.rates p.rates = true
  covered : ∀ p ∈ polls, ∀ t, p.atTime ≤ t → ∃ r ∈ table, r.Polled pair ∧ r.ValidAt t
  polledAt : ∀ r ∈ table, r.Polled pair → ∀ q, r.lastPolledAt = some q →
    ∃ p ∈ polls, p.atTime = q
  cadence : ∀ r ∈ table, r.Polled pair → r.updateCadenceSeconds = some cadence

theorem tracks_nil (h : ∀ r ∈ table, ¬ r.Polled pair) : Tracks pair cadence [] table where
  sound := polledSound_of_none h
  current := fun r hr hp => absurd hp (h r hr)
  covered := fun _ hp => absurd hp List.not_mem_nil
  polledAt := fun r hr hp => absurd hp (h r hr)
  cadence := fun r hr hp => absurd hp (h r hr)

/-! ### One row

What a single row says, and how a later poll leaves it. -/

/-- What a polled row says about the polls: at every moment it is valid, it has the rates of the
latest. -/
structure RowTracks (cadence : ℤ) (polls : List PolledCall) (r : CurrencyRateRow) : Prop where
  current : ∀ t, r.ValidAt t → ∃ p, IsLatest polls t p ∧ ratesEqual r.rates p.rates = true
  polledAt : ∀ q, r.lastPolledAt = some q → ∃ p ∈ polls, p.atTime = q
  cadence : r.updateCadenceSeconds = some cadence

theorem Tracks.row (h : Tracks pair cadence polls table) (hr : r ∈ table) (hp : r.Polled pair) :
    RowTracks cadence polls r :=
  ⟨h.current r hr hp, h.polledAt r hr hp, h.cadence r hr hp⟩

theorem tracks_of_rows (hsound : PolledSound pair table)
    (hrows : ∀ r ∈ table, r.Polled pair → RowTracks cadence polls r)
    (hcovered : ∀ p ∈ polls, ∀ t, p.atTime ≤ t → ∃ r ∈ table, r.Polled pair ∧ r.ValidAt t) :
    Tracks pair cadence polls table where
  sound := hsound
  current := fun r hr hp => (hrows r hr hp).current
  covered := hcovered
  polledAt := fun r hr hp => (hrows r hr hp).polledAt
  cadence := fun r hr hp => (hrows r hr hp).cadence

/-- A row that is not valid at the next poll or later says what it has said. -/
theorem RowTracks.concat (h : RowTracks cadence polls r)
    (hends : ∀ t, r.ValidAt t → t < c.atTime) : RowTracks cadence (polls ++ [c]) r := by
  refine ⟨fun t ht => ?_, fun q hq => ?_, h.cadence⟩
  · obtain ⟨p, hlatest, heq⟩ := h.current t ht
    exact ⟨p, hlatest.concat (hends t ht), heq⟩
  · obtain ⟨p, hp, he⟩ := h.polledAt q hq
    exact ⟨p, List.mem_append_left _ hp, he⟩

/-- The open row, polled again with equal rates: it says the same of the new moment. -/
theorem RowTracks.touched (h : RowTracks cadence polls r)
    (heq : ratesEqual r.rates c.rates = true) (hcad : c.updateCadenceSeconds = cadence) :
    RowTracks cadence (polls ++ [c]) (r.touched c) := by
  refine ⟨fun t ht => ?_, fun q hq => ?_, congrArg some hcad⟩
  · by_cases hlt : t < c.atTime
    · obtain ⟨p, hlatest, hrates⟩ := h.current t ht
      exact ⟨p, hlatest.concat hlt, hrates⟩
    · exact ⟨c, isLatest_concat_of_le (not_lt.mp hlt), heq⟩
  · obtain rfl := Option.some.inj hq
    exact ⟨c, List.mem_append_right _ (List.mem_singleton_self c), rfl⟩

/-- The open row, closed at the next poll: it keeps the moments before. -/
theorem RowTracks.closed (h : RowTracks cadence polls r) (hopen : r.validTo = none) :
    RowTracks cadence (polls ++ [c]) (r.closedAt c.atTime) := by
  have hclosed : RowTracks cadence polls (r.closedAt c.atTime) := by
    refine ⟨fun t ht => h.current t ⟨ht.1, fun u hu => ?_⟩, h.polledAt, h.cadence⟩
    exact absurd (hopen.symm.trans hu) (Option.some_ne_none u).symm
  exact hclosed.concat fun t ht => ht.2 _ rfl

theorem rowTracks_opened {stored : StoredRates} (heq : ratesEqual stored c.rates = true)
    (hcad : c.updateCadenceSeconds = cadence) :
    RowTracks cadence (polls ++ [c]) (openedRow env table pair stored c) := by
  refine ⟨fun t ht => ⟨c, isLatest_concat_of_le ht.1, heq⟩, fun q hq => ?_, congrArg some hcad⟩
  obtain rfl := Option.some.inj hq
  exact ⟨c, List.mem_append_right _ (List.mem_singleton_self c), rfl⟩

/-! ### A poll after the others

A poll in order changes the open row only, and may add one. -/

section Later

variable {cur : CurrencyRateRow} {stored : StoredRates}
  (h : Tracks pair cadence polls table) (hlater : ∀ p ∈ polls, p.atTime < c.atTime)

include h hlater

theorem Tracks.lastPolledAt_lt (hr : r ∈ table) (hp : r.Polled pair) {q : Timestamp}
    (hq : r.lastPolledAt = some q) : q < c.atTime := by
  obtain ⟨p, hpm, rfl⟩ := h.polledAt r hr hp q hq
  exact hlater p hpm

theorem Tracks.validFrom_lt (hr : r ∈ table) (hp : r.Polled pair) : r.validFrom < c.atTime := by
  obtain ⟨q, hq⟩ := Option.ne_none_iff_exists'.mp hp.2
  exact lt_of_le_of_lt (h.sound.lastPolledAt r hr hp q hq) (h.lastPolledAt_lt hlater hr hp hq)

theorem Tracks.sound_poll : PolledSound pair (pollOne env pair table c) := by
  refine h.sound.step fun _ r hr ho => ⟨fun q hq => ?_, fun _ => ?_⟩
  · exact le_of_lt (h.lastPolledAt_lt hlater hr ho.1 hq)
  · exact h.validFrom_lt hlater hr ho.1

/-- The rows beside the open one have ended, and the next poll does not concern them. -/
theorem Tracks.kept (hcur : cur ∈ table) (ho : cur.OpenPolled pair) (hr : r ∈ table)
    (hp : r.Polled pair) (hid : r.id ≠ cur.id) : RowTracks cadence (polls ++ [c]) r := by
  apply (h.row hr hp).concat
  intro t ht
  obtain ⟨u, hu, hle⟩ := h.sound.ended hcur ho hr hp fun heq => hid (heq ▸ rfl)
  exact ((ht.2 u hu).trans_le hle).trans (h.validFrom_lt hlater hcur ho.1)

/-- **The open row is touched**: its last poll is the new one. -/
theorem Tracks.touch (hcad : c.updateCadenceSeconds = cadence) (hcur : cur ∈ table)
    (ho : cur.OpenPolled pair) (heq : ratesEqual cur.rates c.rates = true)
    (hsound : PolledSound pair (setPolled table cur.id c)) :
    Tracks pair cadence (polls ++ [c]) (setPolled table cur.id c) := by
  have htouched : (cur.touched c).Polled pair := ⟨ho.1.1, Option.some_ne_none _⟩
  refine tracks_of_rows hsound (fun r hr hp => ?_) fun p hp t hpt => ?_
  · obtain rfl | ⟨hr, hid⟩ := (mem_setPolled hcur).mp hr
    · exact (h.row hcur ho.1).touched heq hcad
    · exact h.kept hlater hcur ho hr hp hid
  · obtain hp | hp := List.mem_append.mp hp
    · obtain ⟨r, hr, hrp, ht⟩ := h.covered p hp t hpt
      by_cases hid : r.id = cur.id
      · obtain rfl := KeyedTable.eq_of_key_eq hr hcur hid
        exact ⟨_, (mem_setPolled hcur).mpr (Or.inl rfl), htouched, ht⟩
      · exact ⟨r, (mem_setPolled hcur).mpr (Or.inr ⟨hr, hid⟩), hrp, ht⟩
    · obtain rfl := List.mem_singleton.mp hp
      refine ⟨_, (mem_setPolled hcur).mpr (Or.inl rfl), htouched, ?_, fun u hu => ?_⟩
      · exact le_of_lt ((h.validFrom_lt hlater hcur ho.1).trans_le hpt)
      · exact absurd (ho.2.symm.trans hu) (Option.some_ne_none u).symm

/-- **The open row is closed and the next one opened**, which has the rates of the new poll. -/
theorem Tracks.reopen (hcad : c.updateCadenceSeconds = cadence) (hcur : cur ∈ table)
    (ho : cur.OpenPolled pair) (hstored : ratesEqual stored c.rates = true)
    (hsound : PolledSound pair ((setValidTo table cur.id c.atTime).insertIgnore
      (openedRow env (setValidTo table cur.id c.atTime) pair stored c))) :
    Tracks pair cadence (polls ++ [c]) ((setValidTo table cur.id c.atTime).insertIgnore
      (openedRow env (setValidTo table cur.id c.atTime) pair stored c)) := by
  refine tracks_of_rows hsound (fun r hr hp => ?_) fun p hp t hpt => ?_
  · obtain rfl | rfl | ⟨hr, hid⟩ := (mem_reopened hcur).mp hr
    · exact rowTracks_opened hstored hcad
    · exact (h.row hcur ho.1).closed ho.2
    · exact h.kept hlater hcur ho hr hp hid
  · -- from the new poll on the new row is valid, before it the row there was
    by_cases hlt : t < c.atTime
    swap
    · exact ⟨_, (mem_reopened hcur).mpr (Or.inl rfl), ⟨rfl, Option.some_ne_none _⟩,
        not_lt.mp hlt, fun u hu => by cases hu⟩
    obtain hp | hp := List.mem_append.mp hp
    swap
    · obtain rfl := List.mem_singleton.mp hp
      exact absurd hpt (not_le.mpr hlt)
    obtain ⟨r, hr, hrp, ht⟩ := h.covered p hp t hpt
    by_cases hid : r.id = cur.id
    · obtain rfl := KeyedTable.eq_of_key_eq hr hcur hid
      refine ⟨_, (mem_reopened hcur).mpr (Or.inr (Or.inl rfl)), ho.1, ht.1, fun u hu => ?_⟩
      rw [← Option.some.inj hu]
      exact hlt
    · exact ⟨r, (mem_reopened hcur).mpr (Or.inr (Or.inr ⟨hr, hid⟩)), hrp, ht⟩

omit hlater in
/-- **The first row of the pair** has the rates of the first poll. -/
theorem Tracks.first (hcad : c.updateCadenceSeconds = cadence)
    (hnone : ∀ r ∈ table, ¬ r.OpenPolled pair) (hstored : ratesEqual stored c.rates = true)
    (hsound : PolledSound pair (table.insertIgnore (openedRow env table pair stored c))) :
    Tracks pair cadence (polls ++ [c])
      (table.insertIgnore (openedRow env table pair stored c)) := by
  -- without an open row the pair has no polled row
  have hnop : ∀ r ∈ table, ¬ r.Polled pair := by
    intro r hr hp
    obtain ⟨q, hq, hqo, -⟩ := h.sound.openRow ⟨r, hr, hp⟩
    exact hnone q hq hqo
  refine tracks_of_rows hsound (fun r hr hp => ?_) fun p hp t hpt => ?_
  · obtain hr | rfl := mem_insert_opened.mp hr
    · exact absurd hp (hnop r hr)
    · exact rowTracks_opened hstored hcad
  · obtain hp | hp := List.mem_append.mp hp
    · obtain ⟨r, hr, hrp, -⟩ := h.covered p hp t hpt
      exact absurd hrp (hnop r hr)
    · obtain rfl := List.mem_singleton.mp hp
      exact ⟨_, mem_insert_opened.mpr (Or.inr rfl), ⟨rfl, Option.some_ne_none _⟩, hpt,
        fun u hu => by cases hu⟩

/-- **A later poll** is tracked, whether its rates are new or not. -/
theorem Tracks.poll (hrep : Representable c.rates)
    (hfit : fitsInteger c.updateCadenceSeconds = true)
    (hcad : c.updateCadenceSeconds = cadence) :
    Tracks pair cadence (polls ++ [c]) (pollOne env pair table c) := by
  obtain ⟨s, hs, hstored⟩ := hrep
  have hsound : PolledSound pair (pollOne env pair table c) := h.sound_poll hlater
  have hm := pollOne_cases env pair table c
  generalize pollOne env pair table c = table' at hm hsound ⊢
  cases hm with
  | raised hns => exact absurd ⟨hfit, by rw [hs]; rfl⟩ hns
  | touched cur _ hcur ho heq => exact h.touch hlater hcad hcur ho heq hsound
  | reopened cur stored _ hcur ho heq hs' =>
    obtain rfl := Option.some.inj (hs.symm.trans hs')
    exact h.reopen hlater hcad hcur ho hstored hsound
  | opened stored _ hnone hs' =>
    obtain rfl := Option.some.inj (hs.symm.trans hs')
    exact h.first hcad hnone hstored hsound

end Later

/-! ### All polls

The run lemma, from a table without polled rows of the pair. -/

/-- **Polls at increasing moments** are tracked, with rates that are stored as they are and one
cadence. -/
theorem tracks_pollAll (hnone : ∀ r ∈ table, ¬ r.Polled pair)
    (hinc : polls.Pairwise fun p q => p.atTime < q.atTime)
    (hrep : ∀ p ∈ polls, Representable p.rates)
    (hcad : ∀ p ∈ polls, p.updateCadenceSeconds = cadence) (hfit : fitsInteger cadence = true) :
    Tracks pair cadence polls (pollAll env pair table polls) := by
  induction polls using List.reverseRecOn with
  | nil => exact tracks_nil hnone
  | append_singleton polls c ih =>
    obtain ⟨hinc, -, hlater⟩ := List.pairwise_append.mp hinc
    have hmem : c ∈ polls ++ [c] := List.mem_append_right _ (List.mem_singleton_self c)
    have hpre := ih hinc (fun p hp => hrep p (List.mem_append_left _ hp))
      fun p hp => hcad p (List.mem_append_left _ hp)
    rw [pollAll, List.foldl_append]
    refine hpre.poll (fun p hp => hlater p hp c (List.mem_singleton_self c)) (hrep c hmem) ?_
      (hcad c hmem)
    rw [hcad c hmem]
    exact hfit

/-! ## The reader agrees with the writer

What the query returns is said in terms of the polls, without any row. -/

/-- The row covers the moment, and its last poll is recent enough: the conditions of the query as a
proposition. -/
def FreshAt (pair : RatePair) (t : Timestamp) (cadence pollTolerance : ℤ) (r : CurrencyRateRow) :
    Prop :=
  r.Polled pair ∧ r.ValidAt t ∧
    ∃ q, r.lastPolledAt = some q ∧ t ≤ q + cadence * pollTolerance * second

theorem coversMoment_iff (hc : r.Polled pair → r.updateCadenceSeconds = some cadence) :
    coversMoment pair t r = true ↔ r.Polled pair ∧ r.ValidAt t := by
  simp only [coversMoment, Bool.and_eq_true, decide_eq_true_eq, Option.isSome_iff_ne_none,
    Option.all_eq_true, CurrencyRateRow.Polled, CurrencyRateRow.ValidAt]
  refine ⟨?_, ?_⟩
  · rintro ⟨⟨⟨⟨hpair, hlast⟩, -⟩, hfrom⟩, hto⟩
    exact ⟨⟨hpair, hlast⟩, hfrom, hto⟩
  · rintro ⟨⟨hpair, hlast⟩, hfrom, hto⟩
    refine ⟨⟨⟨⟨hpair, hlast⟩, ?_⟩, hfrom⟩, hto⟩
    rw [hc ⟨hpair, hlast⟩]
    exact Option.some_ne_none _

theorem graceReaches_iff (hc : r.updateCadenceSeconds = some cadence) :
    graceReaches pollTolerance t r = true ↔
      ∃ q, r.lastPolledAt = some q ∧ t ≤ q + cadence * pollTolerance * second := by
  simp only [graceReaches, hc]
  rcases r.lastPolledAt with _ | q
  · simp
  · simp

/-- Over tracked polls, with the tolerance in seconds an `INTEGER`, the query returns the fresh
row of the moment, if there is one. -/
theorem Tracks.findFreshRate_eq (env : RateDbEnv) (t : Timestamp)
    (h : Tracks pair cadence polls table)
    (hK : fitsInteger pollTolerance = true)
    (hfit : fitsInteger (cadence * pollTolerance) = true) :
    (∃ r ∈ table, FreshAt pair t cadence pollTolerance r ∧
      findFreshRate env table pair t pollTolerance = (RateRow.ofRow pair.source r).map some) ∨
    (∀ r ∈ table, ¬ FreshAt pair t cadence pollTolerance r) ∧
      findFreshRate env table pair t pollTolerance = .ok none := by
  have hcover : ∀ r ∈ table, coversMoment pair t r = true ↔ r.Polled pair ∧ r.ValidAt t :=
    fun r hr => coversMoment_iff (h.cadence r hr)
  have hgrace : (table.rows.filter (coversMoment pair t)).all (graceFits pollTolerance) = true := by
    rw [List.all_eq_true]
    intro r hr
    obtain ⟨hr, hc⟩ := List.mem_filter.mp hr
    rw [graceFits, h.cadence r hr ((hcover r hr).mp hc).1]
    exact hfit
  have hmem : ∀ r, r ∈ (env.scan ((table.rows.filter (coversMoment pair t)).filter
      (graceReaches pollTolerance t))).insertionSort newestFirst ↔
      r ∈ table ∧ FreshAt pair t cadence pollTolerance r := by
    intro r
    rw [List.mem_insertionSort, (env.scan_perm _).mem_iff, List.mem_filter, List.mem_filter,
      and_assoc]
    apply and_congr_right
    intro hr
    rw [hcover r hr]
    refine ⟨?_, ?_⟩
    · rintro ⟨⟨hp, hv⟩, hg⟩
      exact ⟨hp, hv, (graceReaches_iff (h.cadence r hr hp)).mp hg⟩
    · rintro ⟨hp, hv, hg⟩
      exact ⟨⟨hp, hv⟩, (graceReaches_iff (h.cadence r hr hp)).mpr hg⟩
  rcases hhead : ((env.scan ((table.rows.filter (coversMoment pair t)).filter
      (graceReaches pollTolerance t))).insertionSort newestFirst).head? with _ | r
  · refine Or.inr ⟨fun r hr hf => ?_, ?_⟩
    · have hin := (hmem r).mpr ⟨hr, hf⟩
      rw [List.head?_eq_none_iff.mp hhead] at hin
      cases hin
    · simp only [findFreshRate, hK, hgrace, hhead, Bool.true_eq_false, if_false]
  · obtain ⟨hr, hf⟩ := (hmem r).mp (List.mem_of_head? hhead)
    refine Or.inl ⟨r, hr, hf, ?_⟩
    simp only [findFreshRate, hK, hgrace, hhead, Bool.true_eq_false, if_false]

/-- The tolerance fits when the tolerance in seconds does. -/
theorem fitsInteger_of_mul (hc : 0 < cadence) (hK : 0 < pollTolerance)
    (h : fitsInteger (cadence * pollTolerance) = true) : fitsInteger pollTolerance = true := by
  simp only [fitsInteger, decide_eq_true_eq] at h ⊢
  have hle : pollTolerance ≤ cadence * pollTolerance := le_mul_of_one_le_left (le_of_lt hK) hc
  omega

/-- **The reader agrees with the writer**: after polls at increasing moments with representable
rates and a fixed cadence, the query does not raise as long as the tolerance in seconds is an
`INTEGER`; it returns a row exactly if some poll is not later than the moment and the row that
covers the moment was polled recently enough; and the rates it returns are those of the latest
poll at or before the moment. -/
theorem findFreshRate_of_polls (env env' : RateDbEnv) (hnone : ∀ r ∈ table, ¬ r.Polled pair)
    (hinc : polls.Pairwise fun p q => p.atTime < q.atTime)
    (hrep : ∀ p ∈ polls, Representable p.rates)
    (hcad : ∀ p ∈ polls, p.updateCadenceSeconds = cadence) (hc : 0 < cadence)
    (hK : 0 < pollTolerance) (hfit : fitsInteger (cadence * pollTolerance) = true)
    (t : Timestamp) :
    ∃ result, findFreshRate env' (pollAll env pair table polls) pair t pollTolerance = .ok result ∧
      (result.isSome ↔ (∃ p ∈ polls, p.atTime ≤ t) ∧ ∃ r ∈ pollAll env pair table polls,
        FreshAt pair t cadence pollTolerance r) ∧
      ∀ row, result = some row → ∃ p, IsLatest polls t p ∧ row.rates = p.rates := by
  have hKfit := fitsInteger_of_mul hc hK hfit
  have hcfit : fitsInteger cadence = true := by
    rw [mul_comm] at hfit
    exact fitsInteger_of_mul hK hc hfit
  have htracks : Tracks pair cadence polls (pollAll env pair table polls) :=
    tracks_pollAll hnone hinc hrep hcad hcfit
  rcases htracks.findFreshRate_eq env' t hKfit hfit with ⟨r, hr, hf, he⟩ | ⟨hno, he⟩
  · obtain ⟨p, hlatest, heq⟩ := htracks.current r hr hf.1 t hf.2.1
    have hrow : RateRow.ofRow pair.source r = .ok
        { id := r.id, source := pair.source, rates := p.rates, lastPolledAt := r.lastPolledAt,
          updateCadenceSeconds := r.updateCadenceSeconds, validFrom := some r.validFrom,
          validTo := r.validTo, proximitySeconds := none } := by
      simp only [RateRow.ofRow, read_of_equal heq]
    rw [hrow] at he
    have hpast : ∃ p ∈ polls, p.atTime ≤ t := by
      obtain ⟨before, after, rfl, hp, -⟩ := hlatest
      exact ⟨p, List.mem_append_right _ (List.mem_cons_self ..), hp⟩
    refine ⟨_, he, iff_of_true rfl ⟨hpast, r, hr, hf⟩, fun row hrow => ?_⟩
    obtain rfl := Option.some.inj hrow
    exact ⟨p, hlatest, rfl⟩
  · refine ⟨none, he, iff_of_false Bool.false_ne_true ?_, fun row hrow => by cases hrow⟩
    rintro ⟨-, r, hr, hf⟩
    exact hno r hr hf

/-- Two polls of the rate of a pair: within its tolerance the later moment has the first rate
until the second poll. -/
theorem findFreshRate_of_polls_two :
    ∃ result, findFreshRate sampleRateDb
        (pollAll sampleRateDb samplePair .empty [samplePoll 40 0, samplePoll 41 (300 * second)])
        samplePair (299 * second) 2 = .ok result ∧
      (result.isSome ↔ (∃ p ∈ [samplePoll 40 0, samplePoll 41 (300 * second)],
          p.atTime ≤ 299 * second) ∧
        ∃ r ∈ pollAll sampleRateDb samplePair .empty
          [samplePoll 40 0, samplePoll 41 (300 * second)],
            FreshAt samplePair (299 * second) 300 2 r) ∧
      ∀ row, result = some row → ∃ p, IsLatest [samplePoll 40 0, samplePoll 41 (300 * second)]
        (299 * second) p ∧ row.rates = p.rates := by
  have hrep : ∀ p ∈ [samplePoll 40 0, samplePoll 41 (300 * second)], Representable p.rates := by
    intro p hp
    rcases List.mem_cons.mp hp with rfl | hp
    · exact ⟨⟨none, none, .units 4000000000 (by decide)⟩, by decide +kernel, by decide +kernel⟩
    · rw [List.mem_singleton.mp hp]
      exact ⟨⟨none, none, .units 4100000000 (by decide)⟩, by decide +kernel, by decide +kernel⟩
  have hcad : ∀ p ∈ [samplePoll 40 0, samplePoll 41 (300 * second)],
      p.updateCadenceSeconds = 300 := by
    intro p hp
    rcases List.mem_cons.mp hp with rfl | hp
    · rfl
    · rw [List.mem_singleton.mp hp]
      rfl
  exact findFreshRate_of_polls sampleRateDb sampleRateDb
    (fun _ hr => absurd hr KeyedTable.not_mem_empty) (by simp [samplePoll, second]) hrep hcad
    (by decide) (by decide) (by decide) _

/-- A tolerance of ten million polls of five minutes is not an `INTEGER` in seconds: at the
moment of the only poll the query raises. -/
theorem findFreshRate_raises :
    (∃ p ∈ [samplePoll 40 0], p.atTime ≤ 0) ∧
    (∃ r ∈ pollAll sampleRateDb samplePair .empty [samplePoll 40 0],
      FreshAt samplePair 0 300 10000000 r) ∧
    findFreshRate sampleRateDb (pollAll sampleRateDb samplePair .empty [samplePoll 40 0])
      samplePair 0 10000000 = .error .integerOutOfRange := by
  have hrow : ∃ r ∈ (pollAll sampleRateDb samplePair .empty [samplePoll 40 0]).rows,
      r.Polled samplePair ∧ r.validFrom = 0 ∧ r.validTo = none ∧ r.lastPolledAt = some 0 := by
    decide +kernel
  have hraise : (match findFreshRate sampleRateDb (pollAll sampleRateDb samplePair .empty
      [samplePoll 40 0]) samplePair 0 10000000 with
    | .error e => some e
    | .ok _ => none) = some .integerOutOfRange := by decide +kernel
  obtain ⟨r, hr, hp, hfrom, hto, hlast⟩ := hrow
  refine ⟨⟨samplePoll 40 0, List.mem_singleton_self _, le_rfl⟩,
    ⟨r, hr, hp, ⟨le_of_eq hfrom, fun u hu => ?_⟩, 0, hlast, by decide⟩, ?_⟩
  · rw [hto] at hu
    cases hu
  · split at hraise
    · next e he => rw [he, Option.some.inj hraise]
    · cases hraise

end Grosh
