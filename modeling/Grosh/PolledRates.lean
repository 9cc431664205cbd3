import Grosh.Lib.Transition
import Grosh.HistoricalRates

/-!
# Polled rates

`upsert_polled` records what a poller saw at a moment. The polled rows of a pair are meant to
be a slowly changing dimension: equal rates extend the open row, other rates close it and open
the next one. The moment is the bank's own `date`, and nothing compares it with the stored
rows.

Sound means that the periods of the rows do not overlap, that exactly one row is open as soon as
there is any, and that no row ends or was last polled before it began. The calls may come in any
order and with any moments; which of them are harmless is told by comparing each with the open row
it finds.

* `polledSound_iff_orderly` — a sequence of calls keeps the polled rows of the pair a sound
  dimension, and the last poll of the open row never moves back, exactly if every call that
  writes comes at or after the last poll of the open row, and after its start where it closes it.
-/

namespace Grosh

open Transition

/-! ## The upsert

The statements of `upsert_polled` run in one transaction: look for the open row, compare the rates,
and extend the row or close it and open the next. The moment of the call is used as it comes. -/

/-- A polled row of a pair: `last_polled_at IS NOT NULL`. Historical rows of the same pair are
passed over. -/
def CurrencyRateRow.Polled (r : CurrencyRateRow) (pair : RatePair) : Prop :=
  r.pair = pair ∧ r.lastPolledAt ≠ none

instance (r : CurrencyRateRow) (pair : RatePair) : Decidable (r.Polled pair) :=
  inferInstanceAs (Decidable (_ ∧ _))

/-- An open polled row of a pair: the one that holds until a poll says otherwise. -/
def CurrencyRateRow.OpenPolled (r : CurrencyRateRow) (pair : RatePair) : Prop :=
  r.Polled pair ∧ r.validTo = none

instance (r : CurrencyRateRow) (pair : RatePair) : Decidable (r.OpenPolled pair) :=
  inferInstanceAs (Decidable (_ ∧ _))

/-- The range of an `INTEGER`, in which the cadence of a poller is stored. -/
def fitsInteger (n : ℤ) : Bool := decide (-2 ^ 31 ≤ n ∧ n < 2 ^ 31)

/-- What a call of `upsert_polled` can raise. -/
inductive PolledRateError : Type where
  /-- numeric field overflow -/
  | numericOverflow
  /-- an argument outside the range of `INTEGER` -/
  | integerOutOfRange
  deriving DecidableEq

/-- What a poller passes for a pair: the rates, its interval in seconds, and the moment the bank has
dated them with. -/
structure PolledCall : Type where
  rates : RateValues
  updateCadenceSeconds : ℤ
  atTime : Timestamp

/-- The row extended by an equal observation: the moment of the call becomes its last poll, also if
it lies before the one there was. -/
def CurrencyRateRow.touched (r : CurrencyRateRow) (c : PolledCall) : CurrencyRateRow :=
  { r with lastPolledAt := some c.atTime, updateCadenceSeconds := some c.updateCadenceSeconds }

@[simp] theorem CurrencyRateRow.touched_id (r : CurrencyRateRow) (c : PolledCall) :
    (r.touched c).id = r.id := rfl

/-- The row a call opens: it holds from the moment of the call, which is its first poll. -/
def openedRow (env : RateDbEnv) (table : RateTable) (pair : RatePair) (stored : StoredRates)
    (c : PolledCall) : CurrencyRateRow where
  id := env.uuidv7 (table.rows.map CurrencyRateRow.id)
  pair := pair
  rates := stored
  validFrom := c.atTime
  validTo := none
  lastPolledAt := some c.atTime
  updateCadenceSeconds := some c.updateCadenceSeconds

/-- The `INSERT` of an open polled row. An argument that does not fit its column raises. -/
def insertPolled (env : RateDbEnv) (table : RateTable) (pair : RatePair) (c : PolledCall) :
    Except PolledRateError RateTable :=
  if fitsInteger c.updateCadenceSeconds = false then .error .integerOutOfRange
  else
    match storeRates c.rates with
    | none => .error .numericOverflow
    | some stored => .ok (table.insertIgnore (openedRow env table pair stored c))

/-- `UPDATE currency_rates SET last_polled_at, update_cadence_seconds WHERE id`. -/
def setPolled (table : RateTable) (id : UUID) (c : PolledCall) : RateTable :=
  table.updateWhere (fun r => decide (r.id = id)) (fun r => r.touched c) fun r => r.touched_id c

/-- The `UPDATE` of an equal observation, which raises if the cadence does not fit its column. -/
def touchPolled (table : RateTable) (id : UUID) (c : PolledCall) :
    Except PolledRateError RateTable :=
  if fitsInteger c.updateCadenceSeconds = false then .error .integerOutOfRange
  else .ok (setPolled table id c)

/-- `CurrencyRateRepo.upsert_polled`: nothing compares the moment with those of the open row. -/
def upsertPolled (env : RateDbEnv) (table : RateTable) (pair : RatePair) (c : PolledCall) :
    Except PolledRateError RateTable :=
  match fetchrow env table (fun r => decide (r.OpenPolled pair)) with
  | some current =>
    if ratesEqual current.rates c.rates then touchPolled table current.id c
    else insertPolled env (setValidTo table current.id c.atTime) pair c
  | none => insertPolled env table pair c

/-- One call, one transaction: an exception leaves the table as it was. -/
def pollOne (env : RateDbEnv) (pair : RatePair) (table : RateTable) (c : PolledCall) :
    RateTable :=
  match upsertPolled env table pair c with
  | .ok table' => table'
  | .error _ => table

/-- The calls for a pair, one after another, as a system that is always able to take the next. -/
def pollStep (env : RateDbEnv) (pair : RatePair) (table : RateTable) (c : PolledCall) :
    Option RateTable :=
  some (pollOne env pair table c)

/-! ## What a call does

One inversion lemma says which tables a call can leave: the same, one with the open row touched, one
with another row opened, or both closed and opened. -/

variable {env : RateDbEnv} {table table' : RateTable} {pair : RatePair} {c : PolledCall}
  {stored : StoredRates} {r r' cur : CurrencyRateRow}

/-- The arguments fit the columns: the cadence an `INTEGER`, the rates their `NUMERIC(18,8)`. -/
def PolledCall.Storable (c : PolledCall) : Prop :=
  fitsInteger c.updateCadenceSeconds = true ∧ (storeRates c.rates).isSome = true

instance (c : PolledCall) : Decidable c.Storable := inferInstanceAs (Decidable (_ ∧ _))

theorem PolledCall.Storable.exists_stored (h : c.Storable) :
    ∃ stored, storeRates c.rates = some stored :=
  Option.isSome_iff_exists.mp h.2

/-- The row a call closes: it ends where the next one starts. -/
def CurrencyRateRow.closedAt (r : CurrencyRateRow) (atTime : Timestamp) : CurrencyRateRow :=
  { r with validTo := some atTime }

/-- The tables a call can leave, one constructor for each way through the function. -/
inductive PollMove (env : RateDbEnv) (pair : RatePair) (c : PolledCall) (table : RateTable) :
    RateTable → Prop where
  /-- an exception, rolled back -/
  | raised : ¬ c.Storable → PollMove env pair c table table
  /-- equal rates extend the open row -/
  | touched (cur : CurrencyRateRow) : c.Storable → cur ∈ table → cur.OpenPolled pair →
      ratesEqual cur.rates c.rates = true →
      PollMove env pair c table (setPolled table cur.id c)
  /-- other rates close it and open the next -/
  | reopened (cur : CurrencyRateRow) (stored : StoredRates) : c.Storable → cur ∈ table →
      cur.OpenPolled pair → ratesEqual cur.rates c.rates = false →
      storeRates c.rates = some stored →
      PollMove env pair c table ((setValidTo table cur.id c.atTime).insertIgnore
        (openedRow env (setValidTo table cur.id c.atTime) pair stored c))
  /-- without an open row one is opened -/
  | opened (stored : StoredRates) : c.Storable → (∀ r ∈ table, ¬ r.OpenPolled pair) →
      storeRates c.rates = some stored →
      PollMove env pair c table (table.insertIgnore (openedRow env table pair stored c))

theorem insertPolled_of_storable (h : c.Storable) (hs : storeRates c.rates = some stored) :
    insertPolled env table pair c =
      .ok (table.insertIgnore (openedRow env table pair stored c)) := by
  simp only [insertPolled, h.1, hs, Bool.true_eq_false, if_false]

theorem insertPolled_of_not_storable (env : RateDbEnv) (pair : RatePair) (table : RateTable)
    (h : ¬ c.Storable) :
    ∃ e, insertPolled env table pair c = .error e := by
  simp only [insertPolled]
  split
  · exact ⟨_, rfl⟩
  next hfit =>
  rcases hs : storeRates c.rates with _ | stored
  · exact ⟨_, rfl⟩
  · exact absurd ⟨by simpa using hfit, by rw [hs]; rfl⟩ h

/-- **Inversion** of a call: what it leaves is one of the four tables. -/
theorem pollOne_cases (env : RateDbEnv) (pair : RatePair) (table : RateTable) (c : PolledCall) :
    PollMove env pair c table (pollOne env pair table c) := by
  rcases hcur : fetchrow env table (fun r => decide (r.OpenPolled pair)) with _ | cur
  · have hcall : upsertPolled env table pair c = insertPolled env table pair c := by
      simp only [upsertPolled, hcur]
    simp only [pollOne, hcall]
    by_cases hst : c.Storable
    · obtain ⟨stored, hs⟩ := hst.exists_stored
      rw [insertPolled_of_storable hst hs]
      exact .opened stored hst (fun r hr => by simpa using fetchrow_eq_none.mp hcur r hr) hs
    · obtain ⟨e, he⟩ := insertPolled_of_not_storable env pair table hst
      rw [he]
      exact .raised hst
  obtain ⟨hmem, hopen⟩ := fetchrow_eq_some hcur
  rw [decide_eq_true_eq] at hopen
  rcases heq : ratesEqual cur.rates c.rates with _ | _
  · have hcall : upsertPolled env table pair c =
        insertPolled env (setValidTo table cur.id c.atTime) pair c := by
      simp only [upsertPolled, hcur, heq, Bool.false_eq_true, if_false]
    simp only [pollOne, hcall]
    by_cases hst : c.Storable
    · obtain ⟨stored, hs⟩ := hst.exists_stored
      rw [insertPolled_of_storable hst hs]
      exact .reopened cur stored hst hmem hopen heq hs
    · obtain ⟨e, he⟩ := insertPolled_of_not_storable env pair
        (setValidTo table cur.id c.atTime) hst
      rw [he]
      exact .raised hst
  · have hcall : upsertPolled env table pair c = touchPolled table cur.id c := by
      simp only [upsertPolled, hcur, heq, if_true]
    simp only [pollOne, hcall, touchPolled]
    rcases hfit : fitsInteger c.updateCadenceSeconds with _ | _
    · exact .raised fun hst => by
        rw [hst.1] at hfit
        cases hfit
    · exact .touched cur ⟨hfit, by rw [storeRates_of_equal heq]; rfl⟩ hmem hopen heq

/-- The rows of the pair after an equal observation: the open one is extended, the others are the
same. -/
theorem mem_setPolled (hcur : cur ∈ table) :
    r ∈ setPolled table cur.id c ↔ r = cur.touched c ∨ r ∈ table ∧ r.id ≠ cur.id :=
  KeyedTable.mem_updateWhere_key (fun r => r.touched_id c) hcur

theorem openedRow_fresh : ¬ table.HasKey (openedRow env table pair stored c).id := by
  rw [KeyedTable.hasKey_iff_mem_map]
  exact env.uuidv7_fresh _

theorem mem_insert_opened :
    r ∈ table.insertIgnore (openedRow env table pair stored c) ↔
      r ∈ table ∨ r = openedRow env table pair stored c :=
  KeyedTable.mem_insertIgnore_of_not_hasKey openedRow_fresh

/-- The rows after the open row is closed and the next one opened: two are new, the others the
same. -/
theorem mem_reopened (hcur : cur ∈ table) :
    r ∈ (setValidTo table cur.id c.atTime).insertIgnore
        (openedRow env (setValidTo table cur.id c.atTime) pair stored c) ↔
      r = openedRow env (setValidTo table cur.id c.atTime) pair stored c ∨
        r = cur.closedAt c.atTime ∨ r ∈ table ∧ r.id ≠ cur.id := by
  have hclosed : r ∈ setValidTo table cur.id c.atTime ↔
      r = cur.closedAt c.atTime ∨ r ∈ table ∧ r.id ≠ cur.id :=
    KeyedTable.mem_updateWhere_key _ hcur
  rw [mem_insert_opened, hclosed, or_comm]

/-! ## A sound dimension

What a slowly changing dimension promises its readers, and what the callers have to keep to for it
to hold: the moments of the calls must not go back. -/

/-- Never valid at the same instant: no moment has two rates of the pair. -/
def CurrencyRateRow.Apart (r r' : CurrencyRateRow) : Prop := ∀ t, ¬ (r.ValidAt t ∧ r'.ValidAt t)

theorem CurrencyRateRow.Apart.symm (h : r.Apart r') : r'.Apart r := fun t ht => h t ⟨ht.2, ht.1⟩

/-- The polled rows of the pair are a slowly changing dimension: each is valid for a while and
was polled in it, no two at once, and exactly one of them is open. -/
structure PolledSound (pair : RatePair) (table : RateTable) : Prop where
  lastPolledAt : ∀ r ∈ table, r.Polled pair → ∀ p, r.lastPolledAt = some p → r.validFrom ≤ p
  validTo : ∀ r ∈ table, r.Polled pair → ∀ u, r.validTo = some u → r.validFrom < u
  disjoint : ∀ r ∈ table, ∀ r' ∈ table, r.Polled pair → r'.Polled pair → r ≠ r' → r.Apart r'
  openRow : (∃ r ∈ table, r.Polled pair) → ∃ r, r ∈ table ∧ r.OpenPolled pair ∧
    ∀ r' ∈ table, r'.OpenPolled pair → r' = r

/-- The last poll of the open row does not move back, from before the call to after it. -/
def LastPolledForward (env : RateDbEnv) (pair : RatePair) (table : RateTable) (c : PolledCall) :
    Prop :=
  ∀ r ∈ table, ∀ r' ∈ pollOne env pair table c, r.OpenPolled pair → r'.OpenPolled pair →
    ∀ p p', r.lastPolledAt = some p → r'.lastPolledAt = some p' → p ≤ p'

/-- The call raises, or comes in order: not before the last poll of the open row, and after
its start where the rates differ. -/
def Orderly (pair : RatePair) (table : RateTable) (c : PolledCall) : Prop :=
  c.Storable → ∀ r ∈ table, r.OpenPolled pair →
    (∀ p, r.lastPolledAt = some p → p ≤ c.atTime) ∧
    (ratesEqual r.rates c.rates = false → r.validFrom < c.atTime)

/-- Without polled rows there is nothing to keep: the first call may come at any moment. -/
theorem polledSound_of_none (h : ∀ r ∈ table, ¬ r.Polled pair) : PolledSound pair table where
  lastPolledAt := fun r hr hp => absurd hp (h r hr)
  validTo := fun r hr hp => absurd hp (h r hr)
  disjoint := fun r hr _ _ hp => absurd hp (h r hr)
  openRow := by
    rintro ⟨r, hr, hp⟩
    exact absurd hp (h r hr)

theorem PolledSound.eq_of_open (h : PolledSound pair table) (hr : r ∈ table) (hr' : r' ∈ table)
    (ho : r.OpenPolled pair) (ho' : r'.OpenPolled pair) : r = r' := by
  obtain ⟨q, -, -, huniq⟩ := h.openRow ⟨r, hr, ho.1⟩
  rw [huniq r hr ho, huniq r' hr' ho']

/-- The other rows of the pair end where the open one starts, or before: no two are valid at
once. -/
theorem PolledSound.ended (h : PolledSound pair table) (hcur : cur ∈ table)
    (ho : cur.OpenPolled pair) (hr : r ∈ table) (hp : r.Polled pair) (hne : r ≠ cur) :
    ∃ u, r.validTo = some u ∧ u ≤ cur.validFrom := by
  rcases hu : r.validTo with _ | u
  · exact absurd (h.eq_of_open hr hcur ⟨hp, hu⟩ ho) hne
  refine ⟨u, rfl, ?_⟩
  by_contra hlt
  have hru := h.validTo r hr hp u hu
  -- otherwise both are valid at the later of the two starts
  apply h.disjoint r hr cur hcur hp ho.1 hne (max r.validFrom cur.validFrom)
  refine ⟨⟨le_max_left .., fun u' hu' => ?_⟩, le_max_right .., fun u' hu' => ?_⟩
  · obtain rfl := Option.some.inj (hu.symm.trans hu')
    exact max_lt hru (not_le.mp hlt)
  · rw [ho.2] at hu'
    cases hu'

/-- An equal observation in order only extends the open row. -/
theorem PolledSound.touch (h : PolledSound pair table) (hcur : cur ∈ table)
    (ho : cur.OpenPolled pair) (hle : ∀ p, cur.lastPolledAt = some p → p ≤ c.atTime) :
    PolledSound pair (setPolled table cur.id c) := by
  have hmem : ∀ {r}, r ∈ setPolled table cur.id c ↔
      r = cur.touched c ∨ r ∈ table ∧ r.id ≠ cur.id := mem_setPolled hcur
  obtain ⟨p, hp⟩ := Option.ne_none_iff_exists'.mp ho.1.2
  have hne : ∀ r : CurrencyRateRow, r.id ≠ cur.id → r ≠ cur := fun r hid heq => hid (heq ▸ rfl)
  have hopen : (cur.touched c).OpenPolled pair := ⟨⟨ho.1.1, Option.some_ne_none _⟩, ho.2⟩
  refine ⟨fun r hr hpol q hq => ?_, fun r hr hpol u hu => ?_,
    fun r hr r' hr' hpol hpol' hneq => ?_, fun _ => ⟨_, hmem.mpr (Or.inl rfl), hopen, ?_⟩⟩
  · rcases hmem.mp hr with rfl | ⟨hr, -⟩
    · obtain rfl := Option.some.inj hq
      exact (h.lastPolledAt cur hcur ho.1 p hp).trans (hle p hp)
    · exact h.lastPolledAt r hr hpol q hq
  · rcases hmem.mp hr with rfl | ⟨hr, -⟩
    · exact h.validTo cur hcur ho.1 u hu
    · exact h.validTo r hr hpol u hu
  · rcases hmem.mp hr with rfl | ⟨hr, hid⟩ <;> rcases hmem.mp hr' with rfl | ⟨hr', hid'⟩
    · exact absurd rfl hneq
    · exact h.disjoint cur hcur r' hr' ho.1 hpol' (Ne.symm (hne r' hid'))
    · exact h.disjoint r hr cur hcur hpol ho.1 (hne r hid)
    · exact h.disjoint r hr r' hr' hpol hpol' hneq
  · intro r hr hro
    rcases hmem.mp hr with rfl | ⟨hr, hid⟩
    · rfl
    · exact absurd (h.eq_of_open hr hcur hro ho) (hne r hid)

/-- Other rates in order: the closed row held for a while, and the next one starts where it ends. -/
theorem PolledSound.reopen (h : PolledSound pair table) (hcur : cur ∈ table)
    (ho : cur.OpenPolled pair) (hlt : cur.validFrom < c.atTime) :
    PolledSound pair ((setValidTo table cur.id c.atTime).insertIgnore
      (openedRow env (setValidTo table cur.id c.atTime) pair stored c)) := by
  set new := openedRow env (setValidTo table cur.id c.atTime) pair stored c with hnew
  have hmem : ∀ {r}, r ∈ (setValidTo table cur.id c.atTime).insertIgnore new ↔
      r = new ∨ r = cur.closedAt c.atTime ∨ r ∈ table ∧ r.id ≠ cur.id := mem_reopened hcur
  have hne : ∀ r : CurrencyRateRow, r.id ≠ cur.id → r ≠ cur := fun r hid heq => hid (heq ▸ rfl)
  have hfrom : new.validFrom = c.atTime := rfl
  have hopen : new.OpenPolled pair := ⟨⟨rfl, Option.some_ne_none _⟩, rfl⟩
  -- the rows that were there end before the new one starts
  have hend : ∀ r ∈ table, r.Polled pair → r.id ≠ cur.id → ∃ u, r.validTo = some u ∧
      u < c.atTime := by
    intro r hr hpol hid
    obtain ⟨u, hu, hle⟩ := h.ended hcur ho hr hpol (hne r hid)
    exact ⟨u, hu, lt_of_le_of_lt hle hlt⟩
  have hclosed : (cur.closedAt c.atTime).Apart new :=
    fun t ht => absurd ht.2.1 (not_le.mpr (ht.1.2 c.atTime rfl))
  have hbefore : ∀ r ∈ table, r.Polled pair → r.id ≠ cur.id → r.Apart new := by
    intro r hr hpol hid t ht
    obtain ⟨u, hu, hlt⟩ := hend r hr hpol hid
    exact absurd ht.2.1 (not_le.mpr ((ht.1.2 u hu).trans hlt))
  have hother : ∀ r ∈ table, r.Polled pair → r.id ≠ cur.id →
      r.Apart (cur.closedAt c.atTime) := by
    intro r hr hpol hid t ht
    apply h.disjoint r hr cur hcur hpol ho.1 (hne r hid) t
    refine ⟨ht.1, ht.2.1, fun u hu => ?_⟩
    rw [ho.2] at hu
    cases hu
  refine ⟨fun r hr hpol q hq => ?_, fun r hr hpol u hu => ?_,
    fun r hr r' hr' hpol hpol' hneq => ?_, fun _ => ⟨_, hmem.mpr (Or.inl rfl), hopen, ?_⟩⟩
  · rcases hmem.mp hr with rfl | rfl | ⟨hr, -⟩
    · exact le_of_eq (Option.some.inj hq)
    · exact h.lastPolledAt cur hcur ho.1 q hq
    · exact h.lastPolledAt r hr hpol q hq
  · rcases hmem.mp hr with rfl | rfl | ⟨hr, -⟩
    · cases hu
    · obtain rfl := Option.some.inj hu
      exact hlt
    · exact h.validTo r hr hpol u hu
  · rcases hmem.mp hr with rfl | rfl | ⟨hr, hid⟩ <;>
      rcases hmem.mp hr' with rfl | rfl | ⟨hr', hid'⟩
    · exact absurd rfl hneq
    · exact hclosed.symm
    · exact (hbefore r' hr' hpol' hid').symm
    · exact hclosed
    · exact absurd rfl hneq
    · exact (hother r' hr' hpol' hid').symm
    · exact hbefore r hr hpol hid
    · exact hother r hr hpol hid
    · exact h.disjoint r hr r' hr' hpol hpol' hneq
  · intro r hr hro
    rcases hmem.mp hr with rfl | rfl | ⟨hr, hid⟩
    · rfl
    · cases hro.2
    · exact absurd (h.eq_of_open hr hcur hro ho) (hne r hid)

/-- The first row of the pair, which there is nothing before. -/
theorem PolledSound.open_first (h : PolledSound pair table)
    (hnone : ∀ r ∈ table, ¬ r.OpenPolled pair) :
    PolledSound pair (table.insertIgnore (openedRow env table pair stored c)) := by
  set new := openedRow env table pair stored c with hnew
  have hopen : new.OpenPolled pair := ⟨⟨rfl, Option.some_ne_none _⟩, rfl⟩
  -- a polled row would come with an open one
  have honly : ∀ r ∈ table.insertIgnore new, r.Polled pair → r = new := by
    intro r hr hp
    rcases mem_insert_opened.mp hr with hr | rfl
    · obtain ⟨q, hq, hqo, -⟩ := h.openRow ⟨r, hr, hp⟩
      exact absurd hqo (hnone q hq)
    · rfl
  refine ⟨fun r hr hp q hq => ?_, fun r hr hp u hu => ?_, fun r hr r' hr' hp hp' hne => ?_,
    fun _ => ⟨new, mem_insert_opened.mpr (Or.inr rfl), hopen, fun r hr ho => honly r hr ho.1⟩⟩
  · obtain rfl := honly r hr hp
    exact le_of_eq (Option.some.inj hq)
  · obtain rfl := honly r hr hp
    cases hu
  · exact absurd ((honly r hr hp).trans (honly r' hr' hp').symm) hne

/-- **A call in order** keeps the dimension sound, and so does one that raises. -/
theorem PolledSound.step (h : PolledSound pair table) (hC : Orderly pair table c) :
    PolledSound pair (pollOne env pair table c) := by
  have hm := pollOne_cases env pair table c
  generalize pollOne env pair table c = table' at hm ⊢
  cases hm with
  | raised => exact h
  | touched cur hst hcur ho => exact h.touch hcur ho (hC hst cur hcur ho).1
  | reopened cur stored hst hcur ho heq => exact h.reopen hcur ho ((hC hst cur hcur ho).2 heq)
  | opened stored _ hnone => exact h.open_first hnone

/-- The last poll of the open row, seen from a call in order: it does not move back. -/
theorem lastPolledForward_of_orderly (h : PolledSound pair table) (hC : Orderly pair table c) :
    LastPolledForward env pair table c := by
  have hm := pollOne_cases env pair table c
  intro r hr r' hr' ho ho' p p' hp hp'
  generalize pollOne env pair table c = table' at hm hr'
  cases hm with
  | raised =>
    obtain rfl := h.eq_of_open hr hr' ho ho'
    exact le_of_eq (Option.some.inj (hp.symm.trans hp'))
  | touched cur hst hcur hco =>
    obtain rfl := h.eq_of_open hr hcur ho hco
    rcases (mem_setPolled hr).mp hr' with rfl | ⟨hr', hid⟩
    · obtain rfl := Option.some.inj hp'
      exact (hC hst r hr ho).1 p hp
    · exact absurd (h.eq_of_open hr' hr ho' ho ▸ rfl) hid
  | reopened cur stored hst hcur hco =>
    obtain rfl := h.eq_of_open hr hcur ho hco
    rcases (mem_reopened hr).mp hr' with rfl | rfl | ⟨hr', hid⟩
    · obtain rfl := Option.some.inj hp'
      exact (hC hst r hr ho).1 p hp
    · cases ho'.2
    · exact absurd (h.eq_of_open hr' hr ho' ho ▸ rfl) hid
  | opened stored _ hnone => exact absurd ho (hnone r hr)

/-- **Conversely** a call that leaves the dimension sound, and its last poll not moved back,
comes in order. -/
theorem orderly_of_sound (h : PolledSound pair table)
    (hsound : PolledSound pair (pollOne env pair table c))
    (hforward : LastPolledForward env pair table c) : Orderly pair table c := by
  intro hst r hr ho
  have hm := pollOne_cases env pair table c
  simp only [LastPolledForward] at hforward
  generalize pollOne env pair table c = table' at hm hsound hforward
  cases hm with
  | raised hns => exact absurd hst hns
  | touched cur _ hcur hco heq =>
    obtain rfl := h.eq_of_open hr hcur ho hco
    have htouched : (r.touched c).OpenPolled pair := ⟨⟨ho.1.1, Option.some_ne_none _⟩, ho.2⟩
    refine ⟨fun p hp => ?_, fun hne => ?_⟩
    · exact hforward r hr _ ((mem_setPolled hr).mpr (Or.inl rfl)) ho htouched p _ hp rfl
    · rw [heq] at hne
      cases hne
  | reopened cur stored _ hcur hco =>
    obtain rfl := h.eq_of_open hr hcur ho hco
    refine ⟨fun p hp => ?_, fun _ => ?_⟩
    · exact hforward r hr _ ((mem_reopened hr).mpr (Or.inl rfl)) ho
        ⟨⟨rfl, Option.some_ne_none _⟩, rfl⟩ p _ hp rfl
    · exact hsound.validTo _ ((mem_reopened hr).mpr (Or.inr (Or.inl rfl))) ho.1 _ rfl
  | opened stored _ hnone => exact absurd ho (hnone r hr)

/-- **Polled rates are a sound dimension, exactly when the calls are orderly**: from a table
without polled rows of the pair, every state of a sequence of calls is sound and no call moves
the last poll of the open row back, if and only if every call comes in order. -/
theorem polledSound_iff_orderly (env : RateDbEnv) (hnone : ∀ r ∈ table, ¬ r.Polled pair)
    (calls : List PolledCall) :
    (Always (pollStep env pair) (PolledSound pair) table calls ∧
      Along (pollStep env pair) (LastPolledForward env pair) table calls) ↔
      Along (pollStep env pair) (Orderly pair) table calls := by
  have hstep : ∀ (t : RateTable) (c : PolledCall) (t' : RateTable), PolledSound pair t →
      Orderly pair t c → pollStep env pair t c = some t' → PolledSound pair t' := by
    intro t c t' h hC hs
    obtain rfl := Option.some.inj hs
    exact h.step hC
  have hstart := polledSound_of_none hnone
  refine ⟨?_, fun hC => ⟨?_, ?_⟩⟩
  · rintro ⟨hA, hF⟩
    clear hstart hnone
    induction calls generalizing table with
    | nil => exact trivial
    | cons c calls ih =>
      refine ⟨orderly_of_sound hA.1 (hA.2 _ rfl).head hF.1, fun t ht => ?_⟩
      exact ih (hA.2 t ht) (hF.2 t ht)
  · exact always_of_along hstep (fun _ h => h) hstart hC
  · exact along_of_along hstep (fun _ _ => lastPolledForward_of_orderly) hstart hC

/-- A poll of a cross rate, five minutes apart from the next. -/
def samplePoll (rateMid : ℚ) (atTime : Timestamp) : PolledCall :=
  ⟨⟨none, none, .finite rateMid⟩, 300, atTime⟩

/-- The pair that is polled: dollars for hryvnias. -/
def samplePair : RatePair := ⟨"monobank", "USD", "UAH"⟩

/-- A rate that changes, then stays. -/
theorem polledSound_iff_orderly_three_polls :
    (Always (pollStep sampleRateDb samplePair) (PolledSound samplePair) .empty
        [samplePoll 40 10, samplePoll 41 20, samplePoll 41 30] ∧
      Along (pollStep sampleRateDb samplePair) (LastPolledForward sampleRateDb samplePair) .empty
        [samplePoll 40 10, samplePoll 41 20, samplePoll 41 30]) ↔
      Along (pollStep sampleRateDb samplePair) (Orderly samplePair) .empty
        [samplePoll 40 10, samplePoll 41 20, samplePoll 41 30] :=
  polledSound_iff_orderly sampleRateDb (fun _ hr => absurd hr KeyedTable.not_mem_empty) _

/-- Two polls with the same `date` and other rates leave a row that is never valid; equal rates
with an earlier `date` leave a row polled before it is valid. -/
theorem not_polledSound_of_repeated_date :
    (∃ table, exec (pollStep sampleRateDb samplePair) .empty
        [samplePoll 40 10, samplePoll 41 10] = some table ∧ ¬ PolledSound samplePair table) ∧
    ∃ table, exec (pollStep sampleRateDb samplePair) .empty
        [samplePoll 40 10, samplePoll 40 5] = some table ∧ ¬ PolledSound samplePair table := by
  have hrepeated : (exec (pollStep sampleRateDb samplePair) .empty
      [samplePoll 40 10, samplePoll 41 10]).map (fun table => decide (∃ r ∈ table.rows,
        r.Polled samplePair ∧ r.validTo = some r.validFrom)) = some true := by decide +kernel
  have hearlier : (exec (pollStep sampleRateDb samplePair) .empty
      [samplePoll 40 10, samplePoll 40 5]).map (fun table => decide (∃ r ∈ table.rows,
        r.Polled samplePair ∧ r.lastPolledAt = some 5 ∧ r.validFrom = 10)) = some true := by
    decide +kernel
  obtain ⟨table, he, h⟩ := Option.map_eq_some_iff.mp hrepeated
  obtain ⟨table', he', h'⟩ := Option.map_eq_some_iff.mp hearlier
  refine ⟨⟨table, he, fun hsound => ?_⟩, table', he', fun hsound => ?_⟩
  · obtain ⟨r, hr, hp, hu⟩ := of_decide_eq_true h
    exact absurd (hsound.validTo r hr hp _ hu) (lt_irrefl _)
  · obtain ⟨r, hr, hp, hpolled, hfrom⟩ := of_decide_eq_true h'
    have hle := hsound.lastPolledAt r hr hp 5 hpolled
    rw [hfrom] at hle
    exact absurd hle (by decide)

end Grosh
