import Grosh.Lib.ReadCommitted
import Grosh.PolledRates

/-!
# Concurrent pollers

Several pollers call `upsert_polled` for one pair at once, each call a transaction under READ
COMMITTED. They are meant to wait for each other on the lock of the open row, but a call whose
`SELECT … FOR UPDATE` returns no row has locked nothing: there was no open row yet, or it waited
for one that the holder then closed, and the row the holder opened is not in its snapshot.

The sequential calls are those of the model of polled rates. Here each is a transaction whose
`SELECT` may have to wait, and what it locks when it gets on is the row as it is then. The
equivalence looks at commits alone: whatever a transaction does before it is seen by nobody.

* `atMostOneOpen_iff_guarded` — the pair has at most one open row in every state of a run
  exactly if every transaction that commits without a row lock does so while the pair has none.
-/

namespace Grosh

open Transition ReadCommitted

/-! ## The transaction

`upsert_polled` as a transaction of the read-committed system: one locking statement, then one or
two that write. Alone it does what the sequential model says. -/

/-- The rows `SELECT … FOR UPDATE` finds, in the order of the database. Each is looked at again once
it is locked. -/
def openIds (env : RateDbEnv) (pair : RatePair) (table : RateTable) : List UUID :=
  (env.scan (table.rows.filter fun r => decide (r.OpenPolled pair))).map CurrencyRateRow.id

/-- The `INSERT` of an open row, and the end of the transaction. An argument that does not fit its
column rolls it back. -/
def insertTx (env : RateDbEnv) (pair : RatePair) (c : PolledCall) : Program RateTable UUID :=
  if fitsInteger c.updateCadenceSeconds = false then .rollback
  else
    match storeRates c.rates with
    | none => .rollback
    | some stored => .write (fun t => t.insertIgnore (openedRow env t pair stored c)) .commit

/-- What follows the `SELECT`, by the row it has returned: none, one with equal rates, or one with
others. -/
def decideTx (env : RateDbEnv) (pair : RatePair) (c : PolledCall) :
    Option CurrencyRateRow → Program RateTable UUID
  | some current =>
    if ratesEqual current.rates c.rates then
      if fitsInteger c.updateCadenceSeconds = false then .rollback
      else .write (fun t => setPolled t current.id c) .commit
    else .write (fun t => setValidTo t current.id c.atTime) (insertTx env pair c)
  | none => insertTx env pair c

/-- `upsert_polled`, statement by statement. A row that was closed while the `SELECT` waited for it
is no longer found. -/
def upsertPolledTx (env : RateDbEnv) (pair : RatePair) (c : PolledCall) :
    Program RateTable UUID :=
  .lock true (openIds env pair) fun held table =>
    decideTx env pair c (held.head?.bind table.find?)

variable {env : RateDbEnv} {table : RateTable} {pair : RatePair} {c : PolledCall}
  {stored : StoredRates} {r cur : CurrencyRateRow}

theorem mem_openIds {k : UUID} :
    k ∈ openIds env pair table ↔ ∃ r ∈ table, r.OpenPolled pair ∧ r.id = k := by
  simp only [openIds, List.mem_map, (env.scan_perm _).mem_iff, List.mem_filter, decide_eq_true_eq,
    and_assoc]
  exact Iff.rfl

/-- What the transaction makes of an `INSERT`, with nobody in between. -/
theorem alone_insertTx (db view : RateTable) :
    (insertTx env pair c).alone db view =
      match insertPolled env view pair c with
      | .ok table' => table'
      | .error _ => db := by
  simp only [insertTx, insertPolled]
  split
  · rfl
  · rcases storeRates c.rates with _ | stored
    · rfl
    · rfl

/-- **Alone**, the transaction is a call of `upsert_polled`. -/
theorem alone_upsertPolledTx :
    (upsertPolledTx env pair c).alone table table = pollOne env pair table c := by
  have hfetch : ((openIds env pair table).take 1).head?.bind table.find? =
      fetchrow env table fun r => decide (r.OpenPolled pair) := by
    rcases hcur : fetchrow env table (fun r => decide (r.OpenPolled pair)) with _ | cur
    · rw [fetchrow, List.head?_eq_none_iff] at hcur
      rw [openIds, hcur]
      rfl
    · have hmem := (fetchrow_eq_some hcur).1
      obtain ⟨rest, hrest⟩ := List.head?_eq_some_iff.mp hcur
      rw [openIds, hrest]
      exact KeyedTable.find?_eq_some.mpr ⟨hmem, rfl⟩
  simp only [upsertPolledTx, Program.alone, if_true, hfetch, pollOne, upsertPolled]
  rcases fetchrow env table (fun r => decide (r.OpenPolled pair)) with _ | cur
  · exact alone_insertTx table table
  · simp only [decideTx, touchPolled]
    split
    · split <;> rfl
    · exact alone_insertTx table _

/-! ## Where a poller is

The invariant ties what a poller has locked to what is committed: as long as it holds the row, the
row is there and open. -/

/-- At most one open polled row of the pair, which is what the pollers are meant to keep. -/
def AtMostOneOpen (pair : RatePair) (table : RateTable) : Prop :=
  ∀ r ∈ table, ∀ r' ∈ table, r.OpenPolled pair → r'.OpenPolled pair → r = r'

/-- The closing of the row that was locked, if one was. It is not committed before the next row is
opened. -/
def closing (c : PolledCall) : Option CurrencyRateRow → RateTable → RateTable
  | none, t => t
  | some cur, t => setValidTo t cur.id c.atTime

/-- A poller's place in its transaction and its uncommitted changes, given the row it has
locked. -/
inductive PollerTx (env : RateDbEnv) (pair : RatePair) (c : PolledCall) :
    Option CurrencyRateRow → Tx RateTable UUID → Prop where
  | start : PollerTx env pair c none ⟨.running (upsertPolledTx env pair c), id⟩
  | locking (o : Option CurrencyRateRow) (waiting : List UUID) :
      PollerTx env pair c o ⟨.locking true (openIds env pair)
        (fun held table => decideTx env pair c (held.head?.bind table.find?)) waiting
        (o.map CurrencyRateRow.id).toList, id⟩
  | decided (o : Option CurrencyRateRow) :
      PollerTx env pair c o ⟨.running (decideTx env pair c o), id⟩
  | touched (cur : CurrencyRateRow) :
      PollerTx env pair c (some cur) ⟨.running .commit, fun t => setPolled t cur.id c⟩
  | inserting (o : Option CurrencyRateRow) :
      PollerTx env pair c o ⟨.running (insertTx env pair c), closing c o⟩
  | inserted (o : Option CurrencyRateRow) (stored : StoredRates) :
      PollerTx env pair c o ⟨.running .commit, fun t =>
        (closing c o t).insertIgnore (openedRow env (closing c o t) pair stored c)⟩
  | failed (o : Option CurrencyRateRow) (change : RateTable → RateTable) :
      PollerTx env pair c o ⟨.running .rollback, change⟩
  | ended (b : Bool) (change : RateTable → RateTable) :
      PollerTx env pair c none ⟨.ended b, change⟩

variable {τ : Type*} {s s' : State RateTable UUID τ} {i : τ} {l : Label τ}
  {o : Option CurrencyRateRow}

/-- The row a poller has locked is committed and open, and it holds no other. -/
structure PollerAt (env : RateDbEnv) (pair : RatePair) (c : PolledCall)
    (s : State RateTable UUID τ) (i : τ) (o : Option CurrencyRateRow) : Prop where
  holds : ∀ k, s.holder k = some i ↔ ∃ r, o = some r ∧ r.id = k
  row : ∀ r, o = some r → r ∈ s.db ∧ r.OpenPolled pair
  place : PollerTx env pair c o (s.tx i)

/-- The row the `SELECT` returns is the one that was locked, as it is committed. -/
theorem PollerAt.selected (h : PollerAt env pair c s i o) :
    ((o.map CurrencyRateRow.id).toList.head?.bind s.db.find?) = o := by
  cases o with
  | none => rfl
  | some r => exact KeyedTable.find?_eq_some.mpr ⟨(h.row r rfl).1, rfl⟩

theorem insertTx_ne_commit : insertTx env pair c ≠ .commit := by
  simp only [insertTx]
  split
  · exact fun h => by cases h
  · rcases storeRates c.rates with _ | stored
    · exact fun h => by cases h
    · exact fun h => by cases h

theorem decideTx_ne_commit : decideTx env pair c o ≠ .commit := by
  cases o with
  | none => exact insertTx_ne_commit
  | some cur =>
    simp only [decideTx]
    split
    · split <;> exact fun h => by cases h
    · exact fun h => by cases h

/-- What a poller commits: the open row extended, or a row opened, with or without one closed before
it. -/
theorem PollerTx.commit_cases {tx : Tx RateTable UUID} (h : PollerTx env pair c o tx)
    (hp : tx.phase = .running .commit) :
    (∃ cur, o = some cur ∧ tx.change = fun t => setPolled t cur.id c) ∨
      ∃ stored, tx.change = fun t =>
        (closing c o t).insertIgnore (openedRow env (closing c o t) pair stored c) := by
  cases h with
  | decided o => exact absurd (Phase.running.inj hp) decideTx_ne_commit
  | touched cur => exact Or.inl ⟨cur, rfl, rfl⟩
  | inserting o => exact absurd (Phase.running.inj hp) insertTx_ne_commit
  | inserted o stored => exact Or.inr ⟨stored, rfl⟩
  | _ => cases hp

theorem mem_closing {t : RateTable} (hr : r ∈ t) (h : ∀ cur, o = some cur → r.id ≠ cur.id) :
    r ∈ closing c o t := by
  cases o with
  | none => exact hr
  | some cur =>
    simp only [closing, setValidTo]
    exact KeyedTable.mem_updateWhere_of_not _ hr (by simpa using h cur rfl)

/-- A poller leaves the rows alone that it has not locked, so that the rows of others are stable. -/
theorem PollerAt.keepsUnheld (h : PollerAt env pair c s i o)
    (hp : (s.tx i).phase = .running .commit) :
    State.KeepsUnheld (fun r t => r ∈ t) CurrencyRateRow.id s i := by
  intro r t hfree hr
  have hne : ∀ cur, o = some cur → r.id ≠ cur.id :=
    fun cur hcur hid => hfree ((h.holds r.id).mpr ⟨cur, hcur, hid.symm⟩)
  obtain ⟨cur, hcur, hch⟩ | ⟨stored, hch⟩ := h.place.commit_cases hp
  · rw [hch]
    exact KeyedTable.mem_updateWhere_of_not _ hr (by simpa using hne cur hcur)
  · rw [hch]
    exact KeyedTable.mem_insertIgnore_of_mem (mem_closing hr hne)

/-! ## What a poller does

One lemma for each statement a poller may be at. A lock is only taken by the first. -/

section Step

variable [DecidableEq τ]

theorem PollerAt.goto (h : PollerAt env pair c s i o) {phase : Phase RateTable UUID}
    (hp : PollerTx env pair c o ⟨phase, (s.tx i).change⟩) :
    PollerAt env pair c (s.goto i phase) i o := by
  refine ⟨h.holds, h.row, ?_⟩
  rw [State.goto_tx]
  exact hp

theorem PollerAt.wrote (h : PollerAt env pair c s i o) {change : RateTable → RateTable}
    {rest : Program RateTable UUID}
    (hp : PollerTx env pair c o ⟨.running rest, fun d => change ((s.tx i).change d)⟩) :
    PollerAt env pair c (s.wrote i change rest) i o := by
  refine ⟨h.holds, h.row, ?_⟩
  rw [State.wrote_tx]
  exact hp

theorem pollerAt_finish {db : RateTable} {b : Bool} :
    PollerAt env pair c (s.finish i db b) i none := by
  refine ⟨fun k => iff_of_false State.finish_holder_self ?_, fun r hr => (by cases hr), ?_⟩
  · rintro ⟨r, hr, -⟩
    cases hr
  · rw [State.finish_tx]
    exact .ended b _

/-- A free row that is found is locked, if it is still open. -/
theorem PollerAt.hold (h : PollerAt env pair c s i none) {waiting : List UUID}
    (hr : r ∈ s.db) (ho : r.OpenPolled pair) (hid : (s.tx i).change = id) :
    PollerAt env pair c (s.hold i r.id (.locking true (openIds env pair)
      (fun held table => decideTx env pair c (held.head?.bind table.find?)) waiting [r.id])) i
      (some r) := by
  refine ⟨fun k => ?_, fun r' hr' => ?_, ?_⟩
  · simp only [State.hold]
    by_cases hk : k = r.id
    · subst hk
      rw [Function.update_self]
      exact iff_of_true rfl ⟨r, rfl, rfl⟩
    · rw [Function.update_of_ne hk, h.holds]
      refine iff_of_false ?_ ?_
      · rintro ⟨r', hr', -⟩
        cases hr'
      · rintro ⟨r', hr', rfl⟩
        obtain rfl := Option.some.inj hr'
        exact hk rfl
  · obtain rfl := Option.some.inj hr'
    exact ⟨hr, ho⟩
  · rw [State.hold_tx, hid]
    exact .locking (some r) waiting

/-- The step of a poller that is about to insert, or to fail at it. -/
theorem PollerAt.insert (h : PollerAt env pair c s i o)
    (htx : s.tx i = ⟨.running (insertTx env pair c), closing c o⟩)
    (hs : s.runStep i = some s') : ∃ o', PollerAt env pair c s' i o' := by
  by_cases hfit : fitsInteger c.updateCadenceSeconds = false
  · simp only [State.runStep, htx, insertTx, if_pos hfit] at hs
    obtain rfl := Option.some.inj hs
    exact ⟨none, pollerAt_finish⟩
  rcases hst : storeRates c.rates with _ | stored
  · simp only [State.runStep, htx, insertTx, if_neg hfit, hst] at hs
    obtain rfl := Option.some.inj hs
    exact ⟨none, pollerAt_finish⟩
  · simp only [State.runStep, htx, insertTx, if_neg hfit, hst] at hs
    obtain rfl := Option.some.inj hs
    refine ⟨o, h.wrote ?_⟩
    rw [htx]
    exact .inserted o stored

/-- The step of a poller whose `SELECT … FOR UPDATE` is under way: it locks a row, passes over one
that has been closed, or ends with none. -/
theorem PollerAt.select (h : PollerAt env pair c s i o) {waiting : List UUID}
    (htx : s.tx i = ⟨.locking true (openIds env pair)
      (fun held table => decideTx env pair c (held.head?.bind table.find?)) waiting
      (o.map CurrencyRateRow.id).toList, id⟩)
    (hs : s.runStep i = some s') : ∃ o', PollerAt env pair c s' i o' := by
  have hview : s.view i = s.db := by rw [State.view, htx]; rfl
  have hnext : PollerTx env pair c o ⟨.running (decideTx env pair c
      ((o.map CurrencyRateRow.id).toList.head?.bind (s.view i).find?)), (s.tx i).change⟩ := by
    rw [hview, h.selected, htx]
    exact .decided o
  cases waiting with
  | nil =>
    simp only [State.runStep, htx] at hs
    obtain rfl := Option.some.inj hs
    exact ⟨o, h.goto hnext⟩
  | cons k waiting =>
    cases o with
    | some r =>
      simp only [State.runStep, htx] at hs
      obtain rfl := Option.some.inj hs
      exact ⟨some r, h.goto hnext⟩
    | none =>
      simp only [State.runStep, htx] at hs
      split at hs
      · next hd => exact absurd (show false = true from hd) Bool.false_ne_true
      split at hs
      · cases hs
      split at hs
      · next hk =>
        obtain rfl := Option.some.inj hs
        rw [hview] at hk
        obtain ⟨r, hr, ho, rfl⟩ := mem_openIds.mp hk
        exact ⟨some r, h.hold hr ho (by rw [htx])⟩
      · obtain rfl := Option.some.inj hs
        refine ⟨none, h.goto ?_⟩
        rw [htx]
        exact .locking none waiting

/-- The step of a poller that knows the open row, if there is one: it compares the rates. -/
theorem PollerAt.decide (h : PollerAt env pair c s i o)
    (htx : s.tx i = ⟨.running (decideTx env pair c o), id⟩)
    (hs : s.runStep i = some s') : ∃ o', PollerAt env pair c s' i o' := by
  cases o with
  | none => exact h.insert htx hs
  | some cur =>
    by_cases heq : ratesEqual cur.rates c.rates = true
    swap
    · simp only [State.runStep, htx, decideTx, if_neg heq] at hs
      obtain rfl := Option.some.inj hs
      refine ⟨some cur, h.wrote ?_⟩
      rw [htx]
      exact .inserting (some cur)
    by_cases hfit : fitsInteger c.updateCadenceSeconds = false
    · simp only [State.runStep, htx, decideTx, if_pos heq, if_pos hfit] at hs
      obtain rfl := Option.some.inj hs
      exact ⟨none, pollerAt_finish⟩
    · simp only [State.runStep, htx, decideTx, if_pos heq, if_neg hfit] at hs
      obtain rfl := Option.some.inj hs
      refine ⟨some cur, h.wrote ?_⟩
      rw [htx]
      exact .touched cur

/-- **A poller's step** keeps it in place. -/
theorem PollerAt.step (h : PollerAt env pair c s i o) (hs : s.runStep i = some s') :
    ∃ o', PollerAt env pair c s' i o' := by
  obtain hp := h.place
  generalize htx : s.tx i = tx at hp
  cases hp with
  | start =>
    simp only [State.runStep, htx, upsertPolledTx] at hs
    obtain rfl := Option.some.inj hs
    refine ⟨none, h.goto ?_⟩
    rw [htx]
    exact .locking none _
  | locking o waiting => exact h.select htx hs
  | decided o => exact h.decide htx hs
  | touched cur =>
    simp only [State.runStep, htx] at hs
    obtain rfl := Option.some.inj hs
    exact ⟨none, pollerAt_finish⟩
  | inserting o => exact h.insert htx hs
  | inserted o stored =>
    simp only [State.runStep, htx] at hs
    obtain rfl := Option.some.inj hs
    exact ⟨none, pollerAt_finish⟩
  | failed o change =>
    simp only [State.runStep, htx] at hs
    obtain rfl := Option.some.inj hs
    exact ⟨none, pollerAt_finish⟩
  | ended b change =>
    simp only [State.runStep, htx] at hs
    cases hs

end Step

/-! ## What a commit leaves

Whether one open row is left is decided at a commit, by whether the poller has locked the row it
replaces. -/

/-- The transaction that commits has locked a row, or the pair has no open row. -/
def Guarded (pair : RatePair) (s : State RateTable UUID τ) : Label τ → Prop
  | .run i => (s.tx i).phase = .running .commit → (∀ k, s.holder k ≠ some i) →
      ∀ r ∈ s.db, ¬ r.OpenPolled pair
  | .abort _ => True

/-- The locked row extended: the open rows stay what they were, with one of them changed. -/
theorem AtMostOneOpen.touch (h : AtMostOneOpen pair table) (hcur : cur ∈ table)
    (ho : cur.OpenPolled pair) : AtMostOneOpen pair (setPolled table cur.id c) := by
  have hsame : ∀ r ∈ setPolled table cur.id c, r.OpenPolled pair → r = cur.touched c := by
    intro r hr hro
    rcases (mem_setPolled hcur).mp hr with rfl | ⟨hr, hid⟩
    · rfl
    · exact absurd (h r hr cur hcur hro ho ▸ rfl) hid
  intro r hr r' hr' hro hro'
  rw [hsame r hr hro, hsame r' hr' hro']

/-- The locked row closed: the new one takes its place. -/
theorem AtMostOneOpen.reopen (h : AtMostOneOpen pair table) (hcur : cur ∈ table)
    (ho : cur.OpenPolled pair) :
    AtMostOneOpen pair ((setValidTo table cur.id c.atTime).insertIgnore
      (openedRow env (setValidTo table cur.id c.atTime) pair stored c)) := by
  set new := openedRow env (setValidTo table cur.id c.atTime) pair stored c
  have hnew : ∀ r ∈ (setValidTo table cur.id c.atTime).insertIgnore new,
      r.OpenPolled pair → r = new := by
    intro r hr hro
    rcases (mem_reopened hcur).mp hr with rfl | rfl | ⟨hr, hid⟩
    · rfl
    · cases hro.2
    · exact absurd (h r hr cur hcur hro ho ▸ rfl) hid
  intro r hr r' hr' hro hro'
  rw [hnew r hr hro, hnew r' hr' hro']

/-- A row opened beside what is there: it is the only one exactly if none was open. -/
theorem atMostOneOpen_insert :
    AtMostOneOpen pair (table.insertIgnore (openedRow env table pair stored c)) ↔
      ∀ r ∈ table, ¬ r.OpenPolled pair := by
  have hopen : (openedRow env table pair stored c).OpenPolled pair :=
    ⟨⟨rfl, Option.some_ne_none _⟩, rfl⟩
  refine ⟨fun h r hr hro => ?_, fun h r hr r' hr' hro hro' => ?_⟩
  · have heq := h r (mem_insert_opened.mpr (Or.inl hr)) _ (mem_insert_opened.mpr (Or.inr rfl))
      hro hopen
    have hkey : table.HasKey (openedRow env table pair stored c).id :=
      heq ▸ KeyedTable.hasKey_of_mem hr
    exact openedRow_fresh hkey
  · rcases mem_insert_opened.mp hr with hr | rfl
    · exact absurd hro (h r hr)
    rcases mem_insert_opened.mp hr' with hr' | rfl
    · exact absurd hro' (h r' hr')
    · rfl

/-- **A commit**: from at most one open row, at most one is left exactly if a row was locked or
none was open. -/
theorem PollerAt.atMostOneOpen_iff (h : PollerAt env pair c s i o)
    (hp : (s.tx i).phase = .running .commit) (hone : AtMostOneOpen pair s.db) :
    AtMostOneOpen pair (s.view i) ↔ Guarded pair s (.run i) := by
  cases o with
  | none =>
    have hfree : ∀ k, s.holder k ≠ some i := by
      intro k hk
      obtain ⟨r, hr, -⟩ := (h.holds k).mp hk
      cases hr
    obtain ⟨cur, hcur, -⟩ | ⟨stored, hch⟩ := h.place.commit_cases hp
    · cases hcur
    · rw [State.view, hch]
      exact atMostOneOpen_insert.trans ⟨fun hno _ _ => hno, fun hg => hg hp hfree⟩
  | some cur =>
    obtain ⟨hcur, ho⟩ := h.row cur rfl
    have hg : Guarded pair s (.run i) :=
      fun _ hfree => absurd ((h.holds cur.id).mpr ⟨cur, rfl, rfl⟩) (hfree cur.id)
    refine iff_of_true ?_ hg
    obtain ⟨cur', hcur', hch⟩ | ⟨stored, hch⟩ := h.place.commit_cases hp
    · obtain rfl := Option.some.inj hcur'
      rw [State.view, hch]
      exact hone.touch hcur ho
    · rw [State.view, hch]
      exact hone.reopen hcur ho

/-! ## Every interleaving

From the steps to the runs. A poller that has locked nothing may still commit, which is the one
thing to look at. -/

/-- Every poller is in place. It is the invariant of a run. -/
def PollersAt (env : τ → RateDbEnv) (pair : RatePair) (calls : τ → PolledCall)
    (s : State RateTable UUID τ) : Prop :=
  ∀ i, ∃ o, PollerAt (env i) pair (calls i) s i o

/-- The pollers about to start, on a table that is committed. -/
def pollers (env : τ → RateDbEnv) (pair : RatePair) (calls : τ → PolledCall)
    (table : RateTable) : State RateTable UUID τ :=
  .start table fun i => upsertPolledTx (env i) pair (calls i)

variable {envs : τ → RateDbEnv} {calls : τ → PolledCall}

theorem pollersAt_start : PollersAt envs pair calls (pollers envs pair calls table) := by
  intro i
  refine ⟨none, fun k => iff_of_false (fun h => by cases h) ?_, fun r hr => (by cases hr), .start⟩
  rintro ⟨r, hr, -⟩
  cases hr

variable [DecidableEq τ]

/-- **A poller that is left alone** ends, and leaves what its call leaves. -/
theorem exec_poller_alone (i : τ) :
    ∃ labels s', exec State.step (pollers envs pair calls table) labels = some s' ∧
      s'.db = pollOne (envs i) pair table (calls i) ∧ ∃ b, (s'.tx i).phase = .ended b := by
  obtain ⟨labels, s', he, hdb, hend⟩ := State.exec_alone (upsertPolledTx (envs i) pair (calls i))
    (pollers envs pair calls table) (fun _ => Or.inl rfl) rfl
  exact ⟨labels, s', he, hdb.trans alone_upsertPolledTx, hend⟩

/-- **A step** of the system keeps every poller in place. -/
theorem PollersAt.step (h : PollersAt envs pair calls s) (hs : s.step l = some s') :
    PollersAt envs pair calls s' := by
  intro j
  by_cases hj : j = l.who
  · subst hj
    obtain ⟨o, ho⟩ := h l.who
    cases l with
    | run i => exact ho.step hs
    | abort i =>
      obtain ⟨i', hl, -⟩ | ⟨i', hl, -, rfl⟩ := State.step_cases hs
      · cases hl
      · cases hl
        exact ⟨none, pollerAt_finish⟩
  obtain ⟨o, ho⟩ := h j
  refine ⟨o, fun k => ?_, fun r hr => ⟨?_, (ho.row r hr).2⟩, ?_⟩
  · rw [State.holder_iff_of_ne hs hj]
    exact ho.holds k
  · have hheld : s.holder r.id = some j := (ho.holds r.id).mpr ⟨r, hr, rfl⟩
    have hkeep : ∀ i, (s.tx i).phase = .running .commit →
        State.KeepsUnheld (fun r (t : RateTable) => r ∈ t) CurrencyRateRow.id s i := by
      intro i hp
      obtain ⟨o', ho'⟩ := h i
      exact ho'.keepsUnheld hp
    exact State.mem_of_held hkeep (ho.row r hr).1 hheld hs hj
  · rw [State.tx_of_ne hs hj]
    exact ho.place

/-- **A step** from at most one open row: it leaves at most one exactly if it is guarded. -/
theorem PollersAt.atMostOneOpen_iff (h : PollersAt envs pair calls s)
    (hone : AtMostOneOpen pair s.db) (hs : s.step l = some s') :
    AtMostOneOpen pair s'.db ↔ Guarded pair s l := by
  cases l with
  | abort i =>
    obtain ⟨i', hl, -⟩ | ⟨i', -, -, rfl⟩ := State.step_cases hs
    · cases hl
    · exact iff_of_true hone trivial
  | run i =>
    by_cases hp : (s.tx i).phase = .running .commit
    · simp only [State.step, State.runStep, hp] at hs
      obtain rfl := Option.some.inj hs
      obtain ⟨o, ho⟩ := h i
      exact ho.atMostOneOpen_iff hp hone
    · obtain hdb | ⟨i', hl, hp', -⟩ := State.db_step hs
      · rw [hdb]
        exact iff_of_true hone fun hcommit => absurd hcommit hp
      · cases hl
        exact absurd hp' hp

/-- **Concurrent pollers keep one open row, exactly when none that locked nothing opens another**:
from a table with at most one open row of the pair, every state of a run has at most one if and
only if every transaction that commits without a row lock does so while the pair has none. -/
theorem atMostOneOpen_iff_guarded (envs : τ → RateDbEnv) (calls : τ → PolledCall)
    (hone : AtMostOneOpen pair table) (labels : List (Label τ)) :
    Always State.step (fun s => AtMostOneOpen pair s.db) (pollers envs pair calls table) labels ↔
      Along State.step (Guarded pair) (pollers envs pair calls table) labels := by
  refine always_iff_along (fun s l s' h hs => h.step hs)
    (fun s l s' h hone hs => h.atMostOneOpen_iff hone hs) (fun s l hs => ?_) pollersAt_start hone
  -- a commit never waits
  cases l with
  | abort i => exact trivial
  | run i =>
    intro hp
    simp only [State.step, State.runStep, hp] at hs
    cases hs

/-- The row of a rate that was polled once, and is open. -/
def sampleOpenRow : CurrencyRateRow where
  id := 1
  pair := samplePair
  rates := ⟨none, none, .units 4000000000 (by decide)⟩
  validFrom := 10
  validTo := none
  lastPolledAt := some 10
  updateCadenceSeconds := some 300

/-- A table with one open row. -/
def sampleOpenTable : RateTable := KeyedTable.empty.insertIgnore sampleOpenRow

/-- Two pollers, each with a new rate. -/
def sampleCalls : Bool → PolledCall
  | false => samplePoll 41 20
  | true => samplePoll 42 30

/-- Two pollers after one another, from a table with an open row. -/
theorem atMostOneOpen_iff_guarded_two_pollers :
    Always State.step (fun s => AtMostOneOpen samplePair s.db)
        (pollers (fun _ => sampleRateDb) samplePair sampleCalls sampleOpenTable)
        (List.replicate 6 (.run false) ++ List.replicate 6 (.run true)) ↔
      Along State.step (Guarded samplePair)
        (pollers (fun _ => sampleRateDb) samplePair sampleCalls sampleOpenTable)
        (List.replicate 6 (.run false) ++ List.replicate 6 (.run true)) := by
  refine atMostOneOpen_iff_guarded (fun _ => sampleRateDb) sampleCalls ?_ _
  intro r hr r' hr' _ _
  rw [sampleOpenTable, KeyedTable.mem_insertIgnore_of_not_hasKey KeyedTable.not_hasKey_empty]
    at hr hr'
  obtain hr | rfl := hr
  · exact absurd hr KeyedTable.not_mem_empty
  obtain hr' | rfl := hr'
  · exact absurd hr' KeyedTable.not_mem_empty
  · rfl

/-- Two open rows: of two pollers that find none, and of one that waited for the row the other
closed. -/
theorem two_open_rows :
    (∃ labels s, exec State.step
        (pollers (fun _ => sampleRateDb) samplePair sampleCalls KeyedTable.empty) labels = some s ∧
      ¬ AtMostOneOpen samplePair s.db) ∧
    ∃ labels s, exec State.step
        (pollers (fun _ => sampleRateDb) samplePair sampleCalls sampleOpenTable) labels = some s ∧
      ¬ AtMostOneOpen samplePair s.db := by
  have hfirst : (exec State.step
      (pollers (fun _ => sampleRateDb) samplePair sampleCalls KeyedTable.empty)
      (List.replicate 3 (.run false) ++ List.replicate 4 (.run true) ++ [.run false])).map
        (fun s => decide (∃ r ∈ s.db.rows, ∃ r' ∈ s.db.rows, r.OpenPolled samplePair ∧
          r'.OpenPolled samplePair ∧ r.id ≠ r'.id)) = some true := by decide +kernel
  have hwaited : (exec State.step
      (pollers (fun _ => sampleRateDb) samplePair sampleCalls sampleOpenTable)
      ([.run true] ++ List.replicate 6 (.run false) ++ List.replicate 4 (.run true))).map
        (fun s => decide (∃ r ∈ s.db.rows, ∃ r' ∈ s.db.rows, r.OpenPolled samplePair ∧
          r'.OpenPolled samplePair ∧ r.id ≠ r'.id)) = some true := by decide +kernel
  have hbroken : ∀ {t : RateTable}, (∃ r ∈ t.rows, ∃ r' ∈ t.rows, r.OpenPolled samplePair ∧
      r'.OpenPolled samplePair ∧ r.id ≠ r'.id) → ¬ AtMostOneOpen samplePair t := by
    rintro t ⟨r, hr, r', hr', ho, ho', hne⟩ hone
    exact hne (hone r hr r' hr' ho ho' ▸ rfl)
  obtain ⟨s, he, h⟩ := Option.map_eq_some_iff.mp hfirst
  obtain ⟨s', he', h'⟩ := Option.map_eq_some_iff.mp hwaited
  exact ⟨⟨_, s, he, hbroken (of_decide_eq_true h)⟩, _, s', he', hbroken (of_decide_eq_true h')⟩

end Grosh
