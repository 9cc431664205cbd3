import Grosh.Lib.Transition
import Grosh.Normalization
import Grosh.PairLinks

/-!
# The reprocess job beside the enrichment consumer

`reprocess_user` runs as separate statements — snapshot, read, delete, publish, catch-up,
verify, release or restore — while the enrichment consumer keeps committing units of work.
The system is a labelled transition system (`ReprocessState.step`): `job` executes the next
statement of the job, `raises` lets it raise, the other labels are the choices of the
producer's broker, of the consumer and of other producers. A produce call only enqueues into
the producer's local queue; the broker acknowledges or fails the oldest message later.

The consumer commits the unit of work of the oldest unconsumed event, then its offset; the
job's user has one partition. Each statement and each unit of work is atomic.
-/

namespace Grosh

/-! ## The statements of the job

Each is a transaction of its own, so that the consumer and other jobs see what lies between them:
between the delete and the last event that is consumed again, the rows of the user are missing. -/

/-- `ON DELETE SET NULL`. -/
def Transaction.unlink (r : Transaction) : Transaction := { r with relatedTransactionId := none }

@[simp] theorem Transaction.unlink_id (r : Transaction) : r.unlink.id = r.id := rfl

/-- `DELETE FROM transactions WHERE user_id = $1`: links to a deleted row become `NULL`, and its
anomalies go with it. Of the rows of other users only the links can change. -/
def Database.deleteUser (db : Database) (userId : UUID) : Database where
  transactions :=
    (db.transactions.deleteWhere fun r => decide (r.userId = userId)).updateWhere
      (fun r => decide (∃ q ∈ db.rowsOf userId, r.relatedTransactionId = some q.id))
      Transaction.unlink Transaction.unlink_id
  anomalies :=
    db.anomalies.deleteWhere fun a => decide (∃ q ∈ db.rowsOf userId, a.transactionId = q.id)

/-- One row of `restore_from_backup`: `ON CONFLICT (id) DO NOTHING`. A row whose id is there stays
as the replay has written it. -/
def restoreRow (db : Database) (r : Transaction) : Option Database :=
  if db.Stored r.id then some db
  else if db.DedupTaken r.accountId r.sourceId then none
  else some { db with transactions := db.transactions.insertIgnore r }

/-- `restore_from_backup` on a snapshot, one transaction: the foreign key of the links is
deferred, so it is checked when the rows are in. `none` is a constraint violation. -/
def restoreRows (db : Database) (rows : List Transaction) : Option Database :=
  (rows.foldlM restoreRow db).bind fun db' =>
    if ∀ r ∈ rows, ¬ db.Stored r.id →
        r.relatedTransactionId.all (fun p => decide (db'.Stored p)) = true then some db'
    else none

/-- `verify_snapshot`: the snapshot ids absent from the table. It looks at the ids alone, and only
at the rows of the user. -/
def verifySnapshot (db : Database) (userId : UUID) (snapshotIds : List UUID) : List UUID :=
  snapshotIds.filter fun id => decide (id ∉ (db.rowsOf userId).map Transaction.id)

/-! ## The system

One job of one user, the producer of the job, and the consumer of the user's partition. The job
waits for no answer of the broker until it polls the table for its rows. -/

/-- Where the job is: the next statement and the values it still needs. A value that was read stays
what it was, even if the table changes. -/
inductive JobState : Type where
  /-- `lock_exists` -/
  | start
  /-- `acquire_advisory_lock` -/
  | advisoryLock
  /-- `snapshot_transactions`: the `SELECT` -/
  | snapshot
  /-- `snapshot_transactions`: the `INSERT` into `reprocessing_backups` -/
  | backup (rows : List Transaction)
  /-- `select_for_user` and `to_normalized` -/
  | read (snapshotIds : List UUID)
  /-- `delete_user_transactions` -/
  | delete (snapshotIds : List UUID) (events : List NormalizedTransaction)
  /-- the next `produce`, or the `flush` after the last -/
  | publish (snapshotIds : List UUID) (published : ℕ) (remaining : List NormalizedTransaction)
  /-- the next poll of the catch-up wait -/
  | catchUp (snapshotIds : List UUID) (expected polls : ℕ)
  /-- `verify_snapshot` -/
  | verify (snapshotIds : List UUID)
  /-- `restore_from_backup`, after an exception -/
  | restore (snapshotIds : List UUID)
  /-- `release_lock_atomic` on the success path -/
  | release
  /-- `release_lock_atomic` after the restore -/
  | releaseRestored
  /-- `reprocess_user` has returned -/
  | returned (proceeded : Bool)
  /-- `reprocess_user` has raised; whether a restore went through before -/
  | raised (restored : Bool)

/-- The job has returned or raised. -/
def JobState.Exited : JobState → Prop
  | .returned _ => True
  | .raised _ => True
  | _ => False

instance : DecidablePred JobState.Exited
  | .returned _ => .isTrue trivial
  | .raised _ => .isTrue trivial
  | .start | .advisoryLock | .snapshot | .backup _ | .read _ | .delete _ _ | .publish _ _ _
  | .catchUp _ _ _ | .verify _ | .restore _ | .release | .releaseRestored => .isFalse id

/-- The snapshot ids a job holds that may still verify or restore them. -/
def JobState.snapshotIds? : JobState → Option (List UUID)
  | .read ids => some ids
  | .delete ids _ => some ids
  | .publish ids _ _ => some ids
  | .catchUp ids _ _ => some ids
  | .verify ids => some ids
  | .restore ids => some ids
  | _ => none

/-- Where an exception in the next statement leads: after the delete it is caught and the backup
restored, everywhere else it leaves `reprocess_user`. That includes the delete itself, which is then
rolled back. -/
def JobState.raise : JobState → Option JobState
  | .publish ids _ _ => some (.restore ids)
  | .catchUp ids _ _ => some (.restore ids)
  | .verify ids => some (.restore ids)
  | .releaseRestored => some (.raised true)
  | .start | .advisoryLock | .snapshot | .backup _ | .read _ | .delete _ _ | .restore _
  | .release => some (.raised false)
  | .returned _ | .raised _ => none

theorem JobState.raise_cases {j j' : JobState} (h : j.raise = some j') :
    (∃ ids, j.snapshotIds? = some ids ∧ j' = .restore ids) ∨ ∃ b, j' = .raised b := by
  cases j <;> first
    | exact Or.inl ⟨_, rfl, (Option.some.inj h).symm⟩
    | exact Or.inr ⟨_, (Option.some.inj h).symm⟩
    | cases h

theorem JobState.not_exited_of_raise {j j' : JobState} (h : j.raise = some j') : ¬ j.Exited := by
  cases j <;> first
    | exact fun hx => hx
    | cases h

/-- The job has taken its snapshot. -/
def JobState.Begun : JobState → Prop
  | .start => False
  | .advisoryLock => False
  | .snapshot => False
  | _ => True

/-- The state of the job of one user and of the consumer beside it: the tables, the lock row and the
backups of the user, where the job is, and the events on their way from the job to the consumer. -/
structure ReprocessState : Type where
  db : Database
  /-- the user's row of `reprocessing_locks` -/
  locked : Bool
  /-- the user's rows of `reprocessing_backups`, newest first -/
  backups : List (List Transaction)
  job : JobState
  /-- the job's producer queue: enqueued, not yet acknowledged -/
  queue : List NormalizedTransaction
  /-- the events of the partition whose offset is not committed -/
  topic : List NormalizedTransaction
  /-- the oldest of them has been processed -/
  processed : Bool

/-- Who moves: the job, the broker with what the job's producer has enqueued, or the consumer. Each
may be as slow as it likes, and fail where it can. -/
inductive ReprocessLabel : Type where
  /-- the job executes its next statement -/
  | job
  /-- the job's next statement raises: its local queue is full, or the database refuses it -/
  | raises
  /-- the broker acknowledges the oldest enqueued event -/
  | acknowledge
  /-- the delivery of the oldest enqueued event fails for good -/
  | deliveryFails
  /-- another producer's event reaches the partition -/
  | arrive (tx : NormalizedTransaction)
  /-- the consumer processes the oldest event, reading these tables beside the two it writes -/
  | enrich (env : PipelineEnv)
  /-- the consumer commits the offset of the event it has processed -/
  | commitOffset
  /-- the consumer restarts: what it has not committed is delivered again -/
  | restart

namespace ReprocessState

/-- `_CATCHUP_TIMEOUT_S` in polls of `_CATCHUP_POLL_INTERVAL_S`: so many times the job counts the
rows of the user before it goes on without them. -/
def catchUpPolls : ℕ := 150

/-- The next statement of the job. The snapshot, the read, the delete and every `produce` are steps
of their own, and so is every poll of the catch-up; after the last of them the job verifies, and
releases the lock or restores. -/
def jobStep (userId : UUID) (s : ReprocessState) : Option ReprocessState :=
  match s.job with
  | .start => some { s with job := if s.locked then .advisoryLock else .returned false }
  | .advisoryLock => some { s with job := .snapshot }
  | .snapshot =>
    some { s with job := .backup ((s.db.rowsOf userId).insertionSort replayOrder) }
  | .backup rows =>
    some { s with backups := rows :: s.backups, job := .read (rows.map Transaction.id) }
  | .read snapshotIds =>
    some { s with
      job := .delete snapshotIds ((selectForUser s.db userId).map TransactionRow.toNormalized) }
  | .delete snapshotIds events =>
    some { s with db := s.db.deleteUser userId, job := .publish snapshotIds events.length events }
  | .publish snapshotIds published (event :: remaining) =>
    some { s with queue := s.queue ++ [event], job := .publish snapshotIds published remaining }
  | .publish snapshotIds published [] => some { s with job := .catchUp snapshotIds published 0 }
  | .catchUp snapshotIds expected polls =>
    some { s with
      job :=
        if expected = 0 then .verify snapshotIds
        else if polls < catchUpPolls then
          if expected ≤ (s.db.rowsOf userId).length then .verify snapshotIds
          else .catchUp snapshotIds expected (polls + 1)
        else .restore snapshotIds }
  | .verify snapshotIds =>
    some { s with
      job :=
        if (verifySnapshot s.db userId snapshotIds).isEmpty then .release
        else .restore snapshotIds }
  | .restore _ =>
    match s.backups with
    | [] => some { s with job := .raised false }
    | rows :: _ =>
      match restoreRows s.db rows with
      | none => some { s with job := .raised false }
      | some db => some { s with db := db, job := .releaseRestored }
  | .release => some { s with locked := false, job := .returned true }
  | .releaseRestored => some { s with locked := false, job := .raised true }
  | .returned _ => none
  | .raised _ => none

/-- The consumer processes the oldest unconsumed event. A missing account is permanent and skipped;
on any other error the container restarts and the event stays where it is. The offset is committed
in a step of its own. -/
def enrichStep (env : PipelineEnv) (s : ReprocessState) : Option ReprocessState :=
  match s.processed, s.topic with
  | false, tx :: _ =>
    match run env s.db tx with
    | .ok db => some { s with db := db, processed := true }
    | .error (.accountNotFound _) => some { s with processed := true }
    | .error _ => some s
  | _, _ => none

/-- One step of the system of one user: a statement of the job, an exception in one, an answer of
the broker, or what the consumer does. The accounts stay the same throughout; the rates may change
from one event to the next. -/
def step (accounts : List AccountProps) (userId : UUID) (s : ReprocessState) :
    ReprocessLabel → Option ReprocessState
  | .job => s.jobStep userId
  | .raises => s.job.raise.map fun job => { s with job := job }
  | .acknowledge =>
    match s.queue with
    | [] => none
    | event :: queue => some { s with queue := queue, topic := s.topic ++ [event] }
  | .deliveryFails =>
    match s.queue with
    | [] => none
    | _ :: queue => some { s with queue := queue }
  | .arrive tx => some { s with topic := s.topic ++ [tx] }
  | .enrich env => if env.accounts = accounts then s.enrichStep env else none
  | .commitOffset =>
    match s.processed, s.topic with
    | true, _ :: topic => some { s with topic := topic, processed := false }
    | _, _ => none
  | .restart => some { s with processed := false }

end ReprocessState

/-! ## What the statements do -/

variable {db db' : Database} {userId : UUID} {rows : List Transaction}

/-- The row a delete of the user's rows leaves of a row of somebody else. -/
def Transaction.unlinked (r : Transaction) (db : Database) (userId : UUID) : Transaction :=
  if ∃ q ∈ db.rowsOf userId, r.relatedTransactionId = some q.id then r.unlink else r

theorem mem_deleteUser {r : Transaction} :
    r ∈ (db.deleteUser userId).transactions ↔
      ∃ r₀ ∈ db.transactions, r₀.userId ≠ userId ∧ r₀.unlinked db userId = r := by
  apply (KeyedTable.mem_updateWhere Transaction.unlink_id).trans
  simp only [KeyedTable.mem_deleteWhere, decide_eq_false_iff_not, decide_eq_true_eq, and_assoc]
  rfl

theorem Transaction.unlinked_id (r : Transaction) (db : Database) (userId : UUID) :
    (r.unlinked db userId).id = r.id := by
  simp only [unlinked]
  split <;> rfl

theorem Transaction.unlinked_accountId (r : Transaction) (db : Database) (userId : UUID) :
    (r.unlinked db userId).accountId = r.accountId := by
  simp only [unlinked]
  split <;> rfl

theorem Transaction.unlinked_userId (r : Transaction) (db : Database) (userId : UUID) :
    (r.unlinked db userId).userId = r.userId := by
  simp only [unlinked]
  split <;> rfl

/-- A delete keeps the ids of the other users' rows. -/
theorem stored_deleteUser {id : UUID} (h : db.Stored id)
    (hne : ∀ r ∈ db.transactions, r.id = id → r.userId ≠ userId) :
    (db.deleteUser userId).Stored id := by
  obtain ⟨r, hr, rfl⟩ := h
  exact ⟨_, mem_deleteUser.mpr ⟨r, hr, hne r hr rfl, rfl⟩, r.unlinked_id db userId⟩

theorem restoreRow_eq_some {r : Transaction} (h : restoreRow db r = some db') :
    (db.Stored r.id ∧ db' = db) ∨
    (¬ db.Stored r.id ∧ db' = ⟨db.transactions.insertIgnore r, db.anomalies⟩) := by
  simp only [restoreRow] at h
  split at h
  · next hst => exact Or.inl ⟨hst, (Option.some.inj h).symm⟩
  next hst =>
  split at h
  · cases h
  · exact Or.inr ⟨hst, (Option.some.inj h).symm⟩

/-- The insert loop: the absent rows are added, nothing else changes. -/
theorem foldlM_restoreRow (hnd : (rows.map Transaction.id).Nodup)
    (h : rows.foldlM restoreRow db = some db') :
    (∀ r, r ∈ db'.transactions ↔ r ∈ db.transactions ∨ r ∈ rows ∧ ¬ db.Stored r.id) ∧
      db'.anomalies = db.anomalies := by
  induction rows generalizing db with
  | nil =>
    obtain rfl := Option.some.inj h
    exact ⟨fun r => by simp, rfl⟩
  | cons q rows ih =>
    obtain ⟨hq, hnd⟩ := List.nodup_cons.mp hnd
    rw [List.foldlM_cons] at h
    obtain ⟨db₁, hq₁, h⟩ := Option.bind_eq_some_iff.mp h
    obtain ⟨hmem, hanom⟩ := ih hnd h
    have hne : ∀ r ∈ rows, r.id ≠ q.id := fun r hr he =>
      hq (he ▸ List.mem_map_of_mem hr)
    rcases restoreRow_eq_some hq₁ with ⟨hst, rfl⟩ | ⟨hst, rfl⟩
    · refine ⟨fun r => ?_, hanom⟩
      rw [hmem, List.mem_cons]
      refine ⟨?_, ?_⟩
      · rintro (hr | ⟨hr, hns⟩)
        · exact Or.inl hr
        · exact Or.inr ⟨Or.inr hr, hns⟩
      · rintro (hr | ⟨rfl | hr, hns⟩)
        · exact Or.inl hr
        · exact absurd hst hns
        · exact Or.inr ⟨hr, hns⟩
    · refine ⟨fun r => ?_, hanom⟩
      have hins : r ∈ db.transactions.insertIgnore q ↔ r ∈ db.transactions ∨ r = q :=
        KeyedTable.mem_insertIgnore_of_not_hasKey hst
      have hstored : ∀ id, Database.Stored ⟨db.transactions.insertIgnore q, db.anomalies⟩ id ↔
          db.Stored id ∨ id = q.id := fun _ => KeyedTable.hasKey_insertIgnore
      rw [hmem, hins, hstored, List.mem_cons]
      refine ⟨?_, ?_⟩
      · rintro ((hr | rfl) | ⟨hr, hns⟩)
        · exact Or.inl hr
        · exact Or.inr ⟨Or.inl rfl, hst⟩
        · exact Or.inr ⟨Or.inr hr, fun h => hns (Or.inl h)⟩
      · rintro (hr | ⟨rfl | hr, hns⟩)
        · exact Or.inl (Or.inl hr)
        · exact Or.inl (Or.inr rfl)
        · exact Or.inr ⟨hr, fun h => h.elim hns (hne r hr)⟩

/-- **The restore**: the snapshot rows whose id is absent come back; a present row stays as it is,
and the anomalies are not touched. Every link that comes back leads to a row, though not necessarily
to one that leads back. -/
theorem restoreRows_spec (hnd : (rows.map Transaction.id).Nodup)
    (h : restoreRows db rows = some db') :
    (∀ r, r ∈ db'.transactions ↔ r ∈ db.transactions ∨ r ∈ rows ∧ ¬ db.Stored r.id) ∧
      db'.anomalies = db.anomalies ∧
      ∀ r ∈ rows, ¬ db.Stored r.id → ∀ p, r.relatedTransactionId = some p → db'.Stored p := by
  obtain ⟨db₁, hfold, h⟩ := Option.bind_eq_some_iff.mp h
  split at h
  swap
  · cases h
  next hlinks =>
  obtain rfl := Option.some.inj h
  obtain ⟨hmem, hanom⟩ := foldlM_restoreRow hnd hfold
  refine ⟨hmem, hanom, fun r hr hns p hp => ?_⟩
  have hall := hlinks r hr hns
  rw [hp] at hall
  simpa using hall

/-- The rows a snapshot holds are the user's. -/
theorem mem_snapshotRows {r : Transaction} :
    r ∈ (db.rowsOf userId).insertionSort replayOrder ↔
      r ∈ db.transactions ∧ r.userId = userId := by
  rw [List.mem_insertionSort, Database.mem_rowsOf]

theorem snapshotRows_nodup :
    (((db.rowsOf userId).insertionSort replayOrder).map Transaction.id).Nodup :=
  ((List.perm_insertionSort replayOrder _).map _).nodup_iff.mpr
    (db.transactions.nodup.sublist (List.filter_sublist.map _))

/-! ## What a step can change

The table is touched by four kinds of steps, and only one of them is the delete. What a run of the
job does to the rows of the user is put together from these. -/

namespace ReprocessState

variable {accounts : List AccountProps} {s s' : ReprocessState} {l : ReprocessLabel}

/-- What one statement of the job does: for each state of the job, the state it goes to and what it
leaves in the tables, the backups and the queue. -/
inductive JobMove (userId : UUID) (s : ReprocessState) : ReprocessState → Prop
  | unlocked (hj : s.job = .start) (hl : s.locked = false) :
      JobMove userId s { s with job := .returned false }
  | locked (hj : s.job = .start) (hl : s.locked = true) :
      JobMove userId s { s with job := .advisoryLock }
  | advisoryLock (hj : s.job = .advisoryLock) : JobMove userId s { s with job := .snapshot }
  | snapshot (hj : s.job = .snapshot) :
      JobMove userId s { s with job := .backup ((s.db.rowsOf userId).insertionSort replayOrder) }
  | backup (rows : List Transaction) (hj : s.job = .backup rows) :
      JobMove userId s
        { s with backups := rows :: s.backups, job := .read (rows.map Transaction.id) }
  | read (ids : List UUID) (hj : s.job = .read ids) :
      JobMove userId s
        { s with
          job := .delete ids ((selectForUser s.db userId).map TransactionRow.toNormalized) }
  | delete (ids : List UUID) (events : List NormalizedTransaction)
      (hj : s.job = .delete ids events) :
      JobMove userId s
        { s with db := s.db.deleteUser userId, job := .publish ids events.length events }
  | enqueue (ids : List UUID) (published : ℕ) (event : NormalizedTransaction)
      (remaining : List NormalizedTransaction)
      (hj : s.job = .publish ids published (event :: remaining)) :
      JobMove userId s
        { s with queue := s.queue ++ [event], job := .publish ids published remaining }
  | flush (ids : List UUID) (published : ℕ) (hj : s.job = .publish ids published []) :
      JobMove userId s { s with job := .catchUp ids published 0 }
  | polled (ids : List UUID) (expected polls : ℕ) (hj : s.job = .catchUp ids expected polls)
      (hn : (s.db.rowsOf userId).length < expected) (hp : polls < catchUpPolls) :
      JobMove userId s { s with job := .catchUp ids expected (polls + 1) }
  | caughtUp (ids : List UUID) (expected polls : ℕ) (hj : s.job = .catchUp ids expected polls)
      (hn : expected ≤ (s.db.rowsOf userId).length) : JobMove userId s { s with job := .verify ids }
  | timedOut (ids : List UUID) (expected polls : ℕ) (hj : s.job = .catchUp ids expected polls)
      (hp : catchUpPolls ≤ polls) : JobMove userId s { s with job := .restore ids }
  | verified (ids : List UUID) (hj : s.job = .verify ids)
      (hids : verifySnapshot s.db userId ids = []) : JobMove userId s { s with job := .release }
  | missing (ids : List UUID) (hj : s.job = .verify ids)
      (hids : verifySnapshot s.db userId ids ≠ []) :
      JobMove userId s { s with job := .restore ids }
  | restored (ids : List UUID) (rows : List Transaction) (rest : List (List Transaction))
      (db : Database) (hj : s.job = .restore ids) (hb : s.backups = rows :: rest)
      (hr : restoreRows s.db rows = some db) :
      JobMove userId s { s with db := db, job := .releaseRestored }
  | notRestored (ids : List UUID) (hj : s.job = .restore ids)
      (hr : ∀ rows rest, s.backups = rows :: rest → restoreRows s.db rows = none) :
      JobMove userId s { s with job := .raised false }
  | released (hj : s.job = .release) :
      JobMove userId s { s with locked := false, job := .returned true }
  | releasedRestored (hj : s.job = .releaseRestored) :
      JobMove userId s { s with locked := false, job := .raised true }

/-- **Inversion** of the statements of the job. -/
theorem jobStep_cases (h : jobStep userId s = some s') : JobMove userId s s' := by
  simp only [jobStep] at h
  rcases hj : s.job with _ | _ | _ | rows | ids | ⟨ids, events⟩ |
    ⟨ids, published, _ | ⟨event, remaining⟩⟩ | ⟨ids, expected, polls⟩ | ids | ids |
    _ | _ | _ | _ <;>
    simp only [hj] at h
  case start =>
    obtain rfl := Option.some.inj h
    split_ifs with hl
    · exact .locked hj hl
    · exact .unlocked hj (by simpa using hl)
  case advisoryLock =>
    obtain rfl := Option.some.inj h
    exact .advisoryLock hj
  case snapshot =>
    obtain rfl := Option.some.inj h
    exact .snapshot hj
  case backup =>
    obtain rfl := Option.some.inj h
    exact .backup rows hj
  case read =>
    obtain rfl := Option.some.inj h
    exact .read ids hj
  case delete =>
    obtain rfl := Option.some.inj h
    exact .delete ids events hj
  case publish.nil =>
    obtain rfl := Option.some.inj h
    exact .flush ids published hj
  case publish.cons =>
    obtain rfl := Option.some.inj h
    exact .enqueue ids published event remaining hj
  case catchUp =>
    obtain rfl := Option.some.inj h
    -- nothing published is caught up at once, without a poll
    split_ifs with h₀ hp hn
    · exact .caughtUp ids expected polls hj (h₀ ▸ Nat.zero_le _)
    · exact .caughtUp ids expected polls hj hn
    · exact .polled ids expected polls hj (by omega) hp
    · exact .timedOut ids expected polls hj (by omega)
  case verify =>
    obtain rfl := Option.some.inj h
    split_ifs with hids
    · exact .verified ids hj (List.isEmpty_iff.mp hids)
    · exact .missing ids hj fun hnil => hids (List.isEmpty_iff.mpr hnil)
  case restore =>
    -- no backup to restore from, a backup that clashes with the table, or the rows put back
    split at h
    · next hb =>
      obtain rfl := Option.some.inj h
      exact .notRestored ids hj fun rows rest hb' => by rw [hb] at hb'; cases hb'
    next rows rest hb =>
    split at h
    · next hr =>
      obtain rfl := Option.some.inj h
      refine .notRestored ids hj fun rows' rest' hb' => ?_
      obtain ⟨rfl, -⟩ := List.cons.inj (hb.symm.trans hb')
      exact hr
    · next db hr =>
      obtain rfl := Option.some.inj h
      exact .restored ids rows rest db hj hb hr
  case release =>
    obtain rfl := Option.some.inj h
    exact .released hj
  case releaseRestored =>
    obtain rfl := Option.some.inj h
    exact .releasedRestored hj
  case returned => cases h
  case raised => cases h

/-- What an exception of the job does, and what the other parties do. -/
inductive OtherMove (accounts : List AccountProps) (s : ReprocessState) :
    ReprocessLabel → ReprocessState → Prop
  | raises (j : JobState) (hj : s.job.raise = some j) :
      OtherMove accounts s .raises { s with job := j }
  | acknowledge (event : NormalizedTransaction) (queue : List NormalizedTransaction)
      (hq : s.queue = event :: queue) :
      OtherMove accounts s .acknowledge { s with queue := queue, topic := s.topic ++ [event] }
  | deliveryFails (event : NormalizedTransaction) (queue : List NormalizedTransaction)
      (hq : s.queue = event :: queue) :
      OtherMove accounts s .deliveryFails { s with queue := queue }
  | arrive (tx : NormalizedTransaction) :
      OtherMove accounts s (.arrive tx) { s with topic := s.topic ++ [tx] }
  | enriched (env : PipelineEnv) (tx : NormalizedTransaction)
      (topic : List NormalizedTransaction) (hacc : env.accounts = accounts)
      (hp : s.processed = false) (ht : s.topic = tx :: topic)
      (hrun : run env s.db tx = .ok (consume env s.db tx)) :
      OtherMove accounts s (.enrich env) { s with db := consume env s.db tx, processed := true }
  | skipped (env : PipelineEnv) (tx : NormalizedTransaction)
      (topic : List NormalizedTransaction) (accountId : UUID) (hacc : env.accounts = accounts)
      (hp : s.processed = false) (ht : s.topic = tx :: topic)
      (hrun : run env s.db tx = .error (.accountNotFound accountId)) :
      OtherMove accounts s (.enrich env) { s with processed := true }
  | failed (env : PipelineEnv) (tx : NormalizedTransaction)
      (topic : List NormalizedTransaction) (e : PipelineError) (hacc : env.accounts = accounts)
      (hp : s.processed = false) (ht : s.topic = tx :: topic) (hrun : run env s.db tx = .error e)
      (hne : ∀ accountId, e ≠ .accountNotFound accountId) :
      OtherMove accounts s (.enrich env) s
  | commitOffset (tx : NormalizedTransaction) (topic : List NormalizedTransaction)
      (hp : s.processed = true) (ht : s.topic = tx :: topic) :
      OtherMove accounts s .commitOffset { s with topic := topic, processed := false }
  | restart : OtherMove accounts s .restart { s with processed := false }

/-- **Inversion** of a step. -/
theorem step_cases (h : step accounts userId s l = some s') :
    (l = .job ∧ JobMove userId s s') ∨ OtherMove accounts s l s' := by
  cases l with
  | job => exact Or.inl ⟨rfl, jobStep_cases h⟩
  | raises =>
    obtain ⟨j, hj, rfl⟩ := Option.map_eq_some_iff.mp h
    exact Or.inr (.raises j hj)
  | acknowledge =>
    simp only [step] at h
    split at h
    · cases h
    · next event queue hq =>
      obtain rfl := Option.some.inj h
      exact Or.inr (.acknowledge event queue hq)
  | deliveryFails =>
    simp only [step] at h
    split at h
    · cases h
    · next event queue hq =>
      obtain rfl := Option.some.inj h
      exact Or.inr (.deliveryFails event queue hq)
  | arrive tx =>
    obtain rfl := Option.some.inj h
    exact Or.inr (.arrive tx)
  | enrich env =>
    simp only [step] at h
    split at h
    swap
    · cases h
    next hacc =>
    simp only [enrichStep] at h
    split at h
    swap
    · cases h
    next tx topic hp ht =>
    split at h
    · next db hrun =>
      have hdb : consume env s.db tx = db := consume_of_run hrun
      obtain rfl := Option.some.inj h
      rw [← hdb]
      exact Or.inr (.enriched env tx topic hacc hp ht (by rw [hrun, hdb]))
    · next accountId hrun =>
      obtain rfl := Option.some.inj h
      exact Or.inr (.skipped env tx topic accountId hacc hp ht hrun)
    · next e hne hrun =>
      obtain rfl := Option.some.inj h
      exact Or.inr (.failed env tx topic e hacc hp ht hrun fun a he => hne a (by rw [he]))
  | commitOffset =>
    simp only [step] at h
    split at h
    · next tx topic hp ht =>
      obtain rfl := Option.some.inj h
      exact Or.inr (.commitOffset tx topic hp ht)
    · cases h
  | restart =>
    obtain rfl := Option.some.inj h
    exact Or.inr .restart

/-- The four ways a step touches the tables: not at all, by the delete, by a restore, or by a unit
of work of the consumer. -/
theorem step_db (h : step accounts userId s l = some s') :
    s'.db = s.db ∨
    (∃ ids events, l = .job ∧ s.job = .delete ids events ∧ s'.db = s.db.deleteUser userId) ∨
    (∃ ids rows rest, l = .job ∧ s.job = .restore ids ∧ s.backups = rows :: rest ∧
      restoreRows s.db rows = some s'.db) ∨
    ∃ env tx, l = .enrich env ∧ env.accounts = accounts ∧ tx ∈ s.topic ∧
      s'.db = consume env s.db tx := by
  rcases step_cases h with ⟨rfl, hm⟩ | hm
  · cases hm with
    | delete ids events hj => exact Or.inr (Or.inl ⟨ids, events, rfl, hj, rfl⟩)
    | restored ids rows rest db hj hb hr =>
      exact Or.inr (Or.inr (Or.inl ⟨ids, rows, rest, rfl, hj, hb, hr⟩))
    | _ => exact Or.inl rfl
  · cases hm with
    | enriched env tx topic hacc hp ht =>
      exact Or.inr (Or.inr (Or.inr ⟨env, tx, rfl, hacc, ht ▸ List.mem_cons_self .., rfl⟩))
    | _ => exact Or.inl rfl

/-- The labels that do not move the job. -/
theorem step_job_of_other (hs : step accounts userId s l = some s') (hj : l ≠ .job)
    (hr : l ≠ .raises) : s'.job = s.job ∧ s'.backups = s.backups := by
  rcases step_cases hs with ⟨rfl, -⟩ | hm
  · exact absurd rfl hj
  · cases hm with
    | raises => exact absurd rfl hr
    | _ => exact ⟨rfl, rfl⟩

/-- The job takes one snapshot: it never goes back to a statement before it. -/
theorem begun_step (h : s.job.Begun) (hs : step accounts userId s l = some s') :
    s'.job.Begun := by
  rcases step_cases hs with ⟨rfl, hm⟩ | hm
  · cases hm with
    | locked hj => exact absurd h (by rw [hj]; exact id)
    | advisoryLock hj => exact absurd h (by rw [hj]; exact id)
    | _ => exact trivial
  · cases hm with
    | raises j hj =>
      rcases JobState.raise_cases hj with ⟨_, -, rfl⟩ | ⟨_, rfl⟩
      · exact trivial
      · exact trivial
    | _ => exact h

/-- **The snapshot a job works with**: from its `SELECT` on the job holds rows that satisfy
`G`, and from the backup on they are the newest backup of the user. -/
structure HoldsSnapshot (G : List Transaction → Prop) (s : ReprocessState) : Prop where
  selected : ∀ rows, s.job = .backup rows → G rows
  backedUp : ∀ ids, s.job.snapshotIds? = some ids →
    ∃ rows rest, s.backups = rows :: rest ∧ rows.map Transaction.id = ids ∧ G rows

theorem holdsSnapshot_of_not_begun {G : List Transaction → Prop} (h : ¬ s.job.Begun) :
    HoldsSnapshot G s := by
  refine ⟨fun rows hr => ?_, fun ids hi => ?_⟩
  · rw [hr] at h
    exact absurd trivial h
  · rcases hj : s.job <;> rw [hj] at h hi <;>
      first
        | exact absurd trivial h
        | cases hi

/-- A step that adds no backup and leads to no new snapshot keeps the one there is. -/
theorem HoldsSnapshot.of_eq {G : List Transaction → Prop} (h : HoldsSnapshot G s)
    (hb : s'.backups = s.backups) (hsel : ∀ rows, s'.job = .backup rows → s.job = .backup rows)
    (hids : ∀ ids, s'.job.snapshotIds? = some ids → s.job.snapshotIds? = some ids) :
    HoldsSnapshot G s' where
  selected := fun rows hr => h.selected rows (hsel rows hr)
  backedUp := fun ids hi => hb ▸ h.backedUp ids (hids ids hi)

/-- The snapshot stays, and `G` has to be shown where it is taken. -/
theorem HoldsSnapshot.step {G : List Transaction → Prop} (h : HoldsSnapshot G s)
    (hG : l = .job → s.job = .snapshot → G ((s.db.rowsOf userId).insertionSort replayOrder))
    (hs : step accounts userId s l = some s') : HoldsSnapshot G s' := by
  rcases step_cases hs with ⟨rfl, hm⟩ | hm
  · cases hm with
    | snapshot hj =>
      refine ⟨fun rows hr => ?_, fun ids hi => by cases hi⟩
      obtain rfl := JobState.backup.inj hr
      exact hG rfl hj
    | backup rows hj =>
      refine ⟨fun rows hr => (by cases hr), fun ids hi => ?_⟩
      obtain rfl := Option.some.inj hi
      exact ⟨rows, s.backups, rfl, rfl, h.selected rows hj⟩
    | _ =>
      -- the other statements keep the ids they verify or restore, or drop them
      refine h.of_eq rfl (fun rows hr => by cases hr) fun ids hi => ?_
      first
        | cases hi; done
        | rw [‹s.job = _›]
          exact hi
  · cases hm with
    | raises j hj =>
      rcases JobState.raise_cases hj with ⟨ids, hids, rfl⟩ | ⟨b, rfl⟩
      · exact h.of_eq rfl (fun rows hr => by cases hr) fun ids' hi => hids.trans hi
      · exact h.of_eq rfl (fun rows hr => by cases hr) fun ids' hi => by cases hi
    | _ => exact h.of_eq rfl (fun _ hr => hr) fun _ hi => hi

end ReprocessState

/-! ### A reprocess of the sample transfer -/

/-- The job of the sample user about to start, the given events stored. -/
def sampleReprocess (events : List NormalizedTransaction) : ReprocessState where
  db := consumeAll sampleEnv .empty events
  locked := true
  backups := []
  job := .start
  queue := []
  topic := []
  processed := false

/-- The statements of the job up to its first `produce`. -/
def upToPublish : List ReprocessLabel := List.replicate 6 .job

end Grosh
