import Grosh.Lib.KeyedTable
import Grosh.Lib.Transition
import Grosh.Normalization
import Mathlib.Data.List.Dedup

/-!
# The normalization service: routing, staging and drain

One process runs the normalization consumer and the staging drain. The consumer takes a raw
message, normalizes it and routes it: into the staging table while the user has a row in
`reprocessing_locks`, to its producer otherwise. The drain publishes the staged rows of a user
and deletes them, woken by the `NOTIFY` of a lock release or by a sweep.

The service, the lock rows and the broker are a labelled transition system
(`StagingState.step`): `consume` and `drain` execute the next statement of the consumer and of a
drain, each on the tables as they are committed at that moment; the other labels are what
fails, what the broker does with the messages of the two producers, and the reprocess trigger
and job, which commit and release locks. A `produce` that finds the local queue full flushes
and tries again; where that fails too it raises.
-/

namespace Grosh

/-! ## From raw messages to normalized events

The consumer parses a message as an envelope, looks the normalizer of its source up and calls it.
Where any of these fails, the message is logged and skipped, and its offset is committed like any
other. What the two payload models make of a payload is part of the message here, so that the steps
below do not have to parse it again. -/

/-- A `TransactionEnvelope` with its source, and what the two payload models make of the payload:
`none` is a `ValidationError`. Only the model of the envelope's source is ever asked. -/
structure RawEnvelope extends TransactionEnvelope where
  source : String
  /-- `MonobankStatementItem.model_validate(payload)` -/
  monobankItem : Option MonobankStatementItem
  /-- `ManualTransactionPayload.model_validate(payload)` -/
  manualPayload : Option ManualTransactionPayload

/-- `_NORMALIZER_REGISTRY.get(envelope.source)` and `normalize`: a source that is not registered, a
payload its model refuses and a currency code nobody knows all come out as no event. -/
def normalizeEnvelope (env : NormalizerEnv) (e : RawEnvelope) : Option NormalizedTransaction :=
  if e.source = "monobank" then
    e.monobankItem.bind (monobankNormalize env e.toTransactionEnvelope)
  else if e.source = "manual" then
    e.manualPayload.map (manualNormalize e.toTransactionEnvelope)
  else none

/-- A message of a raw topic; `none` does not parse as an envelope. -/
abbrev RawMessage : Type := Option RawEnvelope

/-- The event of a message; `none` where the consumer logs and skips the message. A message that is
skipped is handled all the same: its offset is committed. -/
def normalizeMessage (env : NormalizerEnv) (msg : RawMessage) : Option NormalizedTransaction :=
  msg.bind (normalizeEnvelope env)

/-! ## The state

The tables are as they are committed. Nothing an open transaction has written is in the state, but
for what the consumer or a drain is about to write, which is part of where it is. -/

/-- A row of `staging_normalized_transactions`, oldest first in the table: the drain reads the rows
of a user in the order of `received_at`, and a new row is the youngest. -/
structure StagedRow : Type where
  id : UUID
  userId : UUID
  payload : NormalizedTransaction

/-- Where the consumer is in its loop. From `routing` to `written` it is inside the transaction of
`_route`, and an exception there takes it to `handled`, as the end of the transaction does. -/
inductive ConsumerState : Type where
  /-- `poll_message` -/
  | polling
  /-- a message is taken, the first of the uncommitted ones -/
  | fetched
  /-- `_route`: the `EXISTS` comes next -/
  | routing (tx : NormalizedTransaction)
  /-- `_route`: the lock has been read, the `INSERT` or the `produce` comes next -/
  | checked (tx : NormalizedTransaction) (locked : Bool)
  /-- `_route`: the transaction is about to commit -/
  | written (tx : NormalizedTransaction) (staged : Bool)
  /-- `consumer.commit(message=msg)` comes next, on whichever branch -/
  | handled

/-- The statements of `drain_for_user`: the rows of the user are read once, and each is then
published and deleted, one after the other, each statement in a transaction of its own. -/
inductive DrainPhase : Type where
  /-- `select_staged_for_user` -/
  | selecting (userId : UUID)
  /-- the loop over the rows: `_publish` of the next one -/
  | draining (userId : UUID) (rows : List StagedRow)
  /-- `delete_staged` of the published row -/
  | deleting (userId : UUID) (row : StagedRow) (rest : List StagedRow)

/-- The user a drain is for. -/
def DrainPhase.userId : DrainPhase → UUID
  | .selecting u => u
  | .draining u _ => u
  | .deleting u _ _ => u

/-- The rows a drain has still to publish. -/
def DrainPhase.rows : DrainPhase → List StagedRow
  | .selecting _ => []
  | .draining _ rows => rows
  | .deleting _ _ rest => rest

/-- A drain in progress: one woken by a `NOTIFY`, or the sweep with the users that follow. Several
drains can be under way at a time, also for one user, but only one sweep. -/
structure DrainTask : Type where
  sweep : Bool
  phase : DrainPhase
  remaining : List UUID

/-- The users a task is draining or going to drain. -/
def DrainTask.users (t : DrainTask) : List UUID := t.phase.userId :: t.remaining

/-- The two producers of the service. Each has a local queue of its own, so that what one has
enqueued says nothing about the other. -/
inductive ServiceProducer : Type where
  | consumer
  | drain
  deriving DecidableEq

/-- The state of the service, of the tables it uses and of the broker. A producer's queue holds what
`produce` has taken and the broker has not answered for; it is memory of the process, and a crash
loses it. -/
structure StagingState : Type where
  /-- the raw messages whose offset is not committed -/
  raw : List RawMessage
  consumer : ConsumerState
  tasks : List DrainTask
  /-- `NOTIFY`s sent and not received yet -/
  notifications : List UUID
  /-- what a producer has enqueued and the broker neither acknowledged nor failed -/
  queue : ServiceProducer → List NormalizedTransaction
  /-- `staging_normalized_transactions` -/
  staging : KeyedTable StagedRow.id
  /-- `reprocessing_locks` -/
  locks : List UUID
  /-- what the broker has acknowledged in `normalized_transactions` -/
  acked : List NormalizedTransaction
  /-- every event ever committed to the staging table; no statement reads it -/
  staged : List NormalizedTransaction

/-- Who moves: the producers of raw messages, the consumer, the listener, the sweep and the drains
of the service, the broker, and the reprocess trigger and job, of which only what they do to the
lock rows matters here. -/
inductive StagingLabel : Type where
  /-- a message reaches a raw topic -/
  | arrive (msg : RawMessage)
  /-- the consumer is given one of the uncommitted messages -/
  | poll (i : ℕ)
  /-- the consumer executes its next statement; a row it stages gets this id -/
  | consume (rowId : UUID)
  /-- an exception in `_route` -/
  | routeFails
  /-- the process dies and starts again -/
  | crash
  /-- the broker acknowledges a message of a producer -/
  | acknowledge (p : ServiceProducer) (i : ℕ)
  /-- the delivery of a message fails for good, `on_delivery` logs it -/
  | deliveryFails (p : ServiceProducer) (i : ℕ)
  /-- the reprocess trigger commits the lock row of a user -/
  | commitLock (userId : UUID)
  /-- the reprocess job commits `release_lock_atomic` -/
  | releaseLock (userId : UUID)
  /-- the listener receives the oldest `NOTIFY` -/
  | notify
  /-- a `NOTIFY` is missed: the listener is not connected -/
  | missNotify
  /-- the sweep query, returning these users -/
  | sweep (userIds : List UUID)
  /-- a drain executes its next statement -/
  | drain (i : ℕ)
  /-- an exception in a drain -/
  | drainFails (i : ℕ)

/-! ## The steps -/

namespace StagingState

/-- The service at its start, with these messages on the raw topics: nothing is locked or staged,
and no producer holds a message. -/
def start (raw : List RawMessage) : StagingState where
  raw := raw
  consumer := .polling
  tasks := []
  notifications := []
  queue := fun _ => []
  staging := .empty
  locks := []
  acked := []
  staged := []

/-- `select_staged_for_user`, whose `ORDER BY received_at` is the order of the table. It reads what
is committed when it starts: a row staged later is left to the next drain. -/
def selectStagedForUser (s : StagingState) (userId : UUID) : List StagedRow :=
  s.staging.rows.filter fun r => decide (r.userId = userId)

/-- `select_unlocked_user_ids_with_staged_rows`, in some order: the users with a staged row and no
row in `reprocessing_locks`. This is the one check of the lock a sweep makes, before the first of
the users is drained. -/
def selectUnlockedUserIds (s : StagingState) : List UUID :=
  ((s.staging.rows.map StagedRow.userId).filter fun u => decide (u ∉ s.locks)).dedup

/-- A message is enqueued behind those that its producer has already taken. `produce` does not wait
for the broker, so nothing says yet that the message will arrive. -/
def produce (s : StagingState) (p : ServiceProducer) (tx : NormalizedTransaction) :
    ServiceProducer → List NormalizedTransaction :=
  Function.update s.queue p (s.queue p ++ [tx])

/-- The next statement of the consumer. The `EXISTS` on the lock, the `INSERT` or `produce` it
decides on, and the commit are steps of their own, between which the lock may come and go; a row
that is staged is visible from the commit on. -/
def consumeStep (env : NormalizerEnv) (rowId : UUID) (s : StagingState) : Option StagingState :=
  match s.consumer, s.raw with
  | .fetched, msg :: _ =>
    match normalizeMessage env msg with
    | some tx => some { s with consumer := .routing tx }
    | none => some { s with consumer := .handled }
  | .routing tx, _ => some { s with consumer := .checked tx (decide (tx.userId ∈ s.locks)) }
  | .checked tx true, _ => some { s with consumer := .written tx true }
  | .checked tx false, _ =>
    some { s with queue := s.produce .consumer tx, consumer := .written tx false }
  | .written tx true, _ =>
    if s.staging.HasKey rowId then none
    else some { s with
      staging := s.staging.insertIgnore ⟨rowId, tx.userId, tx⟩
      staged := tx :: s.staged
      consumer := .handled }
  | .written _ false, _ => some { s with consumer := .handled }
  | .handled, _ :: raw => some { s with raw := raw, consumer := .polling }
  | _, _ => none

/-- What a task does when its drain ends, also by an exception: the sweep goes on with the next
user, a task of a `NOTIFY` is over. The sweep does not look at the lock again. -/
def next (t : DrainTask) : Option DrainTask :=
  match t.remaining with
  | [] => none
  | u :: us => some { t with phase := .selecting u, remaining := us }

/-- Put a task back, or take it out when it is over. -/
def putTask (s : StagingState) (i : ℕ) : Option DrainTask → List DrainTask
  | none => s.tasks.eraseIdx i
  | some t => s.tasks.set i t

/-- The next statement of a drain. It publishes the rows it has read, whatever has happened to the
lock meanwhile, and deletes each right after its `produce`, without an answer of the broker. -/
def drainStep (i : ℕ) (s : StagingState) : Option StagingState :=
  match s.tasks[i]? with
  | none => none
  | some t =>
    match t.phase with
    | .selecting u =>
      some { s with tasks := s.putTask i (some
        { t with phase := .draining u (s.selectStagedForUser u) }) }
    | .draining _ [] => some { s with tasks := s.putTask i (next t) }
    | .draining u (row :: rest) =>
      some { s with
        queue := s.produce .drain row.payload
        tasks := s.putTask i (some { t with phase := .deleting u row rest }) }
    | .deleting u row rest =>
      some { s with
        staging := s.staging.deleteWhere fun r => decide (r.id = row.id)
        tasks := s.putTask i (some { t with phase := .draining u rest }) }

/-- One step of the system. Every statement is a step, so that a run is any interleaving of the
consumer and the drains with the lock rows, the broker and what fails: an exception in `_route`,
which the consumer logs before it commits the offset all the same, an exception in a drain, a
delivery the broker fails for good, and a crash of the process, which forgets the queues, the drains
and the notifications and reads the raw messages again from the last committed offset. `none` is a
step that cannot happen in the state. -/
def step (env : NormalizerEnv) (s : StagingState) : StagingLabel → Option StagingState
  | .arrive msg => some { s with raw := s.raw ++ [msg] }
  | .poll i =>
    match s.consumer, s.raw[i]? with
    | .polling, some msg => some { s with raw := msg :: s.raw.eraseIdx i, consumer := .fetched }
    | _, _ => none
  | .consume rowId => s.consumeStep env rowId
  | .routeFails =>
    match s.consumer with
    | .routing _ | .checked _ _ | .written _ _ => some { s with consumer := .handled }
    | _ => none
  | .crash =>
    some { s with consumer := .polling, tasks := [], notifications := [], queue := fun _ => [] }
  | .acknowledge p i =>
    match (s.queue p)[i]? with
    | none => none
    | some tx =>
      some { s with
        queue := Function.update s.queue p ((s.queue p).eraseIdx i), acked := tx :: s.acked }
  | .deliveryFails p i =>
    match (s.queue p)[i]? with
    | none => none
    | some _ => some { s with queue := Function.update s.queue p ((s.queue p).eraseIdx i) }
  | .commitLock u => if u ∈ s.locks then none else some { s with locks := u :: s.locks }
  | .releaseLock u =>
    some { s with
      locks := s.locks.filter fun v => decide (v ≠ u), notifications := s.notifications ++ [u] }
  | .notify =>
    match s.notifications with
    | [] => none
    | u :: rest =>
      some { s with tasks := s.tasks ++ [⟨false, .selecting u, []⟩], notifications := rest }
  | .missNotify =>
    match s.notifications with
    | [] => none
    | _ :: rest => some { s with notifications := rest }
  | .sweep userIds =>
    if (∀ t ∈ s.tasks, t.sweep = false) ∧ userIds.Perm s.selectUnlockedUserIds then
      match userIds with
      | [] => some s
      | u :: us => some { s with tasks := s.tasks ++ [⟨true, .selecting u, us⟩] }
    else none
  | .drain i => s.drainStep i
  | .drainFails i =>
    match s.tasks[i]? with
    | none => none
    | some t => some { s with tasks := s.putTask i (next t) }

/-! ## Inversion of a step

The proofs below look at a step through `Move`, which has one constructor for each thing that can
happen, and never unfold `step`. -/

variable {env : NormalizerEnv} {s s' : StagingState} {l : StagingLabel}

/-- What one step of the system does: for each label, the conditions under which it can happen and
the state it leaves. A label such as `consume` has one constructor for each statement it can
execute. -/
inductive Move (env : NormalizerEnv) (s : StagingState) : StagingLabel → StagingState → Prop
  | arrive (msg : RawMessage) : Move env s (.arrive msg) { s with raw := s.raw ++ [msg] }
  | poll (i : ℕ) (msg : RawMessage) (hc : s.consumer = .polling) (hm : s.raw[i]? = some msg) :
      Move env s (.poll i) { s with raw := msg :: s.raw.eraseIdx i, consumer := .fetched }
  | normalize (rowId : UUID) (msg : RawMessage) (raw : List RawMessage)
      (tx : NormalizedTransaction) (hc : s.consumer = .fetched) (hr : s.raw = msg :: raw)
      (hn : normalizeMessage env msg = some tx) :
      Move env s (.consume rowId) { s with consumer := .routing tx }
  | skip (rowId : UUID) (msg : RawMessage) (raw : List RawMessage) (hc : s.consumer = .fetched)
      (hr : s.raw = msg :: raw) (hn : normalizeMessage env msg = none) :
      Move env s (.consume rowId) { s with consumer := .handled }
  | checkLock (rowId : UUID) (tx : NormalizedTransaction) (hc : s.consumer = .routing tx) :
      Move env s (.consume rowId)
        { s with consumer := .checked tx (decide (tx.userId ∈ s.locks)) }
  | insert (rowId : UUID) (tx : NormalizedTransaction) (hc : s.consumer = .checked tx true) :
      Move env s (.consume rowId) { s with consumer := .written tx true }
  | produce (rowId : UUID) (tx : NormalizedTransaction) (hc : s.consumer = .checked tx false) :
      Move env s (.consume rowId)
        { s with queue := s.produce .consumer tx, consumer := .written tx false }
  | commitStaged (rowId : UUID) (tx : NormalizedTransaction) (hc : s.consumer = .written tx true)
      (hk : ¬ s.staging.HasKey rowId) :
      Move env s (.consume rowId)
        { s with
          staging := s.staging.insertIgnore ⟨rowId, tx.userId, tx⟩
          staged := tx :: s.staged
          consumer := .handled }
  | commitProduced (rowId : UUID) (tx : NormalizedTransaction)
      (hc : s.consumer = .written tx false) :
      Move env s (.consume rowId) { s with consumer := .handled }
  | commitOffset (rowId : UUID) (msg : RawMessage) (raw : List RawMessage)
      (hc : s.consumer = .handled) (hr : s.raw = msg :: raw) :
      Move env s (.consume rowId) { s with raw := raw, consumer := .polling }
  | routeFails (tx : NormalizedTransaction)
      (hc : s.consumer = .routing tx ∨
        ∃ b, s.consumer = .checked tx b ∨ s.consumer = .written tx b) :
      Move env s .routeFails { s with consumer := .handled }
  | crash : Move env s .crash
      { s with consumer := .polling, tasks := [], notifications := [], queue := fun _ => [] }
  | acknowledge (p : ServiceProducer) (i : ℕ) (tx : NormalizedTransaction)
      (hq : (s.queue p)[i]? = some tx) :
      Move env s (.acknowledge p i)
        { s with
          queue := Function.update s.queue p ((s.queue p).eraseIdx i), acked := tx :: s.acked }
  | deliveryFails (p : ServiceProducer) (i : ℕ) (tx : NormalizedTransaction)
      (hq : (s.queue p)[i]? = some tx) :
      Move env s (.deliveryFails p i)
        { s with queue := Function.update s.queue p ((s.queue p).eraseIdx i) }
  | commitLock (u : UUID) (hu : u ∉ s.locks) :
      Move env s (.commitLock u) { s with locks := u :: s.locks }
  | releaseLock (u : UUID) :
      Move env s (.releaseLock u)
        { s with
          locks := s.locks.filter fun v => decide (v ≠ u)
          notifications := s.notifications ++ [u] }
  | notify (u : UUID) (rest : List UUID) (hn : s.notifications = u :: rest) :
      Move env s .notify
        { s with tasks := s.tasks ++ [⟨false, .selecting u, []⟩], notifications := rest }
  | missNotify (u : UUID) (rest : List UUID) (hn : s.notifications = u :: rest) :
      Move env s .missNotify { s with notifications := rest }
  | sweepNothing (hp : [].Perm s.selectUnlockedUserIds) : Move env s (.sweep []) s
  | sweep (u : UUID) (us : List UUID) (hp : (u :: us).Perm s.selectUnlockedUserIds) :
      Move env s (.sweep (u :: us)) { s with tasks := s.tasks ++ [⟨true, .selecting u, us⟩] }
  | select (i : ℕ) (t : DrainTask) (u : UUID) (ht : s.tasks[i]? = some t)
      (hp : t.phase = .selecting u) :
      Move env s (.drain i) { s with tasks := s.putTask i (some
        { t with phase := .draining u (s.selectStagedForUser u) }) }
  | drained (i : ℕ) (t : DrainTask) (u : UUID) (ht : s.tasks[i]? = some t)
      (hp : t.phase = .draining u []) :
      Move env s (.drain i) { s with tasks := s.putTask i (next t) }
  | publish (i : ℕ) (t : DrainTask) (u : UUID) (row : StagedRow) (rest : List StagedRow)
      (ht : s.tasks[i]? = some t) (hp : t.phase = .draining u (row :: rest)) :
      Move env s (.drain i)
        { s with
          queue := s.produce .drain row.payload
          tasks := s.putTask i (some { t with phase := .deleting u row rest }) }
  | delete (i : ℕ) (t : DrainTask) (u : UUID) (row : StagedRow) (rest : List StagedRow)
      (ht : s.tasks[i]? = some t) (hp : t.phase = .deleting u row rest) :
      Move env s (.drain i)
        { s with
          staging := s.staging.deleteWhere fun r => decide (r.id = row.id)
          tasks := s.putTask i (some { t with phase := .draining u rest }) }
  | drainFails (i : ℕ) (t : DrainTask) (ht : s.tasks[i]? = some t) :
      Move env s (.drainFails i) { s with tasks := s.putTask i (next t) }

theorem consumeStep_cases {rowId : UUID} (h : consumeStep env rowId s = some s') :
    Move env s (.consume rowId) s' := by
  simp only [consumeStep] at h
  split at h
  · next msg raw hc hr =>
    split at h
    · next tx hn =>
      obtain rfl := Option.some.inj h
      exact .normalize rowId msg raw tx hc hr hn
    · next hn =>
      obtain rfl := Option.some.inj h
      exact .skip rowId msg raw hc hr hn
  · next tx hc =>
    obtain rfl := Option.some.inj h
    exact .checkLock rowId tx hc
  · next tx hc =>
    obtain rfl := Option.some.inj h
    exact .insert rowId tx hc
  · next tx hc =>
    obtain rfl := Option.some.inj h
    exact .produce rowId tx hc
  · next tx hc =>
    split at h
    · cases h
    · next hk =>
      obtain rfl := Option.some.inj h
      exact .commitStaged rowId tx hc hk
  · next tx hc =>
    obtain rfl := Option.some.inj h
    exact .commitProduced rowId tx hc
  · next msg raw hc hr =>
    obtain rfl := Option.some.inj h
    exact .commitOffset rowId msg raw hc hr
  · cases h

theorem drainStep_cases {i : ℕ} (h : drainStep i s = some s') : Move env s (.drain i) s' := by
  simp only [drainStep] at h
  split at h
  · cases h
  next t ht =>
  split at h
  · next u hp =>
    obtain rfl := Option.some.inj h
    exact .select i t u ht hp
  · next u hp =>
    obtain rfl := Option.some.inj h
    exact .drained i t u ht hp
  · next u row rest hp =>
    obtain rfl := Option.some.inj h
    exact .publish i t u row rest ht hp
  · next u row rest hp =>
    obtain rfl := Option.some.inj h
    exact .delete i t u row rest ht hp

/-- **Inversion** of a step: whatever the step function accepts is one of the moves. It is proved
once, by the cases of the definition, and every invariant of the service is derived from it. -/
theorem step_cases (h : step env s l = some s') : Move env s l s' := by
  cases l with
  | arrive msg =>
    obtain rfl := Option.some.inj h
    exact .arrive msg
  | poll i =>
    simp only [step] at h
    split at h
    · next msg hc hm =>
      obtain rfl := Option.some.inj h
      exact .poll i msg hc hm
    · cases h
  -- the consumer and the drain tasks have inversions of their own
  | consume rowId => exact consumeStep_cases h
  | routeFails =>
    simp only [step] at h
    split at h
    · next tx hc =>
      obtain rfl := Option.some.inj h
      exact .routeFails tx (Or.inl hc)
    · next tx b hc =>
      obtain rfl := Option.some.inj h
      exact .routeFails tx (Or.inr ⟨b, Or.inl hc⟩)
    · next tx b hc =>
      obtain rfl := Option.some.inj h
      exact .routeFails tx (Or.inr ⟨b, Or.inr hc⟩)
    · cases h
  | crash =>
    obtain rfl := Option.some.inj h
    exact .crash
  | acknowledge p i =>
    simp only [step] at h
    split at h
    · cases h
    · next tx hq =>
      obtain rfl := Option.some.inj h
      exact .acknowledge p i tx hq
  | deliveryFails p i =>
    simp only [step] at h
    split at h
    · cases h
    · next tx hq =>
      obtain rfl := Option.some.inj h
      exact .deliveryFails p i tx hq
  | commitLock u =>
    simp only [step] at h
    split at h
    · cases h
    · next hu =>
      obtain rfl := Option.some.inj h
      exact .commitLock u hu
  | releaseLock u =>
    obtain rfl := Option.some.inj h
    exact .releaseLock u
  | notify =>
    simp only [step] at h
    split at h
    · cases h
    · next u rest hn =>
      obtain rfl := Option.some.inj h
      exact .notify u rest hn
  | missNotify =>
    simp only [step] at h
    split at h
    · cases h
    · next u rest hn =>
      obtain rfl := Option.some.inj h
      exact .missNotify u rest hn
  | sweep userIds =>
    simp only [step] at h
    split at h
    swap
    · cases h
    next hp =>
    split at h
    · obtain rfl := Option.some.inj h
      exact .sweepNothing hp.2
    · next u us =>
      obtain rfl := Option.some.inj h
      exact .sweep u us hp.2
  | drain i => exact drainStep_cases h
  | drainFails i =>
    simp only [step] at h
    split at h
    · cases h
    · next t ht =>
      obtain rfl := Option.some.inj h
      exact .drainFails i t ht

/-- A task found after one was put back was there before, or is the new one. -/
theorem mem_putTask {i : ℕ} {t : Option DrainTask} {t' : DrainTask} (h : t' ∈ s.putTask i t) :
    t' ∈ s.tasks ∨ t = some t' := by
  cases t with
  | none => exact Or.inl (List.mem_of_mem_eraseIdx h)
  | some t =>
    rcases List.mem_or_eq_of_mem_set h with h | rfl
    · exact Or.inl h
    · exact Or.inr rfl

theorem mem_selectStagedForUser {u : UUID} {r : StagedRow} :
    r ∈ s.selectStagedForUser u ↔ r ∈ s.staging ∧ r.userId = u := by
  simp [selectStagedForUser, KeyedTable.mem_def]

/-- The sweep query lists unlocked users. -/
theorem not_locked_of_mem_selectUnlockedUserIds {u : UUID} (h : u ∈ s.selectUnlockedUserIds) :
    u ∉ s.locks := by
  simp only [selectUnlockedUserIds, List.mem_dedup, List.mem_filter, decide_eq_true_eq] at h
  exact h.2

end StagingState

/-! ### A sample user -/

/-- Library functions for the samples: every transaction gets the same id, and every currency code
is the hryvnia's. -/
def sampleNormalizer : NormalizerEnv := ⟨fun _ => 7, fun _ => some "UAH"⟩

/-- A manual transaction. -/
def samplePayload : ManualTransactionPayload where
  id := 101
  sourceId := "m-1"
  amountCents := 500
  operationCurrencyCode := "UAH"
  description := none
  time := 0
  direction := .expense
  mcc := none
  rateSource := none

/-- The transaction as user 1 sends it. -/
def sampleMessage : RawMessage :=
  some { userId := 1, accountId := 11, source := "manual", monobankItem := none
         manualPayload := some samplePayload }

/-- Its event. -/
def sampleEvent : NormalizedTransaction := manualNormalize ⟨1, 11⟩ samplePayload

/-- The lock comes first: the event is staged; after the release the `NOTIFY` is received, and a
drain publishes the event and deletes its row. -/
def releasedRun : List StagingLabel :=
  [.commitLock 1, .poll 0, .consume 1, .consume 1, .consume 1, .consume 1, .consume 1,
    .releaseLock 1, .notify, .drain 0, .drain 0, .drain 0]

end Grosh
