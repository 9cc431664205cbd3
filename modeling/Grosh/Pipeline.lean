import Grosh.EnrichmentConsumer
import Grosh.ReplayRoundTrip
import Grosh.StagingDelivery

/-!
# From the raw topics to the transactions table

The normalization service, the reprocess jobs and the enrichment consumers run side by side. They
meet in three places: the topic `normalized_transactions`, which the producers of the service and
of the jobs write and the consumers read; the table `transactions`, which the consumers and the
jobs write; and the lock rows, which the service and the jobs read and a job deletes at its end.

The system (`PipelineState.step`) is made of the three models: a step is one of the service, one of
the consumers or one of a job, seen by the others through what they share.

* `rows_have_origin` — in every run, whatever fails, every row of the table reads back as the event
  of a raw message that has arrived.

The advisory locks, which keep two jobs of one user apart, are left out, so a run of the system is
a run here.
-/

namespace Grosh

open AtLeastOnce Transition

/-! ## The system

The parts are those of the other modules, and none of them is modelled again: the service is
`StagingState`, the topic with its consumers the log of `AtLeastOnce`, and a job a `ReprocessState`.
A step of the system is a step of one part, together with what it does to the places where the parts
meet. -/

/-- A pod at work on one user: where its job is, and what its producer has enqueued. The table, the
snapshots and the lock rows it shares with the other parts of the system. -/
structure ReprocessPod : Type where
  userId : UUID
  job : JobState
  /-- the events its producer has enqueued and the broker neither acknowledged nor failed -/
  queue : List NormalizedTransaction

/-- The service, the topic with its consumers and the table, and the jobs. The lock rows are part of
the service, and the table is the store that the consumers of the topic write. -/
structure PipelineState (π : Type) : Type where
  service : StagingState
  topic : State π NormalizedMessage Database
  pods : List ReprocessPod
  /-- `reprocessing_backups`: the snapshots of a user, newest first -/
  backups : UUID → List (List Transaction)

/-- Who moves: a part of the service, a consumer of `normalized_transactions`, or the pod with some
number. Pods start and end while the rest goes on. -/
inductive PipelineLabel (π : Type) : Type where
  /-- the normalization service, its broker, the trigger; also a lock row deleted as stale -/
  | service (l : StagingLabel)
  /-- the enrichment consumers; the topic they read grows by the other labels -/
  | consumer (l : Label π NormalizedMessage PipelineEnv)
  /-- a pod comes to a user -/
  | startPod (userId : UUID)
  /-- the next statement of a pod -/
  | pod (i : ℕ)
  /-- the next statement of a pod raises -/
  | podRaises (i : ℕ)
  /-- a pod dies, and what its producer has not sent is gone -/
  | podDies (i : ℕ)
  /-- the broker acknowledges the oldest event of a pod's producer -/
  | podAcknowledge (i : ℕ)
  /-- the delivery of the oldest event of a pod's producer fails for good -/
  | podDeliveryFails (i : ℕ)

namespace PipelineState

variable {π : Type} [DecidableEq π]

/-- Nothing has happened: the tables are empty. -/
def start : PipelineState π where
  service := .start []
  topic := State.start .empty
  pods := []
  backups := fun _ => []

/-- An event reaches the partition of its key, the user. The events of one user are in one
partition, in the order in which they were acknowledged. -/
def publish (partitionOf : UUID → π) (s : PipelineState π) (tx : NormalizedTransaction) :
    State π NormalizedMessage Database :=
  { s.topic with
    log := Function.update s.topic.log (partitionOf tx.userId)
      (s.topic.log (partitionOf tx.userId) ++ [some tx]) }

/-- What a pod sees of the system: its own job and queue, and of the shared parts the table and the
lock rows as they are committed. -/
def view (s : PipelineState π) (pod : ReprocessPod) : ReprocessState where
  db := s.topic.store
  locked := decide (pod.userId ∈ s.service.locks)
  backups := s.backups pod.userId
  job := pod.job
  queue := pod.queue
  topic := []
  processed := false

/-- The lock row and its `NOTIFY` after a statement of a pod: both are of one transaction, so the
service sees either both or neither. -/
def releaseIf (s : PipelineState π) (userId : UUID) (released : Bool) : StagingState :=
  if released then
    { s.service with
      locks := s.service.locks.filter fun v => decide (v ≠ userId)
      notifications := s.service.notifications ++ [userId] }
  else s.service

/-- What the system sees of a statement of a pod: the table and the lock rows it leaves are the
system's, its job and queue stay the pod's own. -/
def absorb (s : PipelineState π) (i : ℕ) (pod : ReprocessPod) (t : ReprocessState) :
    PipelineState π where
  service := s.releaseIf pod.userId ((s.view pod).locked && !t.locked)
  topic := { s.topic with store := t.db }
  pods := s.pods.set i ⟨pod.userId, t.job, t.queue⟩
  backups := Function.update s.backups pod.userId t.backups

/-- What the acknowledgement of a message of the service adds to the topic. A message that the
broker fails or a crash forgets is never there. -/
def sent (s : PipelineState π) : StagingLabel → Option NormalizedTransaction
  | .acknowledge p i => (s.service.queue p)[i]?
  | _ => none

/-- One step of the system: a step of the service, where an acknowledgement appends the event to the
topic; a step of the topic and its consumers, which execute units of work of the enrichment service
and commit offsets; or something about a pod, a statement of its job or what the broker does with
its queue. A lock row that a job deletes sends its `NOTIFY`. The parts move in any order, and each
can crash. -/
def step (nenv : NormalizerEnv) (partitionOf : UUID → π) (s : PipelineState π) :
    PipelineLabel π → Option (PipelineState π)
  | .service l =>
    (s.service.step nenv l).map fun service =>
      { s with
        service := service
        topic := ((s.sent l).map (s.publish partitionOf)).getD s.topic }
  | .consumer (.append _ _) => none
  | .consumer l => (s.topic.step processMessage l).map fun topic => { s with topic := topic }
  | .startPod userId => some { s with pods := s.pods ++ [⟨userId, .start, []⟩] }
  | .pod i => s.pods[i]?.bind fun pod =>
      ((s.view pod).jobStep pod.userId).map fun t => s.absorb i pod t
  | .podRaises i => s.pods[i]?.bind fun pod =>
      pod.job.raise.map fun job => { s with pods := s.pods.set i { pod with job := job } }
  | .podDies i => some { s with pods := s.pods.eraseIdx i }
  | .podAcknowledge i => s.pods[i]?.bind fun pod =>
      pod.queue.head?.map fun event =>
        { s with
          topic := s.publish partitionOf event
          pods := s.pods.set i { pod with queue := pod.queue.tail } }
  | .podDeliveryFails i => s.pods[i]?.map fun pod =>
      { s with pods := s.pods.set i { pod with queue := pod.queue.tail } }

end PipelineState

/-! ## What the service holds

The invariant is that every event anywhere in the system can be traced back to a raw message. It is
stated for any predicate `Known` of events, so that each part is looked at by itself; at the end
`Known` is to be the event of a message that has arrived. -/

/-- The event the consumer is routing. -/
def ConsumerState.event? : ConsumerState → Option NormalizedTransaction
  | .routing tx => some tx
  | .checked tx _ => some tx
  | .written tx _ => some tx
  | _ => none

/-- The rows a drain has read and not finished with. -/
def DrainTask.held (t : DrainTask) : List StagedRow :=
  match t.phase with
  | .selecting _ => []
  | .draining _ rows => rows
  | .deleting _ row rest => row :: rest

namespace StagingState

variable {nenv : NormalizerEnv} {s s' : StagingState} {l : StagingLabel}
  {Known : NormalizedTransaction → Prop}

/-- Every event the service holds, or will make of the messages it has, is known: those of the raw
messages, the one the consumer is routing, the rows of the staging table and of the drains, and the
queues of both producers. -/
structure Sourced (nenv : NormalizerEnv) (Known : NormalizedTransaction → Prop)
    (s : StagingState) : Prop where
  raw : ∀ msg ∈ s.raw, ∀ tx, normalizeMessage nenv msg = some tx → Known tx
  routed : ∀ tx, s.consumer.event? = some tx → Known tx
  queued : ∀ p, ∀ tx ∈ s.queue p, Known tx
  staged : ∀ r ∈ s.staging, Known r.payload
  drained : ∀ t ∈ s.tasks, ∀ r ∈ t.held, Known r.payload

/-- A produced message is in its queue after the others. -/
theorem mem_produce {p p' : ServiceProducer} {tx tx' : NormalizedTransaction}
    (h : tx' ∈ s.produce p tx p') : tx' ∈ s.queue p' ∨ tx' = tx := by
  by_cases hp : p' = p
  · subst hp
    simpa [produce] using h
  · rw [produce, Function.update_of_ne hp] at h
    exact Or.inl h

theorem mem_of_mem_eraseQueue {p p' : ServiceProducer} {i : ℕ} {tx : NormalizedTransaction}
    (h : tx ∈ Function.update s.queue p ((s.queue p).eraseIdx i) p') : tx ∈ s.queue p' := by
  by_cases hp : p' = p
  · subst hp
    rw [Function.update_self] at h
    exact List.mem_of_mem_eraseIdx h
  · rw [Function.update_of_ne hp] at h
    exact h

/-- A sweep holds nothing when it goes on to the next user. -/
theorem held_next {t t' : DrainTask} (h : next t = some t') : t'.held = [] := by
  simp only [next] at h
  split at h
  · cases h
  · obtain rfl := Option.some.inj h
    rfl

/-- What the tasks hold after one of them was put back. -/
theorem Sourced.putTask (h : Sourced nenv Known s) {i : ℕ} {t : Option DrainTask}
    (ht : ∀ t', t = some t' → ∀ r ∈ t'.held, Known r.payload) :
    ∀ t' ∈ s.putTask i t, ∀ r ∈ t'.held, Known r.payload := by
  intro t' ht'
  rcases mem_putTask ht' with ht' | rfl
  · exact h.drained t' ht'
  · exact ht t' rfl

/-- A task that goes on with the next user, or is over. -/
theorem Sourced.ended (h : Sourced nenv Known s) (i : ℕ) (t : DrainTask) :
    ∀ t' ∈ s.putTask i (next t), ∀ r ∈ t'.held, Known r.payload :=
  h.putTask fun t' ht' r hr => by
    rw [held_next ht'] at hr
    cases hr

/-- A task that starts. -/
theorem Sourced.started (h : Sourced nenv Known s) (sweep : Bool) (u : UUID) (us : List UUID) :
    ∀ t ∈ s.tasks ++ [⟨sweep, .selecting u, us⟩], ∀ r ∈ t.held, Known r.payload := by
  intro t ht
  rcases List.mem_append.mp ht with ht | ht
  · exact h.drained t ht
  · obtain rfl := List.mem_singleton.mp ht
    exact fun _ hr => absurd hr List.not_mem_nil

/-- **The service makes up no event**: what it holds after a step it held before, or made of a
message. Only the arrival of a raw message brings something new, and for that the hypothesis
answers. -/
theorem Sourced.step (h : Sourced nenv Known s)
    (harrive : ∀ msg, l = .arrive msg → ∀ tx, normalizeMessage nenv msg = some tx → Known tx)
    (hs : s.step nenv l = some s') : Sourced nenv Known s' := by
  have hidle : ∀ tx, ConsumerState.polling.event? = some tx → Known tx := fun _ hx => by cases hx
  have hdone : ∀ tx, ConsumerState.handled.event? = some tx → Known tx := fun _ hx => by cases hx
  cases step_cases hs with
  | arrive msg =>
    refine { h with raw := fun msg' hm => ?_ }
    rcases List.mem_append.mp hm with hm | hm
    · exact h.raw msg' hm
    · obtain rfl := List.mem_singleton.mp hm
      exact harrive msg' rfl
  | poll i msg hc hm =>
    -- polling only reorders the messages: the one read comes first
    refine { h with raw := fun msg' hm' => ?_, routed := fun _ hx => by cases hx }
    rcases List.mem_cons.mp hm' with rfl | hm'
    · exact h.raw msg' (List.mem_of_getElem? hm)
    · exact h.raw msg' (List.mem_of_mem_eraseIdx hm')
  | normalize rowId msg raw tx hc hr hn =>
    refine { h with routed := fun tx' hx => ?_ }
    -- the routed transaction is the normal form of the message read
    obtain rfl := Option.some.inj hx
    exact h.raw msg (hr ▸ List.mem_cons_self ..) tx hn
  | skip => exact { h with routed := hdone }
  | checkLock rowId tx hc =>
    refine { h with routed := fun tx' hx => h.routed tx' ?_ }
    rw [hc]
    exact hx
  | insert rowId tx hc =>
    refine { h with routed := fun tx' hx => h.routed tx' ?_ }
    rw [hc]
    exact hx
  | produce rowId tx hc =>
    have htx : Known tx := h.routed tx (by rw [hc]; rfl)
    refine { h with routed := fun tx' hx => ?_, queued := fun p tx' hx => ?_ }
    · obtain rfl := Option.some.inj hx
      exact htx
    · rcases mem_produce hx with hx | rfl
      · exact h.queued p tx' hx
      · exact htx
  | commitStaged rowId tx hc hk =>
    refine { h with routed := hdone, staged := fun r hr => ?_ }
    rcases KeyedTable.mem_of_mem_insertIgnore hr with hr | rfl
    · exact h.staged r hr
    · exact h.routed tx (by rw [hc]; rfl)
  | commitProduced => exact { h with routed := hdone }
  | commitOffset rowId msg raw hc hr =>
    exact { h with
      raw := fun msg' hm => h.raw msg' (hr ▸ List.mem_cons_of_mem _ hm)
      routed := hidle }
  | routeFails => exact { h with routed := hdone }
  | crash =>
    exact { h with
      routed := hidle
      queued := fun _ _ hx => absurd hx List.not_mem_nil
      drained := fun _ hx => absurd hx List.not_mem_nil }
  -- acknowledged or not, a message only leaves its producer's queue
  | acknowledge p i tx hq =>
    exact { h with queued := fun p' tx' hx => h.queued p' tx' (mem_of_mem_eraseQueue hx) }
  | deliveryFails p i tx hq =>
    exact { h with queued := fun p' tx' hx => h.queued p' tx' (mem_of_mem_eraseQueue hx) }
  | commitLock | releaseLock | missNotify | sweepNothing => exact { h with }
  | notify u rest hn => exact { h with drained := h.started false u [] }
  | sweep u us hp => exact { h with drained := h.started true u us }
  | select i t u ht hp =>
    -- what a drain holds it read from the staging table
    refine { h with drained := h.putTask (t := some _) fun t' ht' r hr => ?_ }
    obtain rfl := Option.some.inj ht'
    exact h.staged r (mem_selectStagedForUser.mp hr).1
  | drained i t u ht hp => exact { h with drained := h.ended i t }
  | publish i t u row rest ht hp =>
    have hheld : t.held = row :: rest := by simp only [DrainTask.held, hp]
    have hknown := h.drained t (List.mem_of_getElem? ht)
    rw [hheld] at hknown
    refine { h with
      queued := fun p tx hx => ?_
      drained := h.putTask (t := some _) fun t' ht' r hr => ?_ }
    · rcases mem_produce hx with hx | rfl
      · exact h.queued p tx hx
      · exact hknown row (List.mem_cons_self ..)
    · obtain rfl := Option.some.inj ht'
      exact hknown r hr
  | delete i t u row rest ht hp =>
    have hheld : t.held = row :: rest := by simp only [DrainTask.held, hp]
    have hknown := h.drained t (List.mem_of_getElem? ht)
    rw [hheld] at hknown
    refine { h with
      staged := fun r hr => h.staged r (KeyedTable.mem_deleteWhere.mp hr).1
      drained := h.putTask (t := some _) fun t' ht' r hr => ?_ }
    obtain rfl := Option.some.inj ht'
    exact hknown r (List.mem_cons_of_mem _ hr)
  | drainFails i t ht => exact { h with drained := h.ended i t }

end StagingState

/-! ## Where the rows come from

A row of the table was inserted by enrichment for an event, put back by a job from its snapshot, or
changed by the unit of work of another event. On the fields of the event none of these makes a
difference, and that is what a row reads as. -/

variable {Known : NormalizedTransaction → Prop} {tx : NormalizedTransaction} {r : Transaction}
  {db db' : Database} {env : PipelineEnv} {nenv : NormalizerEnv}

/-- The event is a known one, or one with the same fields and source block: what a replay makes of
it. A replayed event has a new layer, and lacks what only enrichment had added. -/
def KnownEvent (Known : NormalizedTransaction → Prop) (tx : NormalizedTransaction) : Prop :=
  ∃ tx₀, Known tx₀ ∧ tx.replayed = tx₀.replayed

/-- The row reads back as a known event: on every field that is not enrichment's own it is the row
of that event. -/
def KnownRow (Known : NormalizedTransaction → Prop) (r : Transaction) : Prop :=
  ∃ tx₀, Known tx₀ ∧ ReadsAs r tx₀

/-- Every row of the table reads back as a known event. -/
def KnownRows (Known : NormalizedTransaction → Prop) (db : Database) : Prop :=
  ∀ r ∈ db.transactions, KnownRow Known r

theorem knownEvent_of_known (h : Known tx) : KnownEvent Known tx := ⟨tx, h, rfl⟩

theorem replayed_replayed (tx : NormalizedTransaction) : tx.replayed.replayed = tx.replayed := by
  simp [NormalizedTransaction.replayed, NormalizedTransaction.sourceBlock, Dict.get?]

/-- A row read back for a replay. -/
theorem KnownRow.event (h : KnownRow Known r) :
    KnownEvent Known (TransactionRow.ofRow r).toNormalized := by
  obtain ⟨tx₀, hknown, hread⟩ := h
  exact ⟨tx₀, hknown, by rw [hread.event, replayed_replayed]⟩

/-- The row enrichment inserts for an event. -/
theorem KnownEvent.row (h : KnownEvent Known tx) {source : TransactionSource}
    {account : AccountProps} {conversion : ConversionResult} {res : TransferResult}
    (hs : TransactionSource.ofText tx.source = some source) :
    KnownRow Known (enrichedRow tx source account conversion res) := by
  obtain ⟨tx₀, hknown, heq⟩ := h
  have hread : ReadsAs (enrichedRow tx source account conversion res) tx :=
    readsAs_toRow hs (buildMetadata_source (buildMetadata_eq ..))
  exact ⟨tx₀, hknown, heq ▸ hread.event, hread.object⟩

/-- A unit of work adds the row of its event, and may claim another as the other side of a transfer.
A claim writes fields that are not part of the event. -/
theorem KnownRows.consume (h : KnownRows Known db) (htx : KnownEvent Known tx) :
    KnownRows Known (consume env db tx) := by
  intro r hr
  rcases consume_row_cases hr with hr | ⟨_, _, _, _, _, _, he, rfl⟩ |
    ⟨-, r₀, hr₀, -, pair, m, hm, rfl⟩
  · exact h r hr
  · exact htx.row he.source_eq
  · obtain ⟨tx₀, hknown, hread⟩ := h r₀ hr₀
    exact ⟨tx₀, hknown, hread.claimed hm⟩

/-- The delete of a job unlinks the rows it leaves. -/
theorem KnownRows.deleteUser (h : KnownRows Known db) (userId : UUID) :
    KnownRows Known (db.deleteUser userId) := by
  intro r hr
  obtain ⟨r₀, hr₀, -, rfl⟩ := mem_deleteUser.mp hr
  obtain ⟨tx₀, hknown, hevent, hobject⟩ := h r₀ hr₀
  refine ⟨tx₀, hknown, ?_⟩
  rw [Transaction.unlinked]
  split
  · exact ⟨hevent, hobject⟩
  · exact ⟨hevent, hobject⟩

/-- A restore keeps the rows of the table and puts rows of the snapshot back. -/
theorem mem_restoreRows {rows : List Transaction} (h : restoreRows db rows = some db') :
    (∀ r ∈ db.transactions, r ∈ db'.transactions) ∧
      ∀ r ∈ db'.transactions, r ∈ db.transactions ∨ r ∈ rows := by
  obtain ⟨db₁, hfold, h⟩ := Option.bind_eq_some_iff.mp h
  split at h
  swap
  · cases h
  obtain rfl := Option.some.inj h
  clear * - hfold
  induction rows generalizing db with
  | nil =>
    obtain rfl := Option.some.inj hfold
    exact ⟨fun _ hr => hr, fun _ hr => Or.inl hr⟩
  | cons q rows ih =>
    rw [List.foldlM_cons] at hfold
    obtain ⟨db₂, hq, hfold⟩ := Option.bind_eq_some_iff.mp hfold
    obtain ⟨hkeep, hnew⟩ := ih hfold
    rcases restoreRow_eq_some hq with ⟨-, rfl⟩ | ⟨-, rfl⟩
    · exact ⟨hkeep, fun r hr => (hnew r hr).imp_right (List.mem_cons_of_mem _)⟩
    · refine ⟨fun r hr => hkeep r (KeyedTable.mem_insertIgnore_of_mem hr), fun r hr => ?_⟩
      rcases hnew r hr with hr | hr
      · rcases KeyedTable.mem_of_mem_insertIgnore hr with hr | rfl
        · exact Or.inl hr
        · exact Or.inr (List.mem_cons_self ..)
      · exact Or.inr (List.mem_cons_of_mem _ hr)

/-- The events a job has read and not published yet. -/
def JobState.events : JobState → List NormalizedTransaction
  | .delete _ events => events
  | .publish _ _ remaining => remaining
  | _ => []

/-- The rows a job has read for its snapshot. -/
def JobState.rows : JobState → List Transaction
  | .backup rows => rows
  | _ => []

/-- What a job holds is known: the rows it has read for its snapshot, the events it has read and not
published, and those its producer has enqueued. -/
structure KnownJob (Known : NormalizedTransaction → Prop) (job : JobState)
    (queue : List NormalizedTransaction) : Prop where
  rows : ∀ r ∈ job.rows, KnownRow Known r
  events : ∀ tx ∈ job.events, KnownEvent Known tx
  queued : ∀ tx ∈ queue, KnownEvent Known tx

/-- A job that holds nothing but its queue. -/
theorem KnownJob.bare {job job' : JobState} {queue : List NormalizedTransaction}
    (h : KnownJob Known job queue) (hrows : job'.rows = []) (hevents : job'.events = []) :
    KnownJob Known job' queue :=
  ⟨fun _ hr => absurd (hrows ▸ hr) List.not_mem_nil,
    fun _ htx => absurd (hevents ▸ htx) List.not_mem_nil, h.queued⟩

/-- What a job and the tables it works on hold is known: the table, the snapshot and the job itself.
A restore puts rows of the snapshot back, so the snapshot has to be known as well. -/
structure KnownWork (Known : NormalizedTransaction → Prop) (t : ReprocessState) : Prop where
  stored : KnownRows Known t.db
  backups : ∀ rows ∈ t.backups, ∀ r ∈ rows, KnownRow Known r
  held : KnownJob Known t.job t.queue

/-- **The job makes up no row and no event**: each of its statements reads rows, publishes events of
rows it has read, deletes rows, or puts rows of its snapshot back. -/
theorem KnownWork.jobStep {t t' : ReprocessState} {userId : UUID} (h : KnownWork Known t)
    (hs : t.jobStep userId = some t') : KnownWork Known t' := by
  cases ReprocessState.jobStep_cases hs with
  | unlocked | locked | advisoryLock | flush | polled | caughtUp | timedOut | verified | missing
    | notRestored | released | releasedRestored => exact { h with held := h.held.bare rfl rfl }
  | snapshot hj =>
    refine { h with held := ⟨fun r hr => ?_, fun _ hx => absurd hx List.not_mem_nil,
      h.held.queued⟩ }
    exact h.stored r (mem_snapshotRows.mp hr).1
  | backup rows hj =>
    refine { h with backups := fun rows' hrows' => ?_, held := h.held.bare rfl rfl }
    rcases List.mem_cons.mp hrows' with rfl | hrows'
    · have hrows := h.held.rows
      rw [hj] at hrows
      exact hrows
    · exact h.backups rows' hrows'
  | read ids hj =>
    refine { h with held := ⟨fun _ hx => absurd hx List.not_mem_nil, fun tx htx => ?_,
      h.held.queued⟩ }
    obtain ⟨row, hrow, rfl⟩ := List.mem_map.mp htx
    obtain ⟨r, hr, -, rfl⟩ := mem_selectForUser.mp hrow
    exact (h.stored r hr).event
  | delete ids events hj =>
    have hevents := h.held.events
    rw [hj] at hevents
    exact ⟨h.stored.deleteUser userId, h.backups,
      fun _ hx => absurd hx List.not_mem_nil, hevents, h.held.queued⟩
  | enqueue ids published event remaining hj =>
    have hevents := h.held.events
    rw [hj] at hevents
    refine { h with held := ⟨fun _ hx => absurd hx List.not_mem_nil,
      fun tx htx => hevents tx (List.mem_cons_of_mem _ htx), fun tx htx => ?_⟩ }
    rcases List.mem_append.mp htx with htx | htx
    · exact h.held.queued tx htx
    · obtain rfl := List.mem_singleton.mp htx
      exact hevents tx (List.mem_cons_self ..)
  | restored ids rows rest db hj hb hr =>
    refine { h with stored := fun r hmem => ?_, held := h.held.bare rfl rfl }
    rcases (mem_restoreRows hr).2 r hmem with hmem | hmem
    · exact h.stored r hmem
    · exact h.backups rows (hb ▸ List.mem_cons_self ..) r hmem

namespace PipelineState

variable {π : Type} [DecidableEq π] {partitionOf : UUID → π} {s s' : PipelineState π}
  {l : PipelineLabel π} {labels : List (PipelineLabel π)}

/-- Everything the parts of the system hold is known: the service, the messages of the topic, the
table, and every pod. It is the invariant of the whole system. -/
structure Traceable (nenv : NormalizerEnv) (Known : NormalizedTransaction → Prop)
    (s : PipelineState π) : Prop where
  service : s.service.Sourced nenv Known
  log : ∀ p tx, some tx ∈ s.topic.log p → KnownEvent Known tx
  rows : KnownRows Known s.topic.store
  pods : ∀ pod ∈ s.pods, KnownJob Known pod.job pod.queue
  backups : ∀ userId, ∀ rows ∈ s.backups userId, ∀ r ∈ rows, KnownRow Known r

omit [DecidableEq π] in
theorem traceable_start : Traceable nenv Known (start : PipelineState π) where
  service := ⟨fun _ h => absurd h List.not_mem_nil, fun _ h => (by cases h),
    fun _ _ h => absurd h List.not_mem_nil, fun _ h => absurd h KeyedTable.not_mem_empty,
    fun _ h => absurd h List.not_mem_nil⟩
  log := fun _ _ h => absurd h List.not_mem_nil
  rows := fun _ h => absurd h KeyedTable.not_mem_empty
  pods := fun _ h => absurd h List.not_mem_nil
  backups := fun _ _ h => absurd h List.not_mem_nil

/-- The topic after an event has reached it. -/
theorem mem_publish {p : π} {msg : NormalizedMessage}
    (h : msg ∈ (s.publish partitionOf tx).log p) : msg ∈ s.topic.log p ∨ msg = some tx := by
  by_cases hp : p = partitionOf tx.userId
  · subst hp
    simpa [publish] using h
  · simp only [publish, Function.update_of_ne hp] at h
    exact Or.inl h

theorem Traceable.publish (h : s.Traceable nenv Known) (htx : KnownEvent Known tx) :
    ∀ p tx', some tx' ∈ (s.publish partitionOf tx).log p → KnownEvent Known tx' := by
  intro p tx' hmem
  rcases mem_publish hmem with hmem | hmem
  · exact h.log p tx' hmem
  · obtain rfl := Option.some.inj hmem
    exact htx

omit [DecidableEq π] in
/-- The pods after one of them was put back. -/
theorem Traceable.setPod (h : s.Traceable nenv Known) {i : ℕ} {pod : ReprocessPod}
    (hpod : KnownJob Known pod.job pod.queue) :
    ∀ pod' ∈ s.pods.set i pod, KnownJob Known pod'.job pod'.queue := by
  intro pod' hmem
  rcases List.mem_or_eq_of_mem_set hmem with hmem | rfl
  · exact h.pods pod' hmem
  · exact hpod

omit [DecidableEq π] in
/-- The lock rows are not among what the service holds. -/
theorem sourced_releaseIf (h : s.service.Sourced nenv Known) (userId : UUID) (released : Bool) :
    (s.releaseIf userId released).Sourced nenv Known := by
  rw [releaseIf]
  split
  · exact { h with }
  · exact h

/-- Inversion of a step of the consumers. -/
theorem consumer_cases {c : Label π NormalizedMessage PipelineEnv}
    (h : s.step nenv partitionOf (.consumer c) = some s') :
    ∃ topic, (∀ p msg, c ≠ .append p msg) ∧ s.topic.step processMessage c = some topic ∧
      s' = { s with topic := topic } := by
  have hmap : (s.topic.step processMessage c).map (fun topic => { s with topic := topic }) =
      some s' := by
    cases c with
    | append => cases h
    | _ => exact h
  obtain ⟨topic, htopic, rfl⟩ := Option.map_eq_some_iff.mp hmap
  refine ⟨topic, ?_, htopic, rfl⟩
  rintro p msg rfl
  cases h

/-- A step of the consumers. -/
theorem Traceable.consume (h : s.Traceable nenv Known)
    {c : Label π NormalizedMessage PipelineEnv} {topic : State π NormalizedMessage Database}
    (hc : ∀ p msg, c ≠ .append p msg) (hs : s.topic.step processMessage c = some topic) :
    Traceable nenv Known { s with topic := topic } := by
  obtain ⟨g', hmove⟩ : ∃ g', Move processMessage s.topic History.empty c topic g' :=
    ⟨_, step_cases (by rw [tracedStep, traced, hs]; rfl)⟩
  cases hmove with
  | append p msg => exact absurd rfl (hc p msg)
  | done p env msg db hm ho =>
    obtain ⟨tx, rfl, hrun⟩ := processMessage_done ho
    refine { h with log := h.log, rows := ?_ }
    change KnownRows Known db
    rw [← consume_of_run hrun]
    exact h.rows.consume (h.log p tx (List.mem_of_getElem? hm))
  | _ => exact { h with log := h.log, rows := h.rows }

/-- **One step keeps the system traceable**: by the lemma of the part that moves, and because the
places where the parts meet pass on only what one of them held. -/
theorem Traceable.step (h : s.Traceable nenv Known)
    (harrive : ∀ msg, l = .service (.arrive msg) →
      ∀ tx, normalizeMessage nenv msg = some tx → Known tx)
    (hs : s.step nenv partitionOf l = some s') : s'.Traceable nenv Known := by
  cases l with
  | service l =>
    obtain ⟨service, hservice, rfl⟩ := Option.map_eq_some_iff.mp hs
    have hsourced := h.service.step (fun msg hl => harrive msg (hl ▸ rfl)) hservice
    rcases hsent : s.sent l with _ | tx
    · exact { h with service := hsourced }
    · refine { h with service := hsourced, log := h.publish (knownEvent_of_known ?_) }
      cases l with
      -- of the service's steps only an acknowledgement appends to the log
      | acknowledge p i => exact h.service.queued p tx (List.mem_of_getElem? hsent)
      | _ => cases hsent
  | consumer c =>
    obtain ⟨topic, hc, htopic, rfl⟩ := consumer_cases hs
    exact h.consume hc htopic
  | startPod userId =>
    obtain rfl := Option.some.inj hs
    refine { h with pods := fun pod hpod => ?_ }
    rcases List.mem_append.mp hpod with hpod | hpod
    · exact h.pods pod hpod
    · obtain rfl := List.mem_singleton.mp hpod
      exact ⟨fun _ hx => absurd hx List.not_mem_nil, fun _ hx => absurd hx List.not_mem_nil,
        fun _ hx => absurd hx List.not_mem_nil⟩
  | pod i =>
    obtain ⟨pod, hpod, hs⟩ := Option.bind_eq_some_iff.mp hs
    obtain ⟨t, ht, rfl⟩ := Option.map_eq_some_iff.mp hs
    have hwork : KnownWork Known t := KnownWork.jobStep (t := s.view pod)
      ⟨h.rows, h.backups pod.userId, h.pods pod (List.mem_of_getElem? hpod)⟩ ht
    refine ⟨sourced_releaseIf h.service _ _, h.log, hwork.stored, h.setPod hwork.held,
      fun userId => ?_⟩
    -- a job writes the backup of its own user only
    by_cases hu : userId = pod.userId
    · subst hu
      simpa [absorb] using hwork.backups
    · simpa [absorb, Function.update_of_ne hu] using h.backups userId
  | podRaises i =>
    obtain ⟨pod, hpod, hs⟩ := Option.bind_eq_some_iff.mp hs
    obtain ⟨job, hjob, rfl⟩ := Option.map_eq_some_iff.mp hs
    have hheld := h.pods pod (List.mem_of_getElem? hpod)
    refine { h with pods := h.setPod ?_ }
    obtain ⟨ids, -, rfl⟩ | ⟨b, rfl⟩ := JobState.raise_cases hjob
    · exact hheld.bare rfl rfl
    · exact hheld.bare rfl rfl
  | podDies i =>
    obtain rfl := Option.some.inj hs
    exact { h with pods := fun pod hpod => h.pods pod (List.mem_of_mem_eraseIdx hpod) }
  | podAcknowledge i =>
    obtain ⟨pod, hpod, hs⟩ := Option.bind_eq_some_iff.mp hs
    obtain ⟨event, hevent, rfl⟩ := Option.map_eq_some_iff.mp hs
    have hheld := h.pods pod (List.mem_of_getElem? hpod)
    exact { h with
      log := h.publish (hheld.queued event (List.mem_of_mem_head? hevent))
      rows := h.rows
      pods := h.setPod
        { hheld with queued := fun tx htx => hheld.queued tx (List.mem_of_mem_tail htx) } }
  | podDeliveryFails i =>
    obtain ⟨pod, hpod, rfl⟩ := Option.map_eq_some_iff.mp hs
    have hheld := h.pods pod (List.mem_of_getElem? hpod)
    exact { h with
      pods := h.setPod
        { hheld with queued := fun tx htx => hheld.queued tx (List.mem_of_mem_tail htx) } }

/-- The event of a raw message of the run: some step of it is the arrival of a message that
normalizes to the event. -/
def Arrives (nenv : NormalizerEnv) (labels : List (PipelineLabel π)) (tx : NormalizedTransaction) :
    Prop :=
  ∃ msg, .service (.arrive msg) ∈ labels ∧ normalizeMessage nenv msg = some tx

theorem traceable_of_exec (h : exec (step nenv partitionOf) start labels = some s) :
    s.Traceable nenv (Arrives nenv labels) := by
  have hstep : ∀ s l s', Traceable nenv (Arrives nenv labels) s → l ∈ labels →
      step nenv partitionOf s l = some s' → Traceable nenv (Arrives nenv labels) s' :=
    fun s l s' h hl hs => h.step (fun msg hmsg tx htx => ⟨msg, hmsg ▸ hl, htx⟩) hs
  exact exec_invariant_along hstep traceable_start (along_of_labels fun l hl => hl) h

/-- **Every row comes from a raw message**: in every run of the service, the jobs and the consumers,
with any crashes, lost deliveries, redeliveries and restores, each row of `transactions` reads back,
on every field that is not enrichment's, as the event of a message that has arrived. Nothing is made
up, and no user's event turns into a row of another. -/
theorem rows_have_origin (h : exec (step nenv partitionOf) start labels = some s) :
    ∀ r ∈ s.topic.store.transactions, ∃ tx, Arrives nenv labels tx ∧ ReadsAs r tx :=
  (traceable_of_exec h).rows

/-- A second transaction of the user. -/
def sampleLater : RawMessage :=
  some { userId := 1, accountId := 11, source := "manual", monobankItem := none
         manualPayload := some { samplePayload with id := 102, sourceId := "m-2" } }

/-- A transaction goes through to the table; a job replays it, while another one is staged; the
consumer dies after its unit of work and reads the replayed event again. -/
def replayedRun : List (PipelineLabel Unit) :=
  [.service (.arrive sampleMessage), .service (.poll 0)] ++
    List.replicate 5 (.service (.consume 1)) ++
    [.service (.acknowledge .consumer 0), .consumer (.handle () sampleEnv),
      .consumer (.commit () 1), .service (.commitLock 1), .startPod 1] ++
    List.replicate 5 (.pod 0) ++
    [.service (.arrive sampleLater), .service (.poll 0)] ++
    List.replicate 5 (.service (.consume 1)) ++
    List.replicate 3 (.pod 0) ++
    [.podAcknowledge 0, .consumer (.handle () sampleEnv), .consumer (.rewind ()),
      .consumer (.handle () sampleEnv)] ++
    List.replicate 3 (.pod 0) ++
    [.service .notify] ++ List.replicate 4 (.service (.drain 0)) ++
    [.service (.acknowledge .drain 0), .consumer (.handle () sampleEnv), .consumer (.commit () 3)]

/-- The two rows after the replay, the redelivery and the drain: each transaction has its one row,
and reads back as its event. -/
theorem rows_have_origin_replayed :
    ∃ s, exec (step sampleNormalizer fun _ => ()) start replayedRun = some s ∧
      s.topic.store.transactions.rows.map Transaction.id = [101, 102] ∧
      ∀ r ∈ s.topic.store.transactions,
        ∃ tx, Arrives sampleNormalizer replayedRun tx ∧ ReadsAs r tx :=
  ⟨_, rfl, rfl, @rows_have_origin _ _ _ (fun _ => ()) _ replayedRun rfl⟩

end PipelineState

end Grosh
