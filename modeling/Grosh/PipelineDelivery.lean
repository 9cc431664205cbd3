import Grosh.Pipeline

/-!
# What reaches the transactions table

An event is on its way in one of six places: a raw message, the staging table, a queue of the
service, what a job has read and deleted, a queue of a job, a message of the topic that no consumer
has passed. It leaves the last for the table.

* `stored_iff_arrived` — a run that loses nothing on the way (`Reliable`) and has come to rest
  leaves the table with exactly the ids of the events that have arrived, whatever was staged,
  replayed, redelivered or restored in between.

Each condition of `Reliable` is one way to lose an event: a delivery that fails for good, a process
that dies with a message in its queue, a routing that raises, a row stored between the read and the
delete of a job, a job that raises or dies between its delete and its last message, an account that
is not there.
-/

namespace Grosh

open AtLeastOnce Transition

/-! ## The service

Where an event has left the service for, `Out` says: here an arbitrary predicate, so that the
service can be looked at by itself, and in the system below what the topic, the table and the jobs
answer for. -/

namespace StagingState

variable {nenv : NormalizerEnv} {s s' : StagingState} {l : StagingLabel}
  {Out Out' : NormalizedTransaction → Prop} {tx : NormalizedTransaction}

/-- The event is in a queue or has left the service. A drain that has sent the event of a row may
delete the row. -/
def Sent (Out : NormalizedTransaction → Prop) (s : StagingState) (tx : NormalizedTransaction) :
    Prop :=
  (∃ p, tx ∈ s.queue p) ∨ Out tx

/-- The event is in a queue or in the staging table, or has left the service. A consumer that has
placed the event of a message may commit its offset. -/
def Placed (Out : NormalizedTransaction → Prop) (s : StagingState) (tx : NormalizedTransaction) :
    Prop :=
  s.Sent Out tx ∨ ∃ r ∈ s.staging, r.payload = tx

/-- The event of the message the consumer is given first: the one it works on, from the moment it
has polled it. -/
def headEvent (nenv : NormalizerEnv) (s : StagingState) : Option NormalizedTransaction :=
  s.raw.head?.bind (normalizeMessage nenv)

/-- The conditions on a step of the service: no routing raises, no delivery fails for good, the
process dies with both queues empty, and a row is staged under an id that no drain has in its hands,
as a random id is. -/
def Reliable (s : StagingState) : StagingLabel → Prop
  | .routeFails => False
  | .deliveryFails _ _ => False
  | .crash => (s.queue .consumer).isEmpty ∧ (s.queue .drain).isEmpty
  -- a row is staged under an id that no drain has in its hands
  | .consume rowId => ∀ t ∈ s.tasks, ∀ r ∈ t.held, r.id ≠ rowId
  | _ => True

instance : DecidablePred s.Reliable
  | .routeFails => .isFalse id
  | .deliveryFails _ _ => .isFalse id
  | .crash => inferInstanceAs (Decidable (_ ∧ _))
  | .consume rowId => inferInstanceAs (Decidable (∀ t ∈ s.tasks, ∀ r ∈ t.held, r.id ≠ rowId))
  | .arrive _ | .poll _ | .acknowledge _ _ | .commitLock _ | .releaseLock _ | .notify
  | .missNotify | .sweep _ | .drain _ | .drainFails _ => .isTrue trivial

/-- What the consumer keeps: it commits the offset of an event that is placed. The message it works
on is the first of the uncommitted ones, so the event it has in hand is that message's. -/
structure Consuming (nenv : NormalizerEnv) (Out : NormalizedTransaction → Prop)
    (s : StagingState) : Prop where
  raw : s.consumer ≠ .polling → s.raw ≠ []
  routing : ∀ tx, s.consumer.event? = some tx → s.headEvent nenv = some tx
  produced : ∀ tx, s.consumer = .written tx false → s.Placed Out tx
  handled : s.consumer = .handled → ∀ tx, s.headEvent nenv = some tx → s.Placed Out tx

/-- What the drains keep: they delete the row of an event that is sent. A row that a drain has read
may have been deleted meanwhile by another drain, but it has not become another row. -/
structure Draining (Out : NormalizedTransaction → Prop) (s : StagingState) : Prop where
  /-- a row a drain has read is the one in the table, as long as that is there -/
  held : ∀ t ∈ s.tasks, ∀ r ∈ t.held, ∀ q ∈ s.staging, q.id = r.id → q = r
  deleting : ∀ t ∈ s.tasks, ∀ u row rest, t.phase = .deleting u row rest → s.Sent Out row.payload

/-- The event is a raw message's, or placed. These are all the places where the service can hold
it. -/
def OnItsWay (nenv : NormalizerEnv) (Out : NormalizedTransaction → Prop) (s : StagingState)
    (tx : NormalizedTransaction) : Prop :=
  (∃ msg ∈ s.raw, normalizeMessage nenv msg = some tx) ∨ s.Placed Out tx

theorem mem_eraseQueue {p p' : ServiceProducer} {i : ℕ} {tx' : NormalizedTransaction}
    (hq : (s.queue p)[i]? = some tx) (h : tx' ∈ s.queue p') :
    tx' = tx ∨ tx' ∈ Function.update s.queue p ((s.queue p).eraseIdx i) p' := by
  by_cases hp : p' = p
  · subst hp
    rw [Function.update_self]
    obtain ⟨hlt, rfl⟩ := List.getElem?_eq_some_iff.mp hq
    exact List.mem_cons.mp ((List.getElem_cons_eraseIdx_perm hlt).mem_iff.mpr h)
  · exact Or.inr (by rwa [Function.update_of_ne hp])

theorem mem_produce_of_mem {p p' : ServiceProducer} {tx' : NormalizedTransaction}
    (h : tx' ∈ s.queue p') : tx' ∈ s.produce p tx p' := by
  by_cases hp : p' = p
  · subst hp
    simpa [produce] using Or.inl h
  · rwa [produce, Function.update_of_ne hp]

theorem self_mem_produce (s : StagingState) (p : ServiceProducer) (tx : NormalizedTransaction) :
    tx ∈ s.produce p tx p := by
  simp [produce]

section Steps

variable (hout : ∀ tx, Out tx → Out' tx)
  (hack : ∀ p i, l = .acknowledge p i → ∀ tx, (s.queue p)[i]? = some tx → Out' tx)
  (hC : s.Reliable l) (hs : s.step nenv l = some s')
include hout hack hC hs

/-- An event that is sent stays sent. -/
theorem Sent.step (h : s.Sent Out tx) : s'.Sent Out' tx := by
  rcases h with ⟨p, hp⟩ | hx
  swap
  · exact Or.inr (hout tx hx)
  cases step_cases hs with
  | produce | publish => exact Or.inl ⟨p, mem_produce_of_mem hp⟩
  | crash =>
    have hempty : s.queue p = [] := by
      cases p with
      | consumer => exact List.isEmpty_iff.mp hC.1
      | drain => exact List.isEmpty_iff.mp hC.2
    exact absurd (hempty ▸ hp) List.not_mem_nil
  | acknowledge p' i tx' hq =>
    rcases mem_eraseQueue hq hp with rfl | hp
    · exact Or.inr (hack p' i rfl tx hq)
    · exact Or.inl ⟨p, hp⟩
  | deliveryFails => exact absurd hC id
  | _ => exact Or.inl ⟨p, hp⟩

/-- An event that is placed stays placed: a drain deletes a row whose event it has sent. -/
theorem Placed.step (hd : s.Draining Out) (h : s.Placed Out tx) : s'.Placed Out' tx := by
  rcases h with h | ⟨r, hr, rfl⟩
  · exact Or.inl (h.step hout hack hC hs)
  have hstep := step_cases hs
  cases hstep with
  | commitStaged => exact Or.inr ⟨r, KeyedTable.mem_insertIgnore_of_mem hr, rfl⟩
  | delete i t u row rest ht hp =>
    by_cases hid : r.id = row.id
    · have hmem := List.mem_of_getElem? ht
      have hheld : row ∈ t.held := by simp [DrainTask.held, hp]
      obtain rfl := hd.held t hmem row hheld r hr hid
      exact Or.inl ((hd.deleting t hmem u r rest hp).step hout hack hC hs)
    · exact Or.inr ⟨r, KeyedTable.mem_deleteWhere.mpr ⟨hr, by simpa using hid⟩, rfl⟩
  | _ => exact Or.inr ⟨r, hr, rfl⟩

end Steps

/-! ### The drains -/

/-- A task that has read nothing yet, or no longer holds anything. -/
theorem not_deleting_of_held {t : DrainTask} (h : t.held = []) {u : UUID} {row : StagedRow}
    {rest : List StagedRow} : t.phase ≠ .deleting u row rest := by
  intro hp
  simp [DrainTask.held, hp] at h

/-- The tasks are the old ones, or hold nothing, and the table has no new rows. -/
theorem Draining.of_frame (h : s.Draining Out) (hsent : ∀ tx, s.Sent Out tx → s'.Sent Out' tx)
    (htasks : ∀ t ∈ s'.tasks, t ∈ s.tasks ∨ t.held = [])
    (hstaging : ∀ q ∈ s'.staging, q ∈ s.staging) : s'.Draining Out' := by
  refine ⟨fun t ht r hr q hq hid => ?_, fun t ht u row rest hp => ?_⟩
  · rcases htasks t ht with ht | hnil
    · exact h.held t ht r hr q (hstaging q hq) hid
    · exact absurd (hnil ▸ hr) List.not_mem_nil
  · rcases htasks t ht with ht | hnil
    · exact hsent _ (h.deleting t ht u row rest hp)
    · exact absurd hp (not_deleting_of_held hnil)

/-- A task was put back. -/
theorem Draining.of_putTask (h : s.Draining Out) (hsent : ∀ tx, s.Sent Out tx → s'.Sent Out' tx)
    {i : ℕ} {t : Option DrainTask} (htasks : s'.tasks = s.putTask i t)
    (hstaging : ∀ q ∈ s'.staging, q ∈ s.staging)
    (hheld : ∀ t', t = some t' → ∀ r ∈ t'.held, ∀ q ∈ s'.staging, q.id = r.id → q = r)
    (hdel : ∀ t', t = some t' → ∀ u row rest, t'.phase = .deleting u row rest →
      s'.Sent Out' row.payload) : s'.Draining Out' := by
  refine ⟨fun t' ht' r hr q hq hid => ?_, fun t' ht' u row rest hp => ?_⟩
  · rcases mem_putTask (htasks ▸ ht') with ht' | ht'
    · exact h.held t' ht' r hr q (hstaging q hq) hid
    · exact hheld t' ht' r hr q hq hid
  · rcases mem_putTask (htasks ▸ ht') with ht' | ht'
    · exact hsent _ (h.deleting t' ht' u row rest hp)
    · exact hdel t' ht' u row rest hp

section Steps

variable (hout : ∀ tx, Out tx → Out' tx)
  (hack : ∀ p i, l = .acknowledge p i → ∀ tx, (s.queue p)[i]? = some tx → Out' tx)
  (hC : s.Reliable l) (hs : s.step nenv l = some s')
include hout hack hC hs

theorem Draining.step (h : s.Draining Out) : s'.Draining Out' := by
  have hsent : ∀ tx, s.Sent Out tx → s'.Sent Out' tx := fun _ => Sent.step hout hack hC hs
  cases step_cases hs with
  | commitStaged rowId tx hc hk =>
    refine ⟨fun t ht r hr q hq hid => ?_, fun t ht u row rest hp => ?_⟩
    · rcases KeyedTable.mem_of_mem_insertIgnore hq with hq | rfl
      · exact h.held t ht r hr q hq hid
      -- no new row is staged under the id of one a drain still holds
      · exact absurd hid.symm (hC t ht r hr)
    · exact hsent _ (h.deleting t ht u row rest hp)
  -- no task outlives the process
  | crash =>
    exact ⟨fun _ ht => absurd ht List.not_mem_nil, fun _ ht => absurd ht List.not_mem_nil⟩
  | notify u rest hn =>
    refine h.of_frame hsent (fun t ht => ?_) fun _ hq => hq
    exact (List.mem_append.mp ht).imp_right fun ht => by rw [List.mem_singleton.mp ht]; rfl
  | sweep u us hp =>
    refine h.of_frame hsent (fun t ht => ?_) fun _ hq => hq
    exact (List.mem_append.mp ht).imp_right fun ht => by rw [List.mem_singleton.mp ht]; rfl
  | select i t u ht hp =>
    refine h.of_putTask hsent (t := some _) rfl (fun _ hq => hq) (fun t' ht' r hr q hq hid => ?_)
      fun t' ht' u' row rest hp' => ?_
    · obtain rfl := Option.some.inj ht'
      exact KeyedTable.eq_of_key_eq hq (mem_selectStagedForUser.mp hr).1 hid
    · obtain rfl := Option.some.inj ht'
      cases hp'
  | drained i t u ht hp =>
    refine h.of_frame hsent (fun t' ht' => ?_) fun _ hq => hq
    exact (mem_putTask ht').imp_right held_next
  | publish i t u row rest ht hp =>
    have hheld : t.held = row :: rest := by simp only [DrainTask.held, hp]
    refine h.of_putTask hsent (t := some _) rfl (fun _ hq => hq) (fun t' ht' r hr => ?_)
      fun t' ht' u' row' rest' hp' => ?_
    · obtain rfl := Option.some.inj ht'
      exact h.held t (List.mem_of_getElem? ht) r (hheld ▸ hr)
    · obtain rfl := Option.some.inj ht'
      -- the task deletes the row it has just produced
      obtain ⟨-, rfl, -⟩ := DrainPhase.deleting.inj hp'
      exact Or.inl ⟨.drain, self_mem_produce s .drain row.payload⟩
  | delete i t u row rest ht hp =>
    have hheld : t.held = row :: rest := by simp only [DrainTask.held, hp]
    refine h.of_putTask hsent (t := some _) rfl
      (fun q hq => (KeyedTable.mem_deleteWhere.mp hq).1) (fun t' ht' r hr q hq => ?_)
      fun t' ht' u' row' rest' hp' => ?_
    · obtain rfl := Option.some.inj ht'
      exact h.held t (List.mem_of_getElem? ht) r (hheld ▸ List.mem_cons_of_mem _ hr) q
        (KeyedTable.mem_deleteWhere.mp hq).1
    · obtain rfl := Option.some.inj ht'
      cases hp'
  | drainFails i t ht =>
    refine h.of_frame hsent (fun t' ht' => ?_) fun _ hq => hq
    exact (mem_putTask ht').imp_right held_next
  | _ => exact h.of_frame hsent (fun _ ht => Or.inl ht) fun _ hq => hq

end Steps

/-! ### The consumer -/

/-- Between two messages the consumer holds nothing. -/
theorem consuming_of_polling (h : s.consumer = .polling) : s.Consuming nenv Out := by
  refine ⟨fun hne => absurd h hne, fun tx hx => ?_, fun tx hx => ?_, fun hx => ?_⟩
  · rw [h] at hx
    cases hx
  · rw [h] at hx
    cases hx
  · rw [h] at hx
    cases hx

/-- A step of the others: the message in hand stays. -/
theorem Consuming.of_frame (h : s.Consuming nenv Out)
    (hplaced : ∀ tx, s.Placed Out tx → s'.Placed Out' tx) (hc : s'.consumer = s.consumer)
    (hraw : s.raw ≠ [] → s'.raw ≠ [] ∧ s'.raw.head? = s.raw.head?) : s'.Consuming nenv Out' := by
  have hhead : s.consumer ≠ .polling → s'.headEvent nenv = s.headEvent nenv := fun hne => by
    rw [headEvent, headEvent, (hraw (h.raw hne)).2]
  refine ⟨fun hne => ?_, fun tx hx => ?_, fun tx hx => ?_, fun hx tx hh => ?_⟩ <;>
    rw [hc] at *
  · exact (hraw (h.raw hne)).1
  · rw [hhead fun hp => by rw [hp] at hx; cases hx]
    exact h.routing tx hx
  · exact hplaced tx (h.produced tx hx)
  · rw [hhead fun hp => by rw [hp] at hx; cases hx] at hh
    exact hplaced tx (h.handled hx tx hh)

/-- The consumer goes on with the event of the message in hand. -/
theorem Consuming.of_routing (h : s.Consuming nenv Out) (he : s.consumer.event? = some tx)
    (hraw : s'.raw = s.raw) (he' : s'.consumer.event? = some tx)
    (hp : s'.consumer = .written tx false → s'.Placed Out' tx) : s'.Consuming nenv Out' := by
  have hne : s.consumer ≠ .polling := fun hp => by rw [hp] at he; cases he
  refine ⟨fun _ => hraw ▸ h.raw hne, fun tx' hx => ?_, fun tx' hx => ?_, fun hx => ?_⟩
  · obtain rfl := Option.some.inj (he'.symm.trans hx)
    rw [headEvent, hraw]
    exact h.routing tx he
  · rw [hx] at he'
    obtain rfl := Option.some.inj he'
    exact hp hx
  · rw [hx] at he'
    cases he'

/-- The consumer is done with the message in hand, whose event is placed. -/
theorem consuming_of_handled (hraw : s.raw ≠ []) (hc : s.consumer = .handled)
    (hp : ∀ tx, s.headEvent nenv = some tx → s.Placed Out tx) : s.Consuming nenv Out := by
  refine ⟨fun _ => hraw, fun tx hx => ?_, fun tx hx => ?_, fun _ => hp⟩
  · rw [hc] at hx
    cases hx
  · rw [hc] at hx
    cases hx

/-- Routing is over. -/
theorem Consuming.of_routed (h : s.Consuming nenv Out) (he : s.consumer.event? = some tx)
    (hraw : s'.raw = s.raw) (hc : s'.consumer = .handled) (hp : s'.Placed Out' tx) :
    s'.Consuming nenv Out' := by
  have hne : s.consumer ≠ .polling := fun hp => by rw [hp] at he; cases he
  apply consuming_of_handled (hraw ▸ h.raw hne) hc
  intro tx' hh
  rw [headEvent, hraw] at hh
  obtain rfl := Option.some.inj ((h.routing tx he).symm.trans hh)
  exact hp

section Steps

variable (hout : ∀ tx, Out tx → Out' tx)
  (hack : ∀ p i, l = .acknowledge p i → ∀ tx, (s.queue p)[i]? = some tx → Out' tx)
  (hC : s.Reliable l) (hs : s.step nenv l = some s')
include hout hack hC hs

theorem Consuming.step (h : s.Consuming nenv Out) (hd : s.Draining Out) :
    s'.Consuming nenv Out' := by
  have hplaced : ∀ tx, s.Placed Out tx → s'.Placed Out' tx :=
    fun _ hx => hx.step hout hack hC hs hd
  cases step_cases hs with
  | arrive msg =>
    refine h.of_frame hplaced rfl fun hne => ⟨List.append_ne_nil_of_left_ne_nil hne _, ?_⟩
    exact List.head?_append_of_ne_nil _ hne
  | poll i msg hc hm =>
    exact ⟨fun _ => List.cons_ne_nil _ _, fun tx hx => (by cases hx), fun tx hx => (by cases hx),
      fun hx => by cases hx⟩
  | normalize rowId msg raw tx hc hr hn =>
    have hraw : s.raw ≠ [] := hr ▸ List.cons_ne_nil _ _
    refine ⟨fun _ => hraw, fun tx' hx => ?_, fun tx' hx => (by cases hx), fun hx => by cases hx⟩
    obtain rfl := Option.some.inj hx
    simpa [headEvent, hr] using hn
  | skip rowId msg raw hc hr hn =>
    apply consuming_of_handled (hr ▸ List.cons_ne_nil _ _) rfl
    intro tx hh
    simp [headEvent, hr, hn] at hh
  | checkLock rowId tx hc =>
    exact h.of_routing (by rw [hc]; rfl) rfl rfl fun hx => by cases hx
  | insert rowId tx hc =>
    exact h.of_routing (by rw [hc]; rfl) rfl rfl fun hx => by cases hx
  | produce rowId tx hc =>
    exact h.of_routing (by rw [hc]; rfl) rfl rfl fun _ =>
      Or.inl (Or.inl ⟨.consumer, self_mem_produce s .consumer tx⟩)
  | commitStaged rowId tx hc hk =>
    have hrow : (⟨rowId, tx.userId, tx⟩ : StagedRow) ∈
        s.staging.insertIgnore ⟨rowId, tx.userId, tx⟩ :=
      (KeyedTable.mem_insertIgnore_of_not_hasKey hk).mpr (Or.inr rfl)
    exact h.of_routed (by rw [hc]; rfl) rfl rfl (Or.inr ⟨_, hrow, rfl⟩)
  | commitProduced rowId tx hc =>
    exact h.of_routed (by rw [hc]; rfl) rfl rfl (hplaced tx (h.produced tx hc))
  | commitOffset | crash => exact consuming_of_polling rfl
  | routeFails => exact absurd hC id
  | _ => exact h.of_frame hplaced rfl fun hne => ⟨hne, rfl⟩

/-- **The service loses no event**: one that is on its way stays so, or leaves. A step moves an
event from one place to the next, and never takes it from its only one. -/
theorem OnItsWay.step (h : s.OnItsWay nenv Out tx) (hc : s.Consuming nenv Out)
    (hd : s.Draining Out) : s'.OnItsWay nenv Out' tx := by
  rcases h with ⟨msg, hmsg, hn⟩ | h
  swap
  · exact Or.inr (h.step hout hack hC hs hd)
  have hstep := step_cases hs
  cases hstep with
  | arrive => exact Or.inl ⟨msg, List.mem_append_left _ hmsg, hn⟩
  | poll i msg' hc hm =>
    obtain ⟨hlt, rfl⟩ := List.getElem?_eq_some_iff.mp hm
    exact Or.inl ⟨msg, (List.getElem_cons_eraseIdx_perm hlt).mem_iff.mpr hmsg, hn⟩
  | commitOffset rowId msg' raw hh hr =>
    rw [hr] at hmsg
    rcases List.mem_cons.mp hmsg with rfl | hmsg
    · have hhead : s.headEvent nenv = some tx := by simpa [headEvent, hr] using hn
      exact Or.inr ((hc.handled hh tx hhead).step hout hack hC hs hd)
    · exact Or.inl ⟨msg, hmsg, hn⟩
  | _ => exact Or.inl ⟨msg, hmsg, hn⟩

end Steps

end StagingState

/-! ## The topic, the table and the jobs

A job deletes the rows of a user and publishes their events again. Meanwhile an event is in no
table, and it is the job that owes it. -/

/-- The events a job has deleted and not published yet. From the delete until it is published, an
event is nowhere else. -/
def JobState.owed : JobState → List NormalizedTransaction
  | .publish _ _ remaining => remaining
  | _ => []

/-- The events a job is about to delete the rows of. -/
def JobState.deleting? : JobState → Option (List NormalizedTransaction)
  | .delete _ events => some events
  | _ => none

/-- The job deletes what it has read: nothing was stored for the user in between. A row stored
between the two statements would be deleted without ever being published. -/
def ReprocessPod.DeletesRead (pod : ReprocessPod) (db : Database) : Prop :=
  ∀ events ∈ pod.job.deleting?, ∀ r ∈ db.rowsOf pod.userId, ∃ tx ∈ events, tx.id = r.id

instance (pod : ReprocessPod) (db : Database) : Decidable (pod.DeletesRead db) :=
  inferInstanceAs (Decidable (∀ events ∈ pod.job.deleting?, ∀ r ∈ db.rowsOf pod.userId,
    ∃ tx ∈ events, tx.id = r.id))

namespace PipelineState

variable {π : Type} [DecidableEq π] {nenv : NormalizerEnv} {partitionOf : UUID → π}
  {s s' : PipelineState π} {l : PipelineLabel π} {labels : List (PipelineLabel π)}
  {tx : NormalizedTransaction} {id : UUID}

/-- An event with the id is in a partition, and no consumer has passed it. A consumer that crashes
goes back to the committed offset, so what is pending stays so. -/
def Pending (s : PipelineState π) (id : UUID) : Prop :=
  ∃ p i tx, s.topic.position p ≤ i ∧ (s.topic.log p)[i]? = some (some tx) ∧ tx.id = id

/-- A job has to publish an event with the id, or has enqueued it. -/
def Owed (s : PipelineState π) (id : UUID) : Prop :=
  ∃ pod ∈ s.pods, ∃ tx ∈ pod.job.owed ++ pod.queue, tx.id = id

/-- The id is in the table, or on the way back to it: pending in the topic, or owed by a job. -/
def Secured (s : PipelineState π) (id : UUID) : Prop :=
  s.topic.store.Stored id ∨ s.Pending id ∨ s.Owed id

/-- The conditions on a step: those of the service; the account of a message is there when its unit
of work runs; a job deletes what it has read, does not raise while it owes an event, and neither
dies nor loses a delivery while its producer holds one. -/
def Reliable (s : PipelineState π) : PipelineLabel π → Prop
  | .service l => s.service.Reliable l
  | .consumer l => AccountThere s.topic l
  | .pod i => ∀ pod ∈ s.pods[i]?, pod.DeletesRead s.topic.store
  | .podRaises i => ∀ pod ∈ s.pods[i]?, pod.job.owed.isEmpty
  | .podDies i => ∀ pod ∈ s.pods[i]?, (pod.job.owed ++ pod.queue).isEmpty
  | .podDeliveryFails i => ∀ pod ∈ s.pods[i]?, pod.queue.isEmpty
  | .startPod _ | .podAcknowledge _ => True

instance (l : Label π NormalizedMessage PipelineEnv) : Decidable (AccountThere s.topic l) :=
  match l with
  | .handle p env =>
    decidable_of_iff (∀ msg ∈ (s.topic.log p)[s.topic.position p]?, ∀ tx ∈ msg,
        (getById env tx.accountId).toOption.isSome) <| by
      refine ⟨fun h tx hm => ?_, fun h msg hm tx htx => ?_⟩
      · have hok := h (some tx) hm tx rfl
        rcases ha : getById env tx.accountId with e | account
        · rw [ha] at hok
          cases hok
        · exact ⟨account, rfl⟩
      · obtain rfl : msg = some tx := htx
        obtain ⟨account, ha⟩ := h tx hm
        rw [ha]
        rfl
  | .append _ _ | .commit _ _ | .rewind _ => .isTrue trivial

instance : DecidablePred s.Reliable
  | .service l => inferInstanceAs (Decidable (s.service.Reliable l))
  | .consumer l => inferInstanceAs (Decidable (AccountThere s.topic l))
  | .pod i => inferInstanceAs (Decidable (∀ pod ∈ s.pods[i]?, pod.DeletesRead s.topic.store))
  | .podRaises i => inferInstanceAs (Decidable (∀ pod ∈ s.pods[i]?, pod.job.owed.isEmpty))
  | .podDies i =>
    inferInstanceAs (Decidable (∀ pod ∈ s.pods[i]?, (pod.job.owed ++ pod.queue).isEmpty))
  | .podDeliveryFails i => inferInstanceAs (Decidable (∀ pod ∈ s.pods[i]?, pod.queue.isEmpty))
  | .startPod _ | .podAcknowledge _ => .isTrue trivial

/-- Every partition is read from where it is committed, and not past its end. It makes a message
that has just been appended one that no consumer has passed. -/
structure Positioned (s : PipelineState π) : Prop where
  behind : ∀ p, s.topic.committed p ≤ s.topic.position p
  bounded : ∀ p, s.topic.position p ≤ (s.topic.log p).length

/-! ### The consumers -/

/-- The log grows, nothing else changes: what is pending stays pending. -/
theorem Pending.publish (h : s.Pending id) (service : StagingState)
    (pods : List ReprocessPod) :
    Pending { s with service, pods, topic := s.publish partitionOf tx } id := by
  obtain ⟨p, i, tx', hle, hi, rfl⟩ := h
  exact ⟨p, i, tx', hle, log_append hi, rfl⟩

/-- The event that has reached the topic is pending. -/
theorem pending_publish (hb : s.Positioned) (service : StagingState) (pods : List ReprocessPod) :
    Pending { s with service, pods, topic := s.publish partitionOf tx } tx.id := by
  refine ⟨partitionOf tx.userId, (s.topic.log (partitionOf tx.userId)).length, tx, hb.bounded _,
    ?_, rfl⟩
  simp [PipelineState.publish]

theorem Positioned.publish (h : s.Positioned) (service : StagingState) (pods : List ReprocessPod) :
    Positioned { s with service, pods, topic := s.publish partitionOf tx } := by
  refine ⟨h.behind, fun p => le_trans (h.bounded p) ?_⟩
  by_cases hp : p = partitionOf tx.userId
  · subst hp
    simp [PipelineState.publish]
  · simp [PipelineState.publish, Function.update_of_ne hp]

/-- A message handled: its event is in the table, or none was there to store. What else was stored
stays so. -/
theorem Secured.handled (h : s.Secured id) {p : π} {db : Database}
    (hstored : s.topic.store.Stored id → db.Stored id)
    (hnext : ∀ tx, (s.topic.log p)[s.topic.position p]? = some (some tx) → db.Stored tx.id) :
    Secured { s with
      topic := { s.topic with
        store := db
        position := Function.update s.topic.position p (s.topic.position p + 1) } } id := by
  rcases h with h | ⟨q, i, tx, hle, hi, rfl⟩ | h
  · exact Or.inl (hstored h)
  · by_cases hq : q = p
    · subst hq
      rcases Nat.eq_or_lt_of_le hle with rfl | hlt
      · exact Or.inl (hnext tx hi)
      · exact Or.inr (Or.inl ⟨q, i, tx, by simpa using Nat.succ_le_of_lt hlt, hi, rfl⟩)
    · exact Or.inr (Or.inl ⟨q, i, tx, by simpa [Function.update_of_ne hq] using hle, hi, rfl⟩)
  · exact Or.inr (Or.inr h)

theorem Secured.rewind (h : s.Secured id) (hb : s.Positioned) (p : π) :
    Secured { s with topic := s.topic.rewind p } id := by
  rcases h with h | ⟨q, i, tx, hle, hi, rfl⟩ | h
  · exact Or.inl h
  · have hback : (s.topic.rewind p).position q ≤ s.topic.position q :=
      State.rewind_position_le hb.behind p q
    exact Or.inr (Or.inl ⟨q, i, tx, le_trans hback hle, hi, rfl⟩)
  · exact Or.inr (Or.inr h)

theorem Positioned.rewind (h : s.Positioned) (p : π) :
    Positioned { s with topic := s.topic.rewind p } :=
  ⟨State.committed_le_rewind h.behind p,
    fun q => le_trans (State.rewind_position_le h.behind p q) (h.bounded q)⟩

theorem Positioned.handled (h : s.Positioned) {p : π} {msg : NormalizedMessage} {db : Database}
    (hm : (s.topic.log p)[s.topic.position p]? = some msg) :
    Positioned { s with
      topic := { s.topic with
        store := db
        position := Function.update s.topic.position p (s.topic.position p + 1) } } := by
  refine ⟨fun q => le_trans (h.behind q) (position_le_update p q), fun q => ?_⟩
  by_cases hq : q = p
  · subst hq
    simpa using Nat.succ_le_of_lt (List.getElem?_eq_some_iff.mp hm).1
  · simpa [Function.update_of_ne hq] using h.bounded q

/-- **A step of the consumers** secures the event of the message it passes: a unit of work stores
it, and an offset is moved forward only past messages that are handled. -/
theorem Positioned.consume (hb : s.Positioned) {c : Label π NormalizedMessage PipelineEnv}
    {topic : State π NormalizedMessage Database} (hc : ∀ p msg, c ≠ .append p msg)
    (hC : AccountThere s.topic c) (hs : s.topic.step processMessage c = some topic) :
    Positioned { s with topic := topic } ∧
      ∀ id, s.Secured id → Secured { s with topic := topic } id := by
  obtain ⟨g', hmove⟩ : ∃ g', Move processMessage s.topic History.empty c topic g' :=
    ⟨_, step_cases (by rw [tracedStep, traced, hs]; rfl)⟩
  cases hmove with
  | append p msg => exact absurd rfl (hc p msg)
  | done p env msg db hm ho =>
    obtain ⟨tx, rfl, hrun⟩ := processMessage_done ho
    refine ⟨hb.handled hm, fun id h => h.handled (fun hst => ?_) fun tx' hm' => ?_⟩
    · rw [← consume_of_run hrun]
      exact consume_stored_mono hst
    · obtain rfl := Option.some.inj (Option.some.inj (hm.symm.trans hm'))
      exact stored_of_run hrun
  | skipped p env msg hm ho =>
    refine ⟨hb.handled hm, fun id h => h.handled (fun hst => hst) fun tx hm' => ?_⟩
    obtain rfl := Option.some.inj (hm.symm.trans hm')
    obtain hnone | ⟨tx', htx', hskips⟩ := processMessage_skipped ho
    · cases hnone
    · obtain rfl := Option.some.inj htx'
      obtain ⟨account, ha⟩ := hC tx hm
      exact absurd hskips (not_skips_run ha)
  | raised p env msg hm ho => exact ⟨hb.rewind p, fun id h => h.rewind hb p⟩
  | commit p offset hlow hhigh =>
    refine ⟨⟨fun q => ?_, hb.bounded⟩, fun id h => h⟩
    by_cases hq : q = p
    · subst hq
      simpa using hhigh
    · simpa [Function.update_of_ne hq] using hb.behind q
  | rewind p => exact ⟨hb.rewind p, fun id h => h.rewind hb p⟩

/-! ### The jobs -/

omit [DecidableEq π] in
/-- What a job owes after another one was put back. -/
theorem Owed.setPod (h : s.Owed id) {i : ℕ} {pod pod' : ReprocessPod} (hi : s.pods[i]? = some pod)
    (hkeep : ∀ tx ∈ pod.job.owed ++ pod.queue, tx.id = id →
      ∃ tx' ∈ pod'.job.owed ++ pod'.queue, tx'.id = id) :
    ∃ q ∈ s.pods.set i pod', ∃ tx ∈ q.job.owed ++ q.queue, tx.id = id := by
  obtain ⟨q, hq, tx, htx, rfl⟩ := h
  have hlt := (List.getElem?_eq_some_iff.mp hi).1
  obtain ⟨j, hj⟩ := List.mem_iff_getElem?.mp hq
  by_cases hij : i = j
  · subst hij
    obtain rfl := Option.some.inj (hi.symm.trans hj)
    exact ⟨pod', List.mem_iff_getElem?.mpr ⟨i, by simp [hlt]⟩, hkeep tx htx rfl⟩
  · exact ⟨q, List.mem_iff_getElem?.mpr ⟨j, by rw [List.getElem?_set_ne hij, hj]⟩, tx, htx, rfl⟩

/-- A statement of a job keeps what it owes and what is stored; what it deletes it owes, because it
has read it before. -/
theorem secured_of_jobStep {t t' : ReprocessState} {userId : UUID}
    (hdel : ReprocessPod.DeletesRead ⟨userId, t.job, t.queue⟩ t.db)
    (hs : t.jobStep userId = some t')
    (h : t.db.Stored id ∨ ∃ tx ∈ t.job.owed ++ t.queue, tx.id = id) :
    t'.db.Stored id ∨ ∃ tx ∈ t'.job.owed ++ t'.queue, tx.id = id := by
  cases ReprocessState.jobStep_cases hs with
  | delete ids events hj =>
    rcases h with hst | ⟨tx, htx, rfl⟩
    · by_cases hne : ∀ r ∈ t.db.transactions, r.id = id → r.userId ≠ userId
      · exact Or.inl (stored_deleteUser hst hne)
      · push Not at hne
        obtain ⟨r, hr, rfl, hu⟩ := hne
        have hevents : events ∈ t.job.deleting? := by
          rw [hj]
          rfl
        obtain ⟨tx, htx, hid⟩ := hdel events hevents r (Database.mem_rowsOf.mpr ⟨hr, hu⟩)
        exact Or.inr ⟨tx, List.mem_append_left _ htx, hid⟩
    · rw [hj] at htx
      exact Or.inr ⟨tx, List.mem_append_right _ htx, rfl⟩
  | enqueue ids published event remaining hj =>
    apply h.imp_right
    rintro ⟨tx, htx, rfl⟩
    refine ⟨tx, ?_, rfl⟩
    rw [hj] at htx
    simp only [JobState.owed, List.mem_append, List.mem_cons, List.not_mem_nil, or_false] at htx ⊢
    tauto
  | restored ids rows rest db hj hb hr =>
    rcases h with hst | ⟨tx, htx, rfl⟩
    · obtain ⟨r, hmem, hid⟩ := hst
      exact Or.inl ⟨r, (mem_restoreRows hr).1 r hmem, hid⟩
    · rw [hj] at htx
      exact Or.inr ⟨tx, htx, rfl⟩
  | unlocked hj | locked hj | advisoryLock hj | snapshot hj | read ids hj | backup rows hj
    | flush ids n hj | polled ids expected polls hj | caughtUp ids expected polls hj
    | timedOut ids expected polls hj | verified ids hj | missing ids hj | notRestored ids hj
    | released hj | releasedRestored hj =>
    rw [hj] at h
    exact h

omit [DecidableEq π] in
/-- A statement of a pod keeps an id secured. -/
theorem Secured.pod (h : s.Secured id) {i : ℕ} {pod : ReprocessPod} {t : ReprocessState}
    (hpod : s.pods[i]? = some pod) (hC : s.Reliable (.pod i))
    (ht : (s.view pod).jobStep pod.userId = some t) : (s.absorb i pod t).Secured id := by
  have hmove : s.topic.store.Stored id ∨ (∃ tx ∈ pod.job.owed ++ pod.queue, tx.id = id) →
      t.db.Stored id ∨ ∃ tx ∈ t.job.owed ++ t.queue, tx.id = id :=
    secured_of_jobStep (t := s.view pod) (hC pod hpod) ht
  have hlt := (List.getElem?_eq_some_iff.mp hpod).1
  have hnew : (∃ tx ∈ t.job.owed ++ t.queue, tx.id = id) → (s.absorb i pod t).Owed id :=
    fun howed => ⟨⟨pod.userId, t.job, t.queue⟩,
      List.mem_iff_getElem?.mpr ⟨i, by simp [absorb, hlt]⟩, howed⟩
  rcases h with h | h | ⟨q, hq, howed⟩
  · exact (hmove (Or.inl h)).imp_right fun h => Or.inr (hnew h)
  · exact Or.inr (Or.inl h)
  · obtain ⟨j, hj⟩ := List.mem_iff_getElem?.mp hq
    by_cases hij : i = j
    · subst hij
      obtain rfl := Option.some.inj (hpod.symm.trans hj)
      exact (hmove (Or.inr howed)).imp_right fun h => Or.inr (hnew h)
    · refine Or.inr (Or.inr ⟨q, List.mem_iff_getElem?.mpr ⟨j, ?_⟩, howed⟩)
      simp [absorb, List.getElem?_set_ne hij, hj]

/-- **One step keeps every id secured**, by the lemma of the part that moves. -/
theorem Positioned.step (hb : s.Positioned) (hC : s.Reliable l)
    (hs : s.step nenv partitionOf l = some s') :
    s'.Positioned ∧ ∀ id, s.Secured id → s'.Secured id := by
  cases l with
  | service l =>
    obtain ⟨service, -, rfl⟩ := Option.map_eq_some_iff.mp hs
    rcases s.sent l with _ | tx
    · exact ⟨⟨hb.behind, hb.bounded⟩, fun id h => h⟩
    · exact ⟨hb.publish service s.pods,
        fun id h => h.imp_right (Or.imp_left fun h => h.publish service s.pods)⟩
  | consumer c =>
    obtain ⟨topic, hc, htopic, rfl⟩ := consumer_cases hs
    exact hb.consume hc hC htopic
  | startPod userId =>
    obtain rfl := Option.some.inj hs
    refine ⟨⟨hb.behind, hb.bounded⟩, fun id h => h.imp_right (Or.imp_right ?_)⟩
    rintro ⟨pod, hpod, howed⟩
    exact ⟨pod, List.mem_append_left _ hpod, howed⟩
  | pod i =>
    obtain ⟨pod, hpod, hs⟩ := Option.bind_eq_some_iff.mp hs
    obtain ⟨t, ht, rfl⟩ := Option.map_eq_some_iff.mp hs
    exact ⟨⟨hb.behind, hb.bounded⟩, fun id h => h.pod hpod hC ht⟩
  -- a reliable pod raises or dies only with an empty producer queue
  | podRaises i =>
    obtain ⟨pod, hpod, hs⟩ := Option.bind_eq_some_iff.mp hs
    obtain ⟨job, -, rfl⟩ := Option.map_eq_some_iff.mp hs
    refine ⟨⟨hb.behind, hb.bounded⟩, fun id h =>
      h.imp_right (Or.imp_right fun h => h.setPod hpod fun tx htx hid => ?_)⟩
    rw [List.isEmpty_iff.mp (hC pod hpod)] at htx
    exact ⟨tx, List.mem_append_right _ htx, hid⟩
  | podDies i =>
    obtain rfl := Option.some.inj hs
    refine ⟨⟨hb.behind, hb.bounded⟩, fun id h => h.imp_right (Or.imp_right ?_)⟩
    rintro ⟨q, hq, tx, htx, rfl⟩
    refine ⟨q, ?_, tx, htx, rfl⟩
    obtain ⟨j, hj⟩ := List.mem_iff_getElem?.mp hq
    refine List.mem_eraseIdx_iff_getElem?.mpr ⟨j, fun hij => ?_, hj⟩
    subst hij
    rw [List.isEmpty_iff.mp (hC q hj)] at htx
    exact absurd htx List.not_mem_nil
  | podAcknowledge i =>
    obtain ⟨pod, hpod, hs⟩ := Option.bind_eq_some_iff.mp hs
    obtain ⟨event, hevent, rfl⟩ := Option.map_eq_some_iff.mp hs
    refine ⟨hb.publish s.service _, fun id h => ?_⟩
    rcases h with h | h | h
    · exact Or.inl h
    · exact Or.inr (Or.inl (h.publish s.service _))
    -- the acknowledged event is pending now; the pod still owes the rest of its queue
    by_cases hid : event.id = id
    · exact Or.inr (Or.inl (hid ▸ pending_publish hb s.service _))
    · refine Or.inr (Or.inr (h.setPod hpod fun tx htx htid => ⟨tx, ?_, htid⟩))
      obtain ⟨queue, hqueue⟩ := List.head?_eq_some_iff.mp hevent
      rw [hqueue] at htx ⊢
      simp only [List.mem_append, List.mem_cons, List.tail_cons] at htx ⊢
      rcases htx with htx | rfl | htx
      · exact Or.inl htx
      · exact absurd htid hid
      · exact Or.inr htx
  | podDeliveryFails i =>
    obtain ⟨pod, hpod, rfl⟩ := Option.map_eq_some_iff.mp hs
    refine ⟨⟨hb.behind, hb.bounded⟩, fun id h =>
      h.imp_right (Or.imp_right fun h => h.setPod hpod fun tx htx hid => ⟨tx, ?_, hid⟩)⟩
    rw [List.isEmpty_iff.mp (hC pod hpod)] at htx ⊢
    exact htx

/-! ## The run

The two halves are put together: the service passes events on, and what it passes on to is secured.
Both are kept by every reliable step. -/

/-- What the system keeps on the way, and the event that is on its way: the invariants of the
consumer and of the drains, read with the secured ids as what has left the service. -/
structure Carries (nenv : NormalizerEnv) (s : PipelineState π) : Prop where
  positioned : s.Positioned
  consuming : s.service.Consuming nenv fun tx => s.Secured tx.id
  draining : s.service.Draining fun tx => s.Secured tx.id

/-- The event is on its way, or in the table, or somewhere between the two. -/
def Carried (nenv : NormalizerEnv) (s : PipelineState π) (tx : NormalizedTransaction) : Prop :=
  s.service.OnItsWay nenv (fun tx => s.Secured tx.id) tx

omit [DecidableEq π] in
theorem carries_start : Carries nenv (start : PipelineState π) where
  positioned := ⟨fun _ => le_refl 0, fun _ => Nat.zero_le _⟩
  consuming := StagingState.consuming_of_polling rfl
  draining := ⟨fun _ h => absurd h List.not_mem_nil, fun _ h => absurd h List.not_mem_nil⟩

/-- A service that differs in the lock rows and the `NOTIFY`s only. -/
structure SameHands (s s' : StagingState) : Prop where
  raw : s'.raw = s.raw
  consumer : s'.consumer = s.consumer
  tasks : s'.tasks = s.tasks
  queue : s'.queue = s.queue
  staging : s'.staging = s.staging

theorem SameHands.refl (s : StagingState) : SameHands s s := ⟨rfl, rfl, rfl, rfl, rfl⟩

omit [DecidableEq π] in
theorem sameHands_releaseIf (userId : UUID) (released : Bool) :
    SameHands s.service (s.releaseIf userId released) := by
  rw [releaseIf]
  split
  · exact ⟨rfl, rfl, rfl, rfl, rfl⟩
  · exact .refl _

section Frame

variable {t t' : StagingState} {Out Out' : NormalizedTransaction → Prop}
  (hout : ∀ tx, Out tx → Out' tx) (h : SameHands t t')
include hout h

theorem SameHands.sent (hx : t.Sent Out tx) : t'.Sent Out' tx :=
  hx.imp (fun ⟨p, hp⟩ => ⟨p, h.queue ▸ hp⟩) (hout tx)

theorem SameHands.placed (hx : t.Placed Out tx) : t'.Placed Out' tx :=
  hx.imp (h.sent hout) fun ⟨r, hr, hp⟩ => ⟨r, h.staging ▸ hr, hp⟩

theorem SameHands.onItsWay (hx : t.OnItsWay nenv Out tx) : t'.OnItsWay nenv Out' tx :=
  hx.imp (fun ⟨msg, hm, hn⟩ => ⟨msg, h.raw ▸ hm, hn⟩) (h.placed hout)

theorem SameHands.consuming (hx : t.Consuming nenv Out) : t'.Consuming nenv Out' :=
  hx.of_frame (fun _ => h.placed hout) h.consumer fun hne => ⟨h.raw ▸ hne, by rw [h.raw]⟩

theorem SameHands.draining (hx : t.Draining Out) : t'.Draining Out' :=
  hx.of_frame (fun _ => h.sent hout) (fun _ ht => Or.inl (h.tasks ▸ ht)) fun _ hq =>
    h.staging ▸ hq

end Frame

/-- A step of the jobs or of the consumers leaves what the service has in its hands; only the lock
rows and their `NOTIFY`s may differ. -/
theorem sameHands_step (hs : s.step nenv partitionOf l = some s') (hl : ∀ l', l ≠ .service l') :
    SameHands s.service s'.service := by
  cases l with
  | service l' => exact absurd rfl (hl l')
  | consumer c =>
    obtain ⟨topic, -, -, rfl⟩ := consumer_cases hs
    exact .refl _
  | startPod userId =>
    obtain rfl := Option.some.inj hs
    exact .refl _
  | pod i =>
    obtain ⟨pod, -, hs⟩ := Option.bind_eq_some_iff.mp hs
    obtain ⟨t, -, rfl⟩ := Option.map_eq_some_iff.mp hs
    exact sameHands_releaseIf pod.userId _
  | podRaises i =>
    obtain ⟨pod, -, hs⟩ := Option.bind_eq_some_iff.mp hs
    obtain ⟨job, -, rfl⟩ := Option.map_eq_some_iff.mp hs
    exact .refl _
  | podDies i =>
    obtain rfl := Option.some.inj hs
    exact .refl _
  | podAcknowledge i =>
    obtain ⟨pod, -, hs⟩ := Option.bind_eq_some_iff.mp hs
    obtain ⟨event, -, rfl⟩ := Option.map_eq_some_iff.mp hs
    exact .refl _
  | podDeliveryFails i =>
    obtain ⟨pod, -, rfl⟩ := Option.map_eq_some_iff.mp hs
    exact .refl _

/-- An event the service is acknowledged is pending in the topic. -/
theorem secured_of_acknowledge (hb : s.Positioned) {p : ServiceProducer} {i : ℕ}
    (hq : (s.service.queue p)[i]? = some tx)
    (hs : s.step nenv partitionOf (.service (.acknowledge p i)) = some s') :
    s'.Secured tx.id := by
  obtain ⟨service, -, rfl⟩ := Option.map_eq_some_iff.mp hs
  have hsent : s.sent (.acknowledge p i) = some tx := hq
  rw [hsent]
  exact Or.inr (Or.inl (pending_publish hb service s.pods))

/-- **One step carries every event on**: the invariants hold afterwards, and every event that was on
its way still is, or has got further. -/
theorem Carries.step (h : s.Carries nenv) (hC : s.Reliable l)
    (hs : s.step nenv partitionOf l = some s') :
    s'.Carries nenv ∧ ∀ tx, s.Carried nenv tx → s'.Carried nenv tx := by
  obtain ⟨hb, hsecured⟩ := h.positioned.step hC hs
  have hout : ∀ tx : NormalizedTransaction, s.Secured tx.id → s'.Secured tx.id :=
    fun tx => hsecured tx.id
  by_cases hl : ∃ l', l = .service l'
  · obtain ⟨l', rfl⟩ := hl
    have hack : ∀ p i, l' = .acknowledge p i → ∀ tx, (s.service.queue p)[i]? = some tx →
        s'.Secured tx.id := by
      rintro p i rfl tx hq
      exact secured_of_acknowledge h.positioned hq hs
    obtain ⟨service, hservice, rfl⟩ := Option.map_eq_some_iff.mp hs
    exact ⟨⟨hb, h.consuming.step hout hack hC hservice h.draining,
        h.draining.step hout hack hC hservice⟩,
      fun tx hx => hx.step hout hack hC hservice h.consuming h.draining⟩
  · have hsame : SameHands s.service s'.service := sameHands_step hs fun l' hl' => hl ⟨l', hl'⟩
    exact ⟨⟨hb, hsame.consuming hout h.consuming, hsame.draining hout h.draining⟩,
      fun tx hx => hsame.onItsWay hout hx⟩

/-- The events that have arrived by the end of a run are on their way, or in the table. -/
theorem carried_of_exec (hC : Along (step nenv partitionOf) Reliable start labels)
    (h : exec (step nenv partitionOf) start labels = some s) (htx : Arrives nenv labels tx) :
    s.Carried nenv tx := by
  obtain ⟨msg, hmem, hn⟩ := htx
  obtain ⟨before, after, rfl⟩ := List.append_of_mem hmem
  rw [exec_append] at h
  obtain ⟨s₁, hs₁, h⟩ := Option.bind_eq_some_iff.mp h
  obtain ⟨s₂, hs₂, h⟩ := exec_cons_eq_some h
  obtain ⟨hC₁, hC₂⟩ := (along_append hs₁).mp hC
  have hcarries₁ : s₁.Carries nenv :=
    exec_invariant_along (fun _ _ _ h hC hs => (Carries.step h hC hs).1) carries_start hC₁ hs₁
  have hcarries₂ : s₂.Carries nenv := (hcarries₁.step hC₂.1 hs₂).1
  have harrived : s₂.Carried nenv tx := by
    obtain rfl := Option.some.inj hs₂
    exact Or.inl ⟨msg, by simp, hn⟩
  exact (exec_invariant_along (I := fun s => Carries nenv s ∧ s.Carried nenv tx)
    (fun _ _ _ h hC hs => ⟨(h.1.step hC hs).1, (h.1.step hC hs).2 tx h.2⟩)
    ⟨hcarries₂, harrived⟩ (hC₂.2 s₂ hs₂) h).2

/-- Nothing is on its way: the messages are committed, the queues and the staging table empty, the
jobs owe nothing and the consumers have passed every message. What is left to look at is the
table. -/
structure AtRest (s : PipelineState π) : Prop where
  raw : s.service.raw = []
  queue : ∀ p, s.service.queue p = []
  staging : s.service.staging.rows = []
  pods : ∀ pod ∈ s.pods, pod.job.owed = [] ∧ pod.queue = []
  passed : ∀ p, s.topic.position p = (s.topic.log p).length

omit [DecidableEq π] in
theorem AtRest.stored (h : s.AtRest) (hx : s.Carried nenv tx) : s.topic.store.Stored tx.id := by
  rcases hx with ⟨msg, hmsg, -⟩ | (⟨p, hp⟩ | hst | ⟨p, i, tx', hle, hi, -⟩ | howed) | ⟨r, hr, -⟩
  · exact absurd (h.raw ▸ hmsg) List.not_mem_nil
  · exact absurd (h.queue p ▸ hp) List.not_mem_nil
  · exact hst
  · have hlt := (List.getElem?_eq_some_iff.mp hi).1
    have hpassed := h.passed p
    omega
  · obtain ⟨pod, hpod, tx', htx', -⟩ := howed
    obtain ⟨howed, hqueue⟩ := h.pods pod hpod
    simp [howed, hqueue] at htx'
  · rw [KeyedTable.mem_def, h.staging] at hr
    exact absurd hr List.not_mem_nil

/-- **Nothing is lost, nothing is made up**: where no step of a run loses an event, and the run has
come to rest, the ids in `transactions` are those of the events that have arrived, whatever was
staged behind a lock, replayed by a job, delivered twice or restored in between. From left to right
this is the origin of the rows, from right to left the event carried through. -/
theorem stored_iff_arrived (hC : Along (step nenv partitionOf) Reliable start labels)
    (h : exec (step nenv partitionOf) start labels = some s) (hrest : s.AtRest) :
    s.topic.store.Stored id ↔ ∃ tx, Arrives nenv labels tx ∧ tx.id = id := by
  refine ⟨?_, ?_⟩
  · rintro ⟨r, hr, rfl⟩
    obtain ⟨tx, htx, hread⟩ := (traceable_of_exec h).rows r hr
    exact ⟨tx, htx, (congrArg NormalizedTransaction.id hread.event).symm⟩
  · rintro ⟨tx, htx, rfl⟩
    exact hrest.stored (carried_of_exec hC h htx)

/-- One event goes through and is replayed, another one is staged and drained. -/
theorem stored_iff_arrived_replayed :
    ∃ s, exec (step sampleNormalizer fun _ => ()) start replayedRun = some s ∧
      ∀ id, s.topic.store.Stored id ↔
        ∃ tx, Arrives sampleNormalizer replayedRun tx ∧ tx.id = id := by
  have hreliable : Along (step sampleNormalizer fun _ => ()) Reliable start replayedRun := by decide
  refine ⟨_, rfl, fun id => stored_iff_arrived hreliable rfl ?_⟩
  refine ⟨rfl, fun p => ?_, rfl, fun pod hpod => ?_, fun _ => rfl⟩
  · cases p <;> rfl
  · obtain rfl := List.mem_singleton.mp hpod
    exact ⟨rfl, rfl⟩

end PipelineState

end Grosh
