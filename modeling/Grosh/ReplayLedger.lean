import Grosh.ReprocessLoss

/-!
# Which messages are the job's

The partition of a user holds what the reprocess job has published beside what was there before and
what other producers send. A message does not say which of them it is, so the system is run beside
a history variable that does (`Ledger`).

The job and the consumer share nothing but the topic and the tables. That the consumer processes the
events of the job in the order in which they were read is what the ledger is kept for; the system
never reads it.

* `pending` — the events of the job that the consumer may still process;
* `pending_sublist` — once the job has read them, no step adds to them or changes their order.
-/

namespace Grosh

open Transition

/-- The event the next statement of the job produces: the first of those it still has, while it
publishes. -/
def JobState.produces : JobState → List NormalizedTransaction
  | .publish _ _ (event :: _) => [event]
  | _ => []

/-- Each message on its way, with whether the job has produced it. Nothing in the system reads it:
it only watches. -/
structure Ledger : Type where
  queue : List (NormalizedTransaction × Bool)
  topic : List (NormalizedTransaction × Bool)

/-- What is on its way when the job starts is not the job's, though it may be of the same user. -/
def Ledger.start (s : ReprocessState) : Ledger where
  queue := s.queue.map fun tx => (tx, false)
  topic := s.topic.map fun tx => (tx, false)

/-- The messages are recorded as they move: from the producer's queue to the partition, and out of
it with the offset. -/
def Ledger.record (s : ReprocessState) (g : Ledger) : ReprocessLabel → Ledger
  | .job => { g with queue := g.queue ++ s.job.produces.map fun tx => (tx, true) }
  | .acknowledge => ⟨g.queue.tail, g.topic ++ g.queue.take 1⟩
  | .deliveryFails => { g with queue := g.queue.tail }
  | .arrive tx => { g with topic := g.topic ++ [(tx, false)] }
  | .commitOffset => { g with topic := g.topic.tail }
  | .raises => g
  | .enrich _ => g
  | .restart => g

/-- The events of the job among the messages, in their order. -/
def ownEvents (messages : List (NormalizedTransaction × Bool)) : List NormalizedTransaction :=
  (messages.filter fun m => m.2).map Prod.fst

section ownEvents

variable {messages messages' : List (NormalizedTransaction × Bool)}
  {events : List NormalizedTransaction} {tx : NormalizedTransaction}

@[simp] theorem ownEvents_append :
    ownEvents (messages ++ messages') = ownEvents messages ++ ownEvents messages' := by
  simp only [ownEvents, List.filter_append, List.map_append]

@[simp] theorem ownEvents_own : ownEvents (events.map fun tx => (tx, true)) = events := by
  induction events with
  | nil => rfl
  | cons tx events ih => exact congrArg (tx :: ·) ih

@[simp] theorem ownEvents_other : ownEvents (events.map fun tx => (tx, false)) = [] := by
  induction events with
  | nil => rfl
  | cons tx events ih => exact ih

theorem ownEvents_tail : (ownEvents messages.tail).Sublist (ownEvents messages) :=
  ((List.tail_sublist messages).filter _).map _

theorem ownEvents_head_tail :
    ownEvents (messages.take 1) ++ ownEvents messages.tail = ownEvents messages := by
  cases messages with
  | nil => rfl
  | cons m messages => exact ownEvents_append.symm

end ownEvents

/-- The events of the job that are on their way, in the order the consumer will see them. -/
def Ledger.sent (g : Ledger) : List NormalizedTransaction := ownEvents g.topic ++ ownEvents g.queue

theorem Ledger.sent_start (s : ReprocessState) : (Ledger.start s).sent = [] := by
  simp only [sent, start, ownEvents_other, List.append_nil]

theorem Ledger.sent_record_job {s : ReprocessState} {g : Ledger} :
    (record s g .job).sent = g.sent ++ s.job.produces := by
  simp only [sent, record, ownEvents_append, ownEvents_own, List.append_assoc]

/-- Only the job sends events of the job: every other step leaves them or takes them away. -/
theorem Ledger.sent_record_sublist {s : ReprocessState} {g : Ledger} {l : ReprocessLabel}
    (hl : l ≠ .job) : (record s g l).sent.Sublist g.sent := by
  cases l with
  | job => exact absurd rfl hl
  | acknowledge =>
    -- the oldest message of the queue becomes the newest of the partition
    simp only [sent, record, ownEvents_append, List.append_assoc, ownEvents_head_tail]
    exact .refl _
  | deliveryFails => exact ownEvents_tail.append_left _
  | arrive tx =>
    simp only [sent, record, ownEvents_append]
    exact (List.append_nil _).symm ▸ .refl _
  | commitOffset => exact ownEvents_tail.append_right _
  | _ => exact .refl _

namespace ReprocessState

variable {accounts : List AccountProps} {userId : UUID} {s s' : ReprocessState} {g g' : Ledger}
  {l : ReprocessLabel}

/-! ## The system beside its ledger

A step of the system is a step beside the ledger, and the other way round, so that what is shown
with the ledger holds without it. -/

/-- One step, recorded: the ledger follows the state and never holds it back. -/
def ledgerStep (accounts : List AccountProps) (userId : UUID) :
    ReprocessState × Ledger → ReprocessLabel → Option (ReprocessState × Ledger) :=
  traced (step accounts userId) Ledger.record

/-- The ledger lists the messages of the state: without their marks they are the same lists. -/
structure Aligned (s : ReprocessState) (g : Ledger) : Prop where
  queue : g.queue.map Prod.fst = s.queue
  topic : g.topic.map Prod.fst = s.topic

theorem aligned_start : Aligned s (Ledger.start s) := by
  refine ⟨?_, ?_⟩
  · simp only [Ledger.start, List.map_map, Function.comp_def, List.map_id']
  · simp only [Ledger.start, List.map_map, Function.comp_def, List.map_id']

/-- What a statement of the job produces comes to the end of its queue, and the topic is not
touched. -/
theorem JobMove.queue_eq (hm : JobMove userId s s') :
    s'.queue = s.queue ++ s.job.produces ∧ s'.topic = s.topic := by
  cases hm with
  | _ =>
    refine ⟨?_, rfl⟩
    rw [‹s.job = _›]
    first
      | rfl
      | exact (List.append_nil _).symm

theorem Aligned.step (h : Aligned s g) (hs : step accounts userId s l = some s') :
    Aligned s' (Ledger.record s g l) := by
  obtain ⟨rfl, hm⟩ | hm := step_cases hs
  · obtain ⟨hq, ht⟩ := hm.queue_eq
    refine ⟨?_, h.topic.trans ht.symm⟩
    rw [hq, ← h.queue]
    simp only [Ledger.record, List.map_append, List.map_map, Function.comp_def, List.map_id']
  cases hm with
  | acknowledge event queue hq =>
    have hqueue := h.queue.trans hq
    refine ⟨?_, ?_⟩
    · simp only [Ledger.record, List.map_tail, hqueue, List.tail_cons]
    · simp only [Ledger.record, List.map_append, List.map_take, h.topic, hqueue,
        List.take_succ_cons, List.take_zero]
  | deliveryFails event queue hq =>
    refine ⟨?_, h.topic⟩
    simp only [Ledger.record, List.map_tail, h.queue.trans hq, List.tail_cons]
  | arrive tx =>
    refine ⟨h.queue, ?_⟩
    simp only [Ledger.record, List.map_append, h.topic, List.map_cons, List.map_nil]
  | commitOffset tx topic hp ht =>
    refine ⟨h.queue, ?_⟩
    simp only [Ledger.record, List.map_tail, h.topic.trans ht, List.tail_cons]
  | _ => exact ⟨h.queue, h.topic⟩

/-! ## What is still to come

The events of a job form one sequence, from the head of the partition back to what the job has not
produced yet. Steps only ever shorten it. -/

/-- A statement of the job produces the next of the events it has read, and keeps the others in
their order. -/
theorem JobMove.unpublished_eq (hm : JobMove userId s s') (hj : ∀ ids, s.job ≠ .read ids) :
    s.job.unpublished = s.job.produces ++ s'.job.unpublished := by
  cases hm with
  | read ids hread => exact absurd hread (hj ids)
  | polled ids expected polls hcatch =>
    rw [hcatch]
    rfl
  | _ =>
    rw [‹s.job = _›]
    rfl

/-- The events of the job that the consumer may still process, in the order it will: those in the
partition, those in the producer's queue and those not produced yet. -/
def pending (s : ReprocessState) (g : Ledger) : List NormalizedTransaction :=
  g.sent ++ s.job.unpublished

/-- **No step adds to the events of the job or changes their order**, once it has read them. -/
theorem pending_sublist (hs : step accounts userId s l = some s')
    (hj : ∀ ids, s.job ≠ .read ids) :
    (pending s' (Ledger.record s g l)).Sublist (pending s g) := by
  obtain ⟨rfl, hm⟩ | hm := step_cases hs
  · simp only [pending, Ledger.sent_record_job, hm.unpublished_eq hj, List.append_assoc]
    exact .refl _
  have hl : l ≠ .job := by
    rintro rfl
    cases hm
  have hsent : (Ledger.record s g l).sent.Sublist g.sent := Ledger.sent_record_sublist hl
  cases hm with
  | raises j hraise =>
    -- what has not been produced is given up
    have hnil : j.unpublished = [] := by
      obtain ⟨ids, -, rfl⟩ | ⟨b, rfl⟩ := JobState.raise_cases hraise
      · rfl
      · rfl
    simp only [pending, hnil]
    exact hsent.append (List.nil_sublist _)
  | _ => exact hsent.append_right _

/-- The event at the head of the partition is the next of the job, if it is the job's at all. -/
theorem pending_eq_cons {tx : NormalizedTransaction} {rest : List (NormalizedTransaction × Bool)}
    (ht : g.topic = (tx, true) :: rest) :
    ∃ events, g.sent = tx :: events ∧ pending s g = tx :: (events ++ s.job.unpublished) := by
  refine ⟨ownEvents rest ++ ownEvents g.queue, ?_, ?_⟩
  · rw [Ledger.sent, ht]
    rfl
  · rw [pending, Ledger.sent, ht]
    rfl

end ReprocessState

end Grosh
