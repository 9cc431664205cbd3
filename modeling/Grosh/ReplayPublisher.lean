import Grosh.Normalization

/-!
# Publishing replayed events

`_publish_normalized_events` hands the events of a user to the Kafka client one after another.
The client puts them into a local queue, and `produce` raises `BufferError` where that is full;
all three publishers of the service mean to flush the queue then and to produce once more. The
consumer and the drain catch `BufferError`. The replay catches `KafkaException`, which a full
queue does not raise.

* `produceRetrying_of_catches` — a publisher that catches `BufferError` hands its record over;
* `publishEvents_of_escapes` — otherwise the events before the first full queue are handed over,
  and `BufferError` is raised;
* `publishNormalizedEvents_iff` — the replay hands over every event exactly if it never finds the
  queue full.
-/

namespace Grosh

/-! ## The client

The Kafka client is a state that takes records into a queue of limited size. All that is assumed of
it is documented: a full queue is refused with `BufferError`, and a flush makes room. -/

/-- The topics the services produce to. -/
inductive Topic : Type where
  | rawTransactionsMonobank
  | rawTransactionsManual
  | normalizedTransactions
  deriving DecidableEq

/-- What is handed to `Producer.produce`: where to, under which key, and the bytes. -/
structure ProducerRecord : Type where
  topic : Topic
  key : List UInt8
  value : List UInt8
  deriving DecidableEq

/-- What `Producer.produce` can raise. The two exceptions have no ancestor in common but
`Exception`. -/
inductive ProduceError : Type where
  /-- the local queue is full -/
  | bufferError
  | kafkaException
  deriving DecidableEq

/-- A producer of the Kafka client whose only trouble is a full queue. Its state holds whatever
decides when that is: the limits, what else is produced, how fast the broker takes messages. -/
structure ProducerClient (σ : Type) : Type where
  produce : σ → ProducerRecord → Except ProduceError Unit × σ
  flush : σ → σ
  poll : σ → σ
  /-- the local queue is full -/
  full : σ → Bool
  /-- the records handed over so far -/
  handed : σ → List ProducerRecord
  produce_full : ∀ s record, full s = true →
    (produce s record).1 = .error .bufferError ∧ handed (produce s record).2 = handed s
  produce_room : ∀ s record, full s = false →
    (produce s record).1 = .ok () ∧ handed (produce s record).2 = handed s ++ [record]
  full_flush : ∀ s, full (flush s) = false
  handed_flush : ∀ s, handed (flush s) = handed s
  handed_poll : ∀ s, handed (poll s) = handed s

/-- The bytes of a record: `str(user_id).encode()` and `model_dump_json().encode()`. -/
structure EventEncoding : Type where
  userKey : UUID → List UInt8
  modelDumpJson : NormalizedTransaction → List UInt8

/-- The record of an event: its key is the user, so that the events of one user keep their order. -/
def EventEncoding.record (enc : EventEncoding) (event : NormalizedTransaction) : ProducerRecord :=
  ⟨.normalizedTransactions, enc.userKey event.userId, enc.modelDumpJson event⟩

/-! ## The publishers

Three publishers of the service share one shape, a `produce` that is tried once more after a flush.
They differ in which exception they expect. -/

variable {σ : Type}

/-- A `produce` that is tried once more after a flush, if the exception is caught. -/
def produceRetrying (client : ProducerClient σ) (catches : ProduceError → Bool)
    (record : ProducerRecord) (s : σ) : Except ProduceError Unit × σ :=
  match client.produce s record with
  | (.ok (), s) => (.ok (), client.poll s)
  | (.error e, s) =>
    if catches e then
      match client.produce (client.flush s) record with
      | (.ok (), s) => (.ok (), client.poll s)
      | (.error e, s) => (.error e, s)
    else (.error e, s)

/-- `except BufferError`: what a full queue raises. -/
def catchesBufferError (e : ProduceError) : Bool := decide (e = .bufferError)

/-- `except KafkaException`; `BufferError` is not a subclass, so that a full queue gets past it. -/
def catchesKafkaException (e : ProduceError) : Bool := decide (e = .kafkaException)

/-- `StagingDrainService._publish`, for an event that has been staged. -/
def drainPublish (client : ProducerClient σ) (enc : EventEncoding)
    (normalized : NormalizedTransaction) (s : σ) : Except ProduceError Unit × σ :=
  produceRetrying client catchesBufferError (enc.record normalized) s

/-- `_produce` of the normalization consumer, for an event that need not be staged. -/
def consumerProduce (client : ProducerClient σ) (enc : EventEncoding)
    (normalized : NormalizedTransaction) (s : σ) : Except ProduceError Unit × σ :=
  produceRetrying client catchesBufferError (enc.record normalized) s

/-- The events of a list, one after another, until one of them raises. -/
def publishEvents (client : ProducerClient σ) (enc : EventEncoding)
    (catches : ProduceError → Bool) : List NormalizedTransaction → σ →
      Except ProduceError Unit × σ
  | [], s => (.ok (), s)
  | event :: events, s =>
    match produceRetrying client catches (enc.record event) s with
    | (.ok (), s) => publishEvents client enc catches events s
    | (.error e, s) => (.error e, s)

/-- `ReprocessOrchestrator._publish_normalized_events`; the user is not read. -/
def publishNormalizedEvents (client : ProducerClient σ) (enc : EventEncoding) (_userId : UUID)
    (events : List NormalizedTransaction) (s : σ) : Except ProduceError ℕ × σ :=
  match publishEvents client enc catchesKafkaException events s with
  | (.ok (), s) => (.ok events.length, client.flush s)
  | (.error e, s) => (.error e, s)

/-! ## One event

What becomes of a single record, with room and without. -/

variable {client : ProducerClient σ} {enc : EventEncoding} {catches : ProduceError → Bool}
  {record : ProducerRecord} {events : List NormalizedTransaction} {s : σ}

/-- The state after a record that finds room and the `poll` that follows. -/
def ProducerClient.next (client : ProducerClient σ) (s : σ) (record : ProducerRecord) : σ :=
  client.poll (client.produce s record).2

theorem ProducerClient.handed_next (hroom : client.full s = false) :
    client.handed (client.next s record) = client.handed s ++ [record] := by
  rw [ProducerClient.next, client.handed_poll, (client.produce_room s record hroom).2]

/-- A call that finds room succeeds, and has handed the record over. -/
theorem ProducerClient.produce_of_room (hroom : client.full s = false) :
    ∃ s', client.produce s record = (.ok (), s') :=
  ⟨_, Prod.ext (client.produce_room s record hroom).1 rfl⟩

/-- A call that finds the queue full raises, and has handed nothing over. -/
theorem ProducerClient.produce_of_full (hfull : client.full s = true) :
    ∃ s', client.produce s record = (.error .bufferError, s') :=
  ⟨_, Prod.ext (client.produce_full s record hfull).1 rfl⟩

theorem produceRetrying_of_room (hroom : client.full s = false) :
    produceRetrying client catches record s = (.ok (), client.next s record) := by
  obtain ⟨s', hproduce⟩ : ∃ s', client.produce s record = (.ok (), s') :=
    ProducerClient.produce_of_room hroom
  rw [produceRetrying, ProducerClient.next, hproduce]

/-- A full queue that is caught is flushed, and then there is room: the second try succeeds. -/
theorem produceRetrying_of_full (hcatches : catches .bufferError = true)
    (hfull : client.full s = true) :
    produceRetrying client catches record s =
      (.ok (), client.next (client.flush (client.produce s record).2) record) := by
  obtain ⟨s', hproduce⟩ : ∃ s', client.produce s record = (.error .bufferError, s') :=
    ProducerClient.produce_of_full hfull
  rw [produceRetrying, hproduce]
  simp only [hcatches, if_true]
  have hok := (client.produce_room (client.flush s') record (client.full_flush s')).1
  rw [ProducerClient.next]
  rcases hagain : client.produce (client.flush s') record with ⟨result, s''⟩
  rw [hagain] at hok
  obtain rfl := hok
  rfl

/-- **A publisher that catches `BufferError`** hands its record over, whether the queue is full or
not. -/
theorem produceRetrying_of_catches (hcatches : catches .bufferError = true) :
    ∃ s', produceRetrying client catches record s = (.ok (), s') ∧
      client.handed s' = client.handed s ++ [record] := by
  rcases hfull : client.full s with _ | _
  · exact ⟨_, produceRetrying_of_room hfull, ProducerClient.handed_next hfull⟩
  · refine ⟨_, produceRetrying_of_full hcatches hfull, ?_⟩
    rw [ProducerClient.handed_next (client.full_flush _), client.handed_flush,
      (client.produce_full s _ hfull).2]

theorem drainPublish_hands (normalized : NormalizedTransaction) :
    ∃ s', drainPublish client enc normalized s = (.ok (), s') ∧
      client.handed s' = client.handed s ++ [enc.record normalized] :=
  produceRetrying_of_catches rfl

theorem consumerProduce_hands (normalized : NormalizedTransaction) :
    ∃ s', consumerProduce client enc normalized s = (.ok (), s') ∧
      client.handed s' = client.handed s ++ [enc.record normalized] :=
  produceRetrying_of_catches rfl

/-- A full queue that is not caught is raised, with the record not handed over. -/
theorem produceRetrying_of_escapes (hcatches : catches .bufferError = false)
    (hfull : client.full s = true) :
    produceRetrying client catches record s =
      (.error .bufferError, (client.produce s record).2) := by
  obtain ⟨s', hproduce⟩ : ∃ s', client.produce s record = (.error .bufferError, s') :=
    ProducerClient.produce_of_full hfull
  rw [produceRetrying, hproduce]
  simp only [hcatches, Bool.false_eq_true, if_false]

/-! ## A list of events

By induction on the list: a publisher gets to its end, or it stops at the first event that finds the
queue full. -/

/-- Every event is handed over, once and in order, after what was handed over before. -/
def HandsOver (client : ProducerClient σ) (enc : EventEncoding)
    (events : List NormalizedTransaction) (s s' : σ) : Prop :=
  client.handed s' = client.handed s ++ events.map enc.record

theorem HandsOver.cons {event : NormalizedTransaction} {s₁ s' : σ}
    (hone : client.handed s₁ = client.handed s ++ [enc.record event])
    (h : HandsOver client enc events s₁ s') : HandsOver client enc (event :: events) s s' := by
  rw [HandsOver, h, hone, List.append_assoc]
  rfl

/-- Its loop would hand over every event, however often the queue is full. -/
theorem publishEvents_of_catches (hcatches : catches .bufferError = true) :
    ∃ s', publishEvents client enc catches events s = (.ok (), s') ∧
      HandsOver client enc events s s' := by
  induction events generalizing s with
  | nil => exact ⟨s, rfl, (List.append_nil _).symm⟩
  | cons event events ih =>
    obtain ⟨s₁, hs₁, hone⟩ : ∃ s₁, produceRetrying client catches (enc.record event) s =
        (.ok (), s₁) ∧ client.handed s₁ = client.handed s ++ [enc.record event] :=
      produceRetrying_of_catches hcatches
    obtain ⟨s', hs', hhands⟩ := ih (s := s₁)
    rw [publishEvents, hs₁]
    exact ⟨s', hs', hhands.cons hone⟩

/-- No event finds the queue full, given that those before it have been handed over. -/
def NeverFull (client : ProducerClient σ) (enc : EventEncoding) :
    List NormalizedTransaction → σ → Prop
  | [], _ => True
  | event :: events, s =>
    client.full s = false ∧ NeverFull client enc events (client.next s (enc.record event))

/-- Without a full queue nothing is retried, and it does not matter which exception is caught. -/
theorem publishEvents_of_neverFull (h : NeverFull client enc events s) :
    ∃ s', publishEvents client enc catches events s = (.ok (), s') ∧
      HandsOver client enc events s s' := by
  induction events generalizing s with
  | nil => exact ⟨s, rfl, (List.append_nil _).symm⟩
  | cons event events ih =>
    obtain ⟨hroom, hrest⟩ := h
    obtain ⟨s', hs', hhands⟩ := ih hrest
    rw [publishEvents, produceRetrying_of_room hroom]
    exact ⟨s', hs', hhands.cons (ProducerClient.handed_next hroom)⟩

/-- **A publisher that lets `BufferError` escape** stops at the first full queue: only the events
before it are handed over. -/
theorem publishEvents_of_escapes (hcatches : catches .bufferError = false)
    (h : ¬ NeverFull client enc events s) :
    ∃ n < events.length, ∃ s', publishEvents client enc catches events s =
      (.error .bufferError, s') ∧ HandsOver client enc (events.take n) s s' := by
  induction events generalizing s with
  | nil => exact absurd trivial h
  | cons event events ih =>
    rw [publishEvents]
    rcases hfull : client.full s with _ | _
    · have hrest : ¬ NeverFull client enc events (client.next s (enc.record event)) :=
        fun hnever => h ⟨hfull, hnever⟩
      obtain ⟨n, hn, s', hs', hhands⟩ := ih hrest
      rw [produceRetrying_of_room hfull]
      exact ⟨n + 1, Nat.succ_lt_succ hn, s', hs',
        hhands.cons (ProducerClient.handed_next hfull)⟩
    · rw [produceRetrying_of_escapes hcatches hfull]
      refine ⟨0, Nat.succ_pos _, _, rfl, ?_⟩
      rw [HandsOver, (client.produce_full s _ hfull).2]
      exact (List.append_nil _).symm

/-! ## The replay

The publisher of the replay expects the exception that a full queue does not raise. -/

/-- **The replay publisher** returns with every row's event handed over, once and in order,
exactly if no event finds the queue full. -/
theorem publishNormalizedEvents_iff (client : ProducerClient σ) (enc : EventEncoding)
    (userId : UUID) (rows : List TransactionRow) (s : σ) :
    (∃ s', publishNormalizedEvents client enc userId (rows.map TransactionRow.toNormalized) s =
        (.ok rows.length, s') ∧
      HandsOver client enc (rows.map TransactionRow.toNormalized) s s') ↔
      NeverFull client enc (rows.map TransactionRow.toNormalized) s := by
  have hlength : (rows.map TransactionRow.toNormalized).length = rows.length := List.length_map _
  generalize rows.map TransactionRow.toNormalized = events at hlength
  refine ⟨fun h => ?_, fun h => ?_⟩
  · obtain ⟨s', hs', -⟩ := h
    by_contra hfull
    have hescapes : catchesKafkaException .bufferError = false := rfl
    obtain ⟨n, -, s₁, hs₁, -⟩ := publishEvents_of_escapes hescapes hfull
    rw [publishNormalizedEvents, hs₁] at hs'
    cases hs'
  · obtain ⟨s', hs', hhands⟩ : ∃ s', publishEvents client enc catchesKafkaException events s =
        (.ok (), s') ∧ HandsOver client enc events s s' := publishEvents_of_neverFull h
    refine ⟨client.flush s', ?_, (client.handed_flush s').trans hhands⟩
    rw [publishNormalizedEvents, hs', hlength]

/-- A client with room for one record that nothing takes from the queue but a flush: what was
handed over, and what of it is queued. -/
def sampleProducer : ProducerClient (List ProducerRecord × List ProducerRecord) where
  produce := fun s record =>
    if s.2 = [] then (.ok (), s.1 ++ [record], [record]) else (.error .bufferError, s)
  flush := fun s => (s.1, [])
  poll := id
  full := fun s => !s.2.isEmpty
  handed := Prod.fst
  produce_full := fun s record h => by
    have hne : s.2 ≠ [] := by simpa using h
    simp [hne]
  produce_room := fun s record h => by
    have hnil : s.2 = [] := by simpa using h
    simp [hnil]
  full_flush := fun _ => rfl
  handed_flush := fun _ => rfl
  handed_poll := fun _ => rfl

/-- Bytes that tell the ids apart, for ids below 256. -/
def sampleEncoding : EventEncoding where
  userKey := fun id => [UInt8.ofNat id]
  modelDumpJson := fun event => [UInt8.ofNat event.id]

/-- A row to replay, with nothing in it but what the columns demand. -/
def sampleReplayRow (id : UUID) : TransactionRow where
  id := id
  source := .monobank
  sourceId := "a"
  userId := 1
  accountId := 10
  time := 0
  amountCents := 100
  operationAmountCents := some 100
  operationCurrencyCode := some "UAH"
  description := none
  mcc := none
  cashbackAmountCents := 0
  balanceCents := none
  hold := none
  direction := .expense
  counterpartyIban := none
  rateSource := none
  metadata := none

/-- The second of two rows finds the queue full: `BufferError` is raised, with one event handed
over. -/
theorem not_publishNormalizedEvents_of_full :
    ¬ ∃ s', publishNormalizedEvents sampleProducer sampleEncoding 1
        ([sampleReplayRow 1, sampleReplayRow 2].map TransactionRow.toNormalized) ([], []) =
          (.ok 2, s') ∧
      HandsOver sampleProducer sampleEncoding
        ([sampleReplayRow 1, sampleReplayRow 2].map TransactionRow.toNormalized) ([], []) s' := by
  rintro ⟨s', hs', -⟩
  cases hs'

end Grosh
