import Grosh.AcceptedTransactions
import Grosh.Pagination
import Grosh.Staging

/-!
# From ingestion to the normalizer

Ingestion publishes envelopes with an untyped payload: the webhook the statement item as the bank
pushed it, once it has validated, the backfill the item dumped again, and a manual create request
the fields it has filled in. Normalization validates the payload with models of its own, and then
converts the currency code and the time, which ingestion has not looked at. The text of a
message is left out: a JSON value that is written is the value that is parsed.

* `modelValidate_modelDump` — an item that is dumped and validated again is the same item;
* `normalizes_iff` — a published envelope is normalized exactly if it is a manual request, or an
  item of a known currency and a time of the years 1 to 9999; both ways of an item give one event.
-/

namespace Grosh

open Isoformat

/-! ## The models

Two services validate one payload with models of their own. A field is looked for under its alias
and then under its name, and its value goes through the conversion of its type. -/

/-- The conversions of `pydantic`: what it makes of a JSON value for a field of a type. A value of
the type is taken as it is, and a text that the type writes is read back. -/
structure Pydantic : Type where
  toStr : Json → Option String
  toInt : Json → Option ℤ
  toBool : Json → Option Bool
  toUuid : Json → Option UUID
  toDatetime : Json → Option Datetime
  toStr_str : ∀ s, toStr (.str s) = some s
  toInt_num : ∀ n : ℤ, toInt (.num n) = some n
  toBool_bool : ∀ b, toBool (.bool b) = some b
  toUuid_str : ∀ id, id < 2 ^ 128 → toUuid (.str (String.ofList (uuidText id))) = some id
  toDatetime_str : ∀ d : Datetime, toDatetime (.str (String.ofList d.isoformat)) = some d

/-- A field of a model; one without an alias has its name for one. Both are keys of the payload. -/
structure ModelField : Type where
  name : String
  byAlias : String

/-- The value for a field: `populate_by_name` looks for the alias first. -/
def ModelField.value (f : ModelField) (payload : Dict) : Option Json :=
  (payload.get? f.byAlias).or (payload.get? f.name)

/-- A value of type `T | None`: `null` is taken for itself. -/
def nullable {α : Type} (read : Json → Option α) : Json → Option (Option α)
  | .null => some none
  | json => (read json).map some

/-- A field of type `T | None` whose default is `None`: it may be missing as well. -/
def optional {α : Type} (read : Json → Option α) : Option Json → Option (Option α)
  | none => some none
  | some json => nullable read json

/-- A validated `MonobankStatementItem`, with the field that no normalizer reads, but that the
payload carries. -/
structure StatementItem extends MonobankStatementItem where
  originalMcc : ℤ

/-- The fields of a `MonobankStatementItem` model, which two services define. -/
structure StatementModel : Type where
  id : ModelField
  time : ModelField
  description : ModelField
  mcc : ModelField
  originalMcc : ModelField
  hold : ModelField
  amount : ModelField
  operationAmount : ModelField
  currencyCode : ModelField
  cashbackAmount : ModelField
  balance : ModelField
  comment : ModelField
  receiptId : ModelField
  invoiceId : ModelField
  counterEdrpou : ModelField
  counterIban : ModelField
  counterName : ModelField

/-- `grosh_ingestion.sources.monobank.models.MonobankStatementItem`: its aliases are the keys of the
bank. -/
def ingestionStatementItem : StatementModel where
  id := ⟨"id", "id"⟩
  time := ⟨"time", "time"⟩
  description := ⟨"description", "description"⟩
  mcc := ⟨"mcc", "mcc"⟩
  originalMcc := ⟨"original_mcc", "originalMcc"⟩
  hold := ⟨"hold", "hold"⟩
  amount := ⟨"amount", "amount"⟩
  operationAmount := ⟨"operation_amount", "operationAmount"⟩
  currencyCode := ⟨"currency_code", "currencyCode"⟩
  cashbackAmount := ⟨"cashback_amount", "cashbackAmount"⟩
  balance := ⟨"balance", "balance"⟩
  comment := ⟨"comment", "comment"⟩
  receiptId := ⟨"receipt_id", "receiptId"⟩
  invoiceId := ⟨"invoice_id", "invoiceId"⟩
  counterEdrpou := ⟨"counter_edrpou", "counterEdrpou"⟩
  counterIban := ⟨"counter_iban", "counterIban"⟩
  counterName := ⟨"counter_name", "counterName"⟩

/-- `grosh_normalization.sources.monobank.models.MonobankStatementItem`: the same keys, defined a
second time. -/
def normalizationStatementItem : StatementModel where
  id := ⟨"id", "id"⟩
  time := ⟨"time", "time"⟩
  description := ⟨"description", "description"⟩
  mcc := ⟨"mcc", "mcc"⟩
  originalMcc := ⟨"original_mcc", "originalMcc"⟩
  hold := ⟨"hold", "hold"⟩
  amount := ⟨"amount", "amount"⟩
  operationAmount := ⟨"operation_amount", "operationAmount"⟩
  currencyCode := ⟨"currency_code", "currencyCode"⟩
  cashbackAmount := ⟨"cashback_amount", "cashbackAmount"⟩
  balance := ⟨"balance", "balance"⟩
  comment := ⟨"comment", "comment"⟩
  receiptId := ⟨"receipt_id", "receiptId"⟩
  invoiceId := ⟨"invoice_id", "invoiceId"⟩
  counterEdrpou := ⟨"counter_edrpou", "counterEdrpou"⟩
  counterIban := ⟨"counter_iban", "counterIban"⟩
  counterName := ⟨"counter_name", "counterName"⟩

/-- The fields of an item, read from an object; a field that is missing or does not convert fails
the item. -/
def StatementModel.readItem (m : StatementModel) (py : Pydantic) (payload : Dict) :
    Option StatementItem := do
  let id ← (m.id.value payload).bind py.toStr
  let time ← (m.time.value payload).bind py.toInt
  let description ← (m.description.value payload).bind py.toStr
  let mcc ← (m.mcc.value payload).bind py.toInt
  let originalMcc ← (m.originalMcc.value payload).bind py.toInt
  let hold ← (m.hold.value payload).bind py.toBool
  let amount ← (m.amount.value payload).bind py.toInt
  let operationAmount ← (m.operationAmount.value payload).bind py.toInt
  let currencyCode ← (m.currencyCode.value payload).bind py.toInt
  let cashbackAmount ← (m.cashbackAmount.value payload).bind py.toInt
  let balance ← (m.balance.value payload).bind py.toInt
  let comment ← optional py.toStr (m.comment.value payload)
  let receiptId ← optional py.toStr (m.receiptId.value payload)
  let invoiceId ← optional py.toStr (m.invoiceId.value payload)
  let counterEdrpou ← optional py.toStr (m.counterEdrpou.value payload)
  let counterIban ← optional py.toStr (m.counterIban.value payload)
  let counterName ← optional py.toStr (m.counterName.value payload)
  return {
    id := id
    time := time
    description := description
    mcc := mcc
    originalMcc := originalMcc
    hold := hold
    amount := amount
    operationAmount := operationAmount
    currencyCode := currencyCode
    cashbackAmount := cashbackAmount
    balance := balance
    comment := comment
    receiptId := receiptId
    invoiceId := invoiceId
    counterEdrpou := counterEdrpou
    counterIban := counterIban
    counterName := counterName }

/-- `model_validate`; `none` is a `ValidationError`. Nothing but an object is an item. -/
def StatementModel.modelValidate (m : StatementModel) (py : Pydantic) : Json → Option StatementItem
  | .obj payload => m.readItem py payload
  | _ => none

/-- A text or `null`, for a field that may be `None`. -/
def textOrNull : Option String → Json
  | none => .null
  | some s => .str s

/-- `model_dump(by_alias=True)`: every field, under its alias, also those that are `None`. -/
def StatementModel.modelDump (m : StatementModel) (item : StatementItem) : Dict :=
  [(m.id.byAlias, .str item.id),
    (m.time.byAlias, .num item.time),
    (m.description.byAlias, .str item.description),
    (m.mcc.byAlias, .num item.mcc),
    (m.originalMcc.byAlias, .num item.originalMcc),
    (m.hold.byAlias, .bool item.hold),
    (m.amount.byAlias, .num item.amount),
    (m.operationAmount.byAlias, .num item.operationAmount),
    (m.currencyCode.byAlias, .num item.currencyCode),
    (m.cashbackAmount.byAlias, .num item.cashbackAmount),
    (m.balance.byAlias, .num item.balance),
    (m.comment.byAlias, textOrNull item.comment),
    (m.receiptId.byAlias, textOrNull item.receiptId),
    (m.invoiceId.byAlias, textOrNull item.invoiceId),
    (m.counterEdrpou.byAlias, textOrNull item.counterEdrpou),
    (m.counterIban.byAlias, textOrNull item.counterIban),
    (m.counterName.byAlias, textOrNull item.counterName)]

/-- The value of a `TransactionDirection`, as it stands in a payload. -/
def TransactionDirection.value : TransactionDirection → String
  | .income => "income"
  | .expense => "expense"
  | .zero => "zero"

/-- The direction of a value: one of the three texts, and nothing else. -/
def readDirection : Json → Option TransactionDirection
  | .str s => [TransactionDirection.income, .expense, .zero].find? fun d => decide (d.value = s)
  | _ => none

/-- `ManualTransactionPayload.model_validate`, on an object. Its fields have no aliases. -/
def ManualTransactionPayload.modelValidate (py : Pydantic) (payload : Dict) :
    Option ManualTransactionPayload := do
  let id ← (payload.get? "id").bind py.toUuid
  let sourceId ← (payload.get? "source_id").bind py.toStr
  let amountCents ← (payload.get? "amount_cents").bind py.toInt
  let operationCurrencyCode ← (payload.get? "operation_currency_code").bind py.toStr
  let description ← (payload.get? "description").bind (nullable py.toStr)
  let time ← (payload.get? "time").bind py.toDatetime
  let direction ← (payload.get? "direction").bind readDirection
  let mcc ← (payload.get? "mcc").bind (nullable py.toStr)
  let rateSource ← (payload.get? "rate_source").bind (nullable py.toStr)
  return {
    id := id
    sourceId := sourceId
    amountCents := amountCents
    operationCurrencyCode := operationCurrencyCode
    description := description
    time := time.timestamp
    direction := direction
    mcc := mcc
    rateSource := rateSource }

/-! ## Ingestion

Three functions publish. Each has its own way to the payload: as it came, dumped again, or filled
in. -/

/-- A `TransactionEnvelope`, as it is published: the payload is untyped. -/
structure PublishedEnvelope extends TransactionEnvelope where
  source : String
  payload : Dict

/-- What the two lookups of `receive_webhook` answer: whose secret it is, and which account. -/
structure WebhookEnv : Type where
  /-- `get_active_integration_by_webhook_secret`: the id and the user -/
  integration : String → Option (UUID × UUID)
  /-- `get_account_by_external_id` -/
  account : String → UUID → Option UUID

/-- `receive_webhook`: the envelope it publishes, of the raw statement item, or the
problem it raises. -/
def receiveWebhook (py : Pydantic) (wenv : WebhookEnv) (webhookSecret account : String)
    (statementItem : Dict) : Except ProblemDetail PublishedEnvelope :=
  match wenv.integration webhookSecret with
  | none => .error ⟨404, "INTEGRATION_NOT_FOUND", "Unknown webhook."⟩
  | some (integrationId, userId) =>
    match wenv.account account integrationId with
    | none => .error ⟨404, "ACCOUNT_NOT_FOUND", "Unknown account."⟩
    | some accountId =>
      match ingestionStatementItem.modelValidate py (.obj statementItem) with
      | none => .error ⟨422, "VALIDATION_ERROR", "Invalid statement payload."⟩
      | some _ => .ok ⟨⟨userId, accountId⟩, "monobank", statementItem⟩

/-- `MonobankClient.get_statements`, from the array the bank answers: one item that does not
validate fails all of them. -/
def getStatements (py : Pydantic) (response : List Json) : Option (List StatementItem) :=
  response.mapM (ingestionStatementItem.modelValidate py)

/-- The envelope that `run_backfill` publishes for an item: the item is dumped again. -/
def backfillEnvelope (owner : TransactionEnvelope) (item : StatementItem) : PublishedEnvelope :=
  ⟨owner, "monobank", ingestionStatementItem.modelDump item⟩

/-- A create request with its `time` as it was given: the moment and the offset, of which only the
moment is kept by the event. -/
structure TimedRequest extends CreateTransactionRequest where
  datetime : Datetime
  time_eq : time = datetime.timestamp

/-- The payload of `create_transaction`: the time is written with the offset it came with. -/
def manualDict (payload : ManualTransactionPayload) (time : Datetime) : Dict :=
  [("id", .str (String.ofList (uuidText payload.id))),
    ("source_id", .str payload.sourceId),
    ("amount_cents", .num payload.amountCents),
    ("operation_currency_code", .str payload.operationCurrencyCode),
    ("description", textOrNull payload.description),
    ("time", .str (String.ofList time.isoformat)),
    ("direction", .str payload.direction.value),
    ("mcc", textOrNull payload.mcc),
    ("rate_source", textOrNull payload.rateSource)]

/-- `create_transaction`: the envelope it publishes. -/
def publishManual (nenv : NormalizerEnv) (ienv : IngestionEnv) (q : TimedRequest) :
    Except CreateTransactionError PublishedEnvelope :=
  (createTransaction nenv ienv q.toCreateTransactionRequest).map fun p =>
    ⟨p.1, "manual", manualDict p.2 q.datetime⟩

/-- What ingestion accepts: a statement item, or a manual create request. Both have been
validated. -/
inductive Ingested : Type where
  | item (item : StatementItem)
  | request (q : TimedRequest)

/-- The envelopes that ingestion publishes for what it accepts. -/
inductive Publishes (py : Pydantic) (nenv : NormalizerEnv) : Ingested → PublishedEnvelope → Prop
    where
  | webhook {wenv : WebhookEnv} {webhookSecret account : String} {statementItem : Dict}
      {item : StatementItem} {e : PublishedEnvelope} :
      ingestionStatementItem.modelValidate py (.obj statementItem) = some item →
      receiveWebhook py wenv webhookSecret account statementItem = .ok e →
      Publishes py nenv (.item item) e
  | backfill {response : List Json} {items : List StatementItem} {item : StatementItem}
      (owner : TransactionEnvelope) :
      getStatements py response = some items → item ∈ items →
      Publishes py nenv (.item item) (backfillEnvelope owner item)
  | manual {ienv : IngestionEnv} {q : TimedRequest} {e : PublishedEnvelope} :
      publishManual nenv ienv q = .ok e → Publishes py nenv (.request q) e

/-! ## Normalization

The consumer validates the payload with the model of its source and hands it to the normalizer. What
validates was published, and so it validates again. -/

/-- The message that the consumer takes, with its payload validated by either model. -/
def PublishedEnvelope.message (py : Pydantic) (e : PublishedEnvelope) : RawMessage :=
  some
    { toTransactionEnvelope := e.toTransactionEnvelope
      source := e.source
      monobankItem := (normalizationStatementItem.modelValidate py (.obj e.payload)).map
        StatementItem.toMonobankStatementItem
      manualPayload := ManualTransactionPayload.modelValidate py e.payload }

/-- The normalizer of the source returns an event: the consumer does not skip the message. -/
def Normalizes (py : Pydantic) (nenv : NormalizerEnv) (e : PublishedEnvelope) : Prop :=
  ∃ tx, normalizeMessage nenv (e.message py) = some tx

/-- The normalizer converts the currency code and the time. A request has both as they will be
stored. -/
def Ingested.Convertible (nenv : NormalizerEnv) : Ingested → Prop
  | .item i => (∃ alpha, numericToAlpha nenv i.currencyCode = some alpha) ∧
      -62135596800 ≤ i.time ∧ i.time ≤ 253402300799
  | .request _ => True

variable {py : Pydantic} {nenv : NormalizerEnv} {ienv : IngestionEnv} {e e' : PublishedEnvelope}
  {x : Ingested} {item : StatementItem} {q : TimedRequest}

theorem nullable_textOrNull (s : Option String) : nullable py.toStr (textOrNull s) = some s := by
  rcases s with _ | s
  · rfl
  · simp [nullable, textOrNull, py.toStr_str]

theorem readDirection_value (d : TransactionDirection) : readDirection (.str d.value) = some d := by
  cases d <;> simp [readDirection, TransactionDirection.value]

/-- **An item that is dumped and validated again** is the same item. -/
theorem modelValidate_modelDump (item : StatementItem) :
    ingestionStatementItem.modelValidate py (.obj (ingestionStatementItem.modelDump item)) =
      some item := by
  simp [StatementModel.modelValidate, StatementModel.readItem, StatementModel.modelDump,
    ingestionStatementItem, ModelField.value, Dict.get?, py.toStr_str, py.toInt_num,
    py.toBool_bool, optional, nullable_textOrNull]

/-- A payload that is filled in and validated is the same payload, with the moment of its time. -/
theorem modelValidate_manualDict {payload : ManualTransactionPayload} {time : Datetime}
    (hid : payload.id < 2 ^ 128) (htime : payload.time = time.timestamp) :
    ManualTransactionPayload.modelValidate py (manualDict payload time) = some payload := by
  simp [ManualTransactionPayload.modelValidate, manualDict, Dict.get?, py.toUuid_str _ hid,
    py.toStr_str, py.toInt_num, py.toDatetime_str, readDirection_value, nullable_textOrNull,
    ← htime]

/-- **An item that is published** is normalized as it was validated, whichever way it came. -/
theorem Publishes.normalize_item (h : Publishes py nenv (.item item) e) :
    normalizeMessage nenv (e.message py) =
      monobankNormalize nenv e.toTransactionEnvelope item.toMonobankStatementItem := by
  -- the payload validates to the item
  have hitem : e.source = "monobank" ∧
      normalizationStatementItem.modelValidate py (.obj e.payload) = some item := by
    cases h with
    | webhook hvalid hok =>
      simp only [receiveWebhook] at hok
      split at hok
      · cases hok
      split at hok
      · cases hok
      rw [hvalid] at hok
      cases hok
      exact ⟨rfl, hvalid⟩
    | backfill owner => exact ⟨rfl, modelValidate_modelDump item⟩
  simp only [normalizeMessage, PublishedEnvelope.message, Option.bind_some, normalizeEnvelope,
    hitem.1, hitem.2, if_true, Option.map_some]

/-- **A request that is published** is normalized: nothing about it is left to convert. -/
theorem Publishes.normalize_request (huuid : ∀ name, nenv.uuid5 name < 2 ^ 128)
    (h : Publishes py nenv (.request q) e) : Normalizes py nenv e := by
  cases h with
  | manual hok =>
    obtain ⟨p, hp, rfl⟩ := exceptMap_eq_ok.mp hok
    obtain ⟨-, hid, -, htime⟩ := createTransaction_eq_ok hp
    have hlt : p.2.id < 2 ^ 128 := hid ▸ huuid _
    have hpayload : ManualTransactionPayload.modelValidate py (manualDict p.2 q.datetime) =
        some p.2 := modelValidate_manualDict hlt (htime.trans q.time_eq)
    refine ⟨manualNormalize p.1 p.2, ?_⟩
    simp [normalizeMessage, PublishedEnvelope.message, normalizeEnvelope, hpayload]

theorem monobankNormalize_isSome {envelope : TransactionEnvelope} {i : MonobankStatementItem} :
    (∃ tx, monobankNormalize nenv envelope i = some tx) ↔
      (∃ alpha, numericToAlpha nenv i.currencyCode = some alpha) ∧
        -62135596800 ≤ i.time ∧ i.time ≤ 253402300799 := by
  rw [← Option.isSome_iff_exists, ← Option.isSome_iff_exists, monobankNormalize, fromTimestamp]
  split
  · next hrange =>
    rcases numericToAlpha nenv i.currencyCode with _ | alpha <;> simp [hrange]
  · next hrange => simp [hrange]

/-- **Normalization does not drop** what ingestion publishes, but for items with an unknown
currency or a time out of range. The two ways of an item give one event. -/
theorem normalizes_iff (huuid : ∀ name, nenv.uuid5 name < 2 ^ 128) :
    (∀ x e, Publishes py nenv x e → (Normalizes py nenv e ↔ x.Convertible nenv)) ∧
      ∀ item e e', Publishes py nenv (.item item) e → Publishes py nenv (.item item) e' →
        e.toTransactionEnvelope = e'.toTransactionEnvelope →
        normalizeMessage nenv (e.message py) = normalizeMessage nenv (e'.message py) := by
  refine ⟨fun x e h => ?_, fun item e e' h h' howner => ?_⟩
  · cases x with
    | item i =>
      rw [Normalizes, h.normalize_item]
      exact monobankNormalize_isSome
    | request q => exact iff_of_true (h.normalize_request huuid) trivial
  · rw [h.normalize_item, h'.normalize_item, howner]

/-- A JSON string, and no other value. -/
def sampleText : Json → Option String
  | .str s => some s
  | _ => none

/-- A whole number, and no other value. -/
def sampleInt : Json → Option ℤ
  | .num q => if q.den = 1 then some q.num else none
  | _ => none

/-- A boolean, and no other value. -/
def sampleBool : Json → Option Bool
  | .bool b => some b
  | _ => none

/-- Conversions that take the values of a type, and no others. -/
def samplePydantic : Pydantic where
  toStr := sampleText
  toInt := sampleInt
  toBool := sampleBool
  toUuid := fun json => (sampleText json).bind fun s => parseUuid s.toList
  toDatetime := fun json => (sampleText json).bind fun s => Datetime.read s.toList
  toStr_str := fun _ => rfl
  toInt_num := fun _ => rfl
  toBool_bool := fun _ => rfl
  toUuid_str := fun id hid => by
    rw [sampleText, Option.bind_some, String.toList_ofList, parseUuid_uuidText hid]
  toDatetime_str := fun d => by
    rw [sampleText, Option.bind_some, String.toList_ofList, d.read_isoformat]

/-- A table of the hryvnia alone, and the identifiers of two transactions as `uuid5` computes
them. -/
def sampleHryvnia : NormalizerEnv where
  uuid5 := fun name =>
    if name = "monobank:ZuHWzqkKGVo=" then 0x310d73edbddb5d21be3498f94a7a1eb4
    else if name = "manual:rent" then 0x26c4d1f3fcc85983b8fd32734953a135
    else 0
  pycountry := fun code => if code = "980" then some "UAH" else none

/-- The webhook and the card of a user, whatever the secret is. -/
def sampleWebhook : WebhookEnv where
  integration := fun _ => some (3, 1)
  account := fun _ _ => some 10

/-- A statement item as the bank pushes it. -/
def sampleStatement (currencyCode time : ℤ) : Dict :=
  [("id", .str "ZuHWzqkKGVo="), ("time", .num time), ("description", .str "coffee"),
    ("mcc", .num 5814), ("originalMcc", .num 5814), ("hold", .bool true), ("amount", .num (-9500)),
    ("operationAmount", .num (-9500)), ("currencyCode", .num currencyCode),
    ("commissionRate", .num 0), ("cashbackAmount", .num 0), ("balance", .num 10050000),
    ("receiptId", .str "XXXX-XXXX-XXXX-XXXX")]

/-- A create request from Kyiv in summer, three hours ahead of UTC. -/
def sampleRequest : TimedRequest where
  userId := 1
  accountId := 20
  amountCents := 4200
  amount_pos := by decide
  operationCurrencyCode := "UAH"
  description := none
  time := 1720000000000000
  direction := .expense
  direction_ne_zero := expense_ne_zero
  mcc := none
  rateSource := none
  idempotencyKey := some "rent"
  uuid4 := "7c9e6679-7425-40de-944b-e07fc1f90ae7"
  datetime :=
    { clock := 1720010800000000
      clock_range := by decide
      offset := some 180
      offset_range := by decide }
  time_eq := by decide

/-- An item in hryvnias and a request are published, and both are normalized. -/
theorem normalizes_iff_hryvnia :
    (∃ item e, Publishes samplePydantic sampleHryvnia (.item item) e ∧
      (Normalizes samplePydantic sampleHryvnia e ↔
        (Ingested.item item).Convertible sampleHryvnia)) ∧
    ∃ e, Publishes samplePydantic sampleHryvnia (.request sampleRequest) e ∧
      Normalizes samplePydantic sampleHryvnia e := by
  have huuid : ∀ name, sampleHryvnia.uuid5 name < 2 ^ 128 := by
    intro name
    simp only [sampleHryvnia]
    split_ifs <;> decide
  have hpushed := @Publishes.webhook samplePydantic sampleHryvnia sampleWebhook "secret" "card"
    (sampleStatement 980 1554466347) _ _ rfl rfl
  have hasked := @Publishes.manual samplePydantic sampleHryvnia sampleManualAccounts sampleRequest
    _ rfl
  exact ⟨⟨_, _, hpushed, (normalizes_iff huuid).1 _ _ hpushed⟩,
    _, hasked, ((normalizes_iff huuid).1 _ _ hasked).mpr trivial⟩

/-- An item of an unknown currency, and one after the year 9999, are published and dropped. -/
theorem not_normalizes_of_unknown_currency :
    (∃ e, receiveWebhook samplePydantic sampleWebhook "secret" "card"
        (sampleStatement 1 1554466347) = .ok e ∧ ¬ Normalizes samplePydantic sampleHryvnia e) ∧
      ∃ e, receiveWebhook samplePydantic sampleWebhook "secret" "card"
        (sampleStatement 980 253402300800) = .ok e ∧
          ¬ Normalizes samplePydantic sampleHryvnia e := by
  refine ⟨⟨_, rfl, ?_⟩, _, rfl, ?_⟩
  · rintro ⟨tx, h⟩
    cases h
  · rintro ⟨tx, h⟩
    cases h

end Grosh
