import Grosh.Domain
import Mathlib.Data.List.Sort

/-!
# Where normalized events come from

The two normalizers turn a raw payload into a `NormalizedTransaction`; the reprocess job
turns a stored row back into one (`select_for_user`, `to_normalized`). These are the only
producers of `normalized_transactions`, and none of them writes a `layer`
(`monobankNormalize_noLayer`, `manualNormalize_noLayer`, `toNormalized_noLayer`). The id of a
Monobank event is determined by its source id (`monobankNormalize_id`).

`NormalizerEnv` holds the two library functions they call: `uuid5` in the platform's
namespace and the numeric lookup of `pycountry`.

A payload whose currency is unknown, or whose time no `datetime` can hold, has no event. Where an
event comes from makes no difference afterwards, so the three producers are known by what they have
in common.
-/

namespace Grosh

/-! ## The normalizers

A normalizer is given the envelope and the validated payload. It reads nothing else, so the event of
a message is always the same, whenever and however often the message is consumed. -/

/-- The library functions the normalizers use. Neither depends on anything but its argument, and no
property below needs to know more of them than that. -/
structure NormalizerEnv : Type where
  /-- `uuid.uuid5(GROSH_NAMESPACE, name)` -/
  uuid5 : String → UUID
  /-- `pycountry.currencies.get(numeric=…).alpha_3` -/
  pycountry : String → Option String

/-- `generate_transaction_id`: the id of a transaction is a hash of its source and its id there, so
a transaction that is published twice has the same id both times. -/
def generateTransactionId (env : NormalizerEnv) (source sourceId : String) : UUID :=
  env.uuid5 (source ++ ":" ++ sourceId)

/-- `str(code).zfill(3)`: zeros go after the sign. -/
def zfill3 (code : ℤ) : String :=
  let digits := (toString code.natAbs).toList
  let sign := if code < 0 then ['-'] else []
  String.ofList (sign ++ List.replicate (3 - (sign.length + digits.length)) '0' ++ digits)

/-- `numeric_to_alpha`: the overrides first, then the library. The overrides are codes that the
library does not know. -/
def numericToAlpha (env : NormalizerEnv) (code : ℤ) : Option String :=
  if zfill3 code = "975" then some "BGN"
  else if zfill3 code = "946" then some "RON"
  else env.pycountry (zfill3 code)

/-- The parts of a `TransactionEnvelope` beside its payload. -/
structure TransactionEnvelope : Type where
  userId : UUID
  accountId : UUID

/-- `MonobankStatementItem`: an item of a statement as the normalization service validates it. The
amount is signed and in the currency of the account. -/
structure MonobankStatementItem : Type where
  id : String
  time : ℤ
  description : String
  mcc : ℤ
  hold : Bool
  amount : ℤ
  operationAmount : ℤ
  currencyCode : ℤ
  cashbackAmount : ℤ
  balance : ℤ
  comment : Option String
  receiptId : Option String
  invoiceId : Option String
  counterEdrpou : Option String
  counterIban : Option String
  counterName : Option String

/-- The seconds `datetime.fromtimestamp` accepts: the years 1 to 9999. -/
def fromTimestamp (seconds : ℤ) : Option Timestamp :=
  if -62135596800 ≤ seconds ∧ seconds ≤ 253402300799 then some (seconds * second) else none

/-- The direction by the sign of the amount. -/
def directionOf (amount : ℤ) : TransactionDirection :=
  if 0 < amount then .income else if amount < 0 then .expense else .zero

/-- The optional fields of an item, under their metadata keys. A field that is not there has no key,
so an item without any has no metadata. -/
def sourceFields (item : MonobankStatementItem) : Dict :=
  [("comment", item.comment), ("receipt_id", item.receiptId), ("invoice_id", item.invoiceId),
    ("counter_edrpou", item.counterEdrpou), ("counter_name", item.counterName)].filterMap
    fun p => p.2.map fun value => (p.1, Json.str value)

/-- `MonobankNormalizer.normalize`, the payload already validated. It answers nothing where the time
is outside the years of a `datetime`, or the currency code is unknown. -/
def monobankNormalize (env : NormalizerEnv) (envelope : TransactionEnvelope)
    (item : MonobankStatementItem) : Option NormalizedTransaction := do
  let time ← fromTimestamp item.time
  let operationCurrencyCode ← numericToAlpha env item.currencyCode
  return {
    id := generateTransactionId env "monobank" item.id
    source := "monobank"
    sourceId := item.id
    userId := envelope.userId
    accountId := envelope.accountId
    time := time
    amountCents := item.amount.natAbs
    operationAmountCents := some item.operationAmount.natAbs
    operationCurrencyCode := operationCurrencyCode
    description := some item.description
    mcc := some (toString item.mcc)
    cashbackAmountCents := item.cashbackAmount
    balanceCents := some item.balance
    hold := some item.hold
    direction := directionOf item.amount
    counterpartyIban := item.counterIban
    rateSource := some "monobank"
    metadata :=
      if (sourceFields item).isEmpty then none else some [("source", .obj (sourceFields item))] }

/-- `ManualTransactionPayload`: what the ingestion service makes of a create request. The id is in
it already, made of the idempotency key. -/
structure ManualTransactionPayload : Type where
  id : UUID
  sourceId : String
  amountCents : ℤ
  operationCurrencyCode : String
  description : Option String
  time : Timestamp
  direction : TransactionDirection
  mcc : Option String
  rateSource : Option String

/-- `ManualNormalizer.normalize`, the payload already validated: every field is passed on, and there
is nothing that could fail. -/
def manualNormalize (envelope : TransactionEnvelope) (payload : ManualTransactionPayload) :
    NormalizedTransaction where
  id := payload.id
  source := "manual"
  sourceId := payload.sourceId
  userId := envelope.userId
  accountId := envelope.accountId
  time := payload.time
  amountCents := payload.amountCents
  operationAmountCents := some payload.amountCents
  operationCurrencyCode := payload.operationCurrencyCode
  description := payload.description
  mcc := payload.mcc
  cashbackAmountCents := 0
  balanceCents := none
  hold := some false
  direction := payload.direction
  counterpartyIban := none
  rateSource := payload.rateSource
  metadata := some [("source", .obj [])]

theorem monobankNormalize_noLayer {env : NormalizerEnv} {envelope : TransactionEnvelope}
    {item : MonobankStatementItem} {tx : NormalizedTransaction}
    (h : monobankNormalize env envelope item = some tx) : tx.NoLayer := by
  obtain ⟨time, -, h⟩ := Option.bind_eq_some_iff.mp h
  obtain ⟨code, -, h⟩ := Option.bind_eq_some_iff.mp h
  obtain rfl := Option.some.inj h
  intro d hd
  simp only at hd
  split at hd
  · cases hd
  · obtain rfl := Option.some.inj hd
    simp [Dict.get?]

/-- The id of a Monobank event is a function of its source id. Two events of one statement item,
from the webhook and from a backfill, are one transaction. -/
theorem monobankNormalize_id {env : NormalizerEnv} {envelope : TransactionEnvelope}
    {item : MonobankStatementItem} {tx : NormalizedTransaction}
    (h : monobankNormalize env envelope item = some tx) :
    tx.source = "monobank" ∧ tx.id = generateTransactionId env "monobank" tx.sourceId := by
  obtain ⟨time, -, h⟩ := Option.bind_eq_some_iff.mp h
  obtain ⟨code, -, h⟩ := Option.bind_eq_some_iff.mp h
  obtain rfl := Option.some.inj h
  exact ⟨rfl, rfl⟩

theorem manualNormalize_noLayer (envelope : TransactionEnvelope)
    (payload : ManualTransactionPayload) : (manualNormalize envelope payload).NoLayer := by
  intro d hd
  obtain rfl := Option.some.inj hd
  simp [Dict.get?]

/-! ## The replay

A reprocess job deletes the rows of a user and publishes them as events again. What it publishes is
read from the rows, so the columns it reads decide what a replay can keep. -/

/-- A source as the text an event carries. -/
def TransactionSource.toText : TransactionSource → String
  | .monobank => "monobank"
  | .manual => "manual"

/-- A row read back for the replay: the columns that make up the event, without the amounts and the
layer that enrichment has computed. -/
structure TransactionRow : Type where
  id : UUID
  source : TransactionSource
  sourceId : String
  userId : UUID
  accountId : UUID
  time : Timestamp
  amountCents : ℤ
  operationAmountCents : Option ℤ
  operationCurrencyCode : Option String
  description : Option String
  mcc : Option String
  cashbackAmountCents : ℤ
  balanceCents : Option ℤ
  hold : Option Bool
  direction : TransactionDirection
  counterpartyIban : Option String
  rateSource : Option String
  metadata : Option Dict

/-- The columns `select_for_user` reads. The metadata column holds an object or `NULL`. -/
def TransactionRow.ofRow (r : Transaction) : TransactionRow where
  id := r.id
  source := r.source
  sourceId := r.sourceId
  userId := r.userId
  accountId := r.accountId
  time := r.time
  amountCents := r.amountCents
  operationAmountCents := r.operationAmountCents
  operationCurrencyCode := r.operationCurrencyCode
  description := r.description
  mcc := r.mcc
  cashbackAmountCents := r.cashbackAmountCents.getD 0
  balanceCents := r.balanceCents
  hold := r.hold
  direction := r.direction
  counterpartyIban := r.counterpartyIban
  rateSource := r.rateSource
  metadata := r.metadata.bind fun m =>
    match m with
    | .obj d => some d
    | _ => none

/-- `TransactionRow.to_normalized`: `metadata.layer` is dropped, `metadata.source` kept. A row
without an operation currency becomes an event with an empty one. -/
def TransactionRow.toNormalized (row : TransactionRow) : NormalizedTransaction where
  id := row.id
  source := row.source.toText
  sourceId := row.sourceId
  userId := row.userId
  accountId := row.accountId
  time := row.time
  amountCents := row.amountCents
  operationAmountCents := row.operationAmountCents
  operationCurrencyCode := row.operationCurrencyCode.getD ""
  description := row.description
  mcc := row.mcc
  cashbackAmountCents := row.cashbackAmountCents
  balanceCents := row.balanceCents
  hold := row.hold
  direction := row.direction
  counterpartyIban := row.counterpartyIban
  rateSource := row.rateSource
  metadata := some [("source", (Dict.get? (row.metadata.getD []) "source").getD (.obj []))]

/-- `ORDER BY time, id`: the oldest first, as enrichment would have received them, and a total order
on the rows of a table. -/
def replayOrder (a b : Transaction) : Prop := a.time < b.time ∨ a.time = b.time ∧ a.id ≤ b.id

instance : DecidableRel replayOrder := fun _ _ => inferInstanceAs (Decidable (_ ∨ _))

/-- `select_for_user`. -/
def selectForUser (db : Database) (userId : UUID) : List TransactionRow :=
  ((db.rowsOf userId).insertionSort replayOrder).map TransactionRow.ofRow

theorem toNormalized_noLayer (row : TransactionRow) : row.toNormalized.NoLayer := by
  intro d hd
  obtain rfl := Option.some.inj hd
  simp [Dict.get?]

theorem Database.mem_rowsOf {db : Database} {userId : UUID} {r : Transaction} :
    r ∈ db.rowsOf userId ↔ r ∈ db.transactions ∧ r.userId = userId := by
  simp [rowsOf, KeyedTable.mem_def]

/-- Every row of the user is read, and only those. -/
theorem mem_selectForUser {db : Database} {userId : UUID} {row : TransactionRow} :
    row ∈ selectForUser db userId ↔
      ∃ r ∈ db.transactions, r.userId = userId ∧ TransactionRow.ofRow r = row := by
  simp only [selectForUser, List.mem_map, List.mem_insertionSort, Database.mem_rowsOf, and_assoc]

end Grosh
