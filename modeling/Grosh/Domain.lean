import Grosh.Lib.Jsonb
import Grosh.Lib.KeyedTable

/-!
# Domain: events, rows and the database

The contract between the services (`NormalizedTransaction`), the rows of the tables
the pipeline writes (`transactions`, `transfer_match_anomalies`, the accounts it reads)
and the `Database` they live in. Identifiers are UUIDs, compared and ordered only, so a
natural number stands for one; times are microseconds, as `TIMESTAMPTZ` stores them;
amounts are integers with the `BIGINT` range checked where a row is written.

`created_at` columns and generated anomaly ids carry no information the pipeline reads
and are left out.
-/

namespace Grosh

/-- A UUID. The model only compares and orders identifiers, and where a text of one is written or
read its 128 bits are a number below `2 ^ 128`. -/
abbrev UUID : Type := ℕ

/-- Microseconds since the epoch, in UTC: the resolution of a `TIMESTAMPTZ` and of a Python
`datetime`, so that no moment is rounded between the two. -/
abbrev Timestamp : Type := ℤ

/-- One second. -/
abbrev second : Timestamp := 1000000

/-- The direction of the money flow. -/
inductive TransactionDirection : Type where
  | income
  | expense
  | zero
  deriving DecidableEq, Repr

/-- What claims a row out of the ordinary income and expense. A transfer between accounts of one
user is neither. -/
inductive SpecialCategory : Type where
  | transfer
  deriving DecidableEq, Repr

/-- The `transaction_source` enum of the database. An event carries the source as a text, which is
cast when the row is inserted. -/
inductive TransactionSource : Type where
  | monobank
  | manual
  deriving DecidableEq, Repr

/-- Where a row came from. -/
inductive TransactionOrigin : Type where
  | bank
  | manual
  deriving DecidableEq, Repr

/-- The currencies the platform knows. -/
inductive Currency : Type where
  | UAH | USD | EUR | GBP | PLN | CZK | CHF | JPY | CNY | TRY
  deriving DecidableEq, Repr

/-- The text an event carries for a source, cast to the enum by the insert; any other text is an
error of the database. -/
def TransactionSource.ofText : String → Option TransactionSource
  | "monobank" => some .monobank
  | "manual" => some .manual
  | _ => none

/-- The MCC of wire transfers. Of the merchant category codes it is the only one the pipeline
compares with. -/
def wireTransfer : String := "4829"

/-- The internal contract produced by the normalization stage: what every source is turned into, and
what a stored row is turned back into for a replay. Everything enrichment computes is missing from
it. -/
structure NormalizedTransaction : Type where
  id : UUID
  source : String
  sourceId : String
  userId : UUID
  accountId : UUID
  time : Timestamp
  amountCents : ℤ
  operationAmountCents : Option ℤ
  operationCurrencyCode : String
  description : Option String
  mcc : Option String
  cashbackAmountCents : ℤ
  balanceCents : Option ℤ
  hold : Option Bool
  direction : TransactionDirection
  counterpartyIban : Option String
  rateSource : Option String
  metadata : Option Dict

/-- The metadata wrapping convention on the event side: normalizers and the replay write
their fields under `source`, and leave `layer` to the pipeline. -/
def NormalizedTransaction.NoLayer (tx : NormalizedTransaction) : Prop :=
  ∀ d, tx.metadata = some d → Dict.get? d "layer" = none

/-- A row of `transactions`: the fields of the event, the converted amounts, and what transfer
detection has made of it. Columns no modelled function reads are left out. -/
structure Transaction : Type where
  id : UUID
  sourceId : String
  userId : UUID
  accountId : UUID
  time : Timestamp
  amountCents : ℤ
  operationAmountCents : Option ℤ
  currencyCode : String
  operationCurrencyCode : Option String
  amountUahCents : Option ℤ
  amountUsdCents : Option ℤ
  amountEurCents : Option ℤ
  description : Option String
  mcc : Option String
  cashbackAmountCents : Option ℤ
  balanceCents : Option ℤ
  hold : Option Bool
  direction : TransactionDirection
  specialCategory : Option SpecialCategory
  counterpartyIban : Option String
  rateSource : Option String
  metadata : Option Json
  source : TransactionSource
  origin : TransactionOrigin
  relatedTransactionId : Option UUID

/-- The `transfer_anomaly_reason` enum. -/
inductive TransferAnomalyReason : Type where
  | unpairedFromDescription
  | unpairedToDescription
  | ambiguousPairMatch
  | descriptionAccountMismatch
  | descriptionConsistencyMismatch
  deriving DecidableEq, Repr

/-- The auto-resolvable reasons: transient states, cleared when a partner arrives. The other reasons
stay until somebody looks at them. -/
def TransferAnomalyReason.isUnpaired : TransferAnomalyReason → Bool
  | .unpairedFromDescription => true
  | .unpairedToDescription => true
  | _ => false

/-- A single anomaly, as a strategy returns it and as `transfer_match_anomalies` stores it: there is
at most one for a transaction, and it names the candidates it is about. -/
structure AnomalyRecord : Type where
  transactionId : UUID
  candidateIds : List UUID
  reasonCode : TransferAnomalyReason
  reasonDetail : Option String
  deriving DecidableEq, Repr

/-- The columns of `accounts` the pipeline reads. -/
structure AccountProps : Type where
  id : UUID
  userId : UUID
  type : String
  currencyCode : String
  iban : Option String
  deriving DecidableEq, Repr

/-- The committed tables. The primary key of `transactions` and the uniqueness of
`transfer_match_anomalies.transaction_id` are those of the tables, so that no state of the model
breaks them. -/
@[ext] structure Database : Type where
  /-- `transactions` -/
  transactions : KeyedTable Transaction.id
  /-- `transfer_match_anomalies` -/
  anomalies : KeyedTable AnomalyRecord.transactionId

namespace Database

/-- Both tables empty. -/
def empty : Database := ⟨.empty, .empty⟩

/-- The rows of one user, in the order of the table. The order means nothing: a statement that
promises one sorts them. -/
def rowsOf (db : Database) (userId : UUID) : List Transaction :=
  db.transactions.rows.filter fun r => decide (r.userId = userId)

/-- A transaction id is in `transactions`. An event whose id is stored is skipped, which is what
makes its redelivery harmless. -/
def Stored (db : Database) (id : UUID) : Prop := db.transactions.HasKey id

instance (db : Database) (id : UUID) : Decidable (db.Stored id) :=
  inferInstanceAs (Decidable (db.transactions.HasKey id))

end Database

/-- The exceptions of the currency conversion. -/
inductive ConversionError : Type where
  /-- `RateSourceChainError` -/
  | rateSourceChain
  /-- an arithmetic error -/
  | decimal
  /-- raised by a rate query: an argument the driver does not encode, an integer out of range,
  or a row with a rate that is not a number -/
  | rateQuery
  deriving DecidableEq, Repr

/-- The exceptions a unit of work can end with. Its transaction is rolled back with each of them;
what the consumer does next depends on which it is. -/
inductive PipelineError : Type where
  /-- `AccountNotFoundError`: permanent, the consumer skips the event -/
  | accountNotFound (accountId : UUID)
  /-- raised by the currency conversion -/
  | conversion (e : ConversionError)
  /-- a missing dictionary key -/
  | keyError
  /-- a value error raised by the pipeline itself -/
  | valueError
  /-- a value the column type rejects -/
  | dataError
  /-- a foreign key without its row -/
  | foreignKeyViolation
  /-- a unique index other than the one `ON CONFLICT` names -/
  | uniqueViolation
  deriving DecidableEq, Repr

end Grosh
