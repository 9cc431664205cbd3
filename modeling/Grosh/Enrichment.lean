import Mathlib.Algebra.Group.Int.Defs
import Grosh.Detector

/-!
# The enrichment unit of work

`run` is `EnrichmentOrchestrator.run`, the body of one database transaction: account
lookup, transfer detection, currency conversion, insert, anomalies. `consume` is the
transaction around it: an exception rolls everything back.

A run is serialised with the other runs of its user by an advisory lock, so a run is one
function from the two tables to the two tables.

The run is a chain of steps each of which may raise. `run_cases` takes it apart once: what a run
that succeeds has looked up, detected, converted and written. Everything later is proved from that
and not from the code of the run.
-/

namespace Grosh

/-! ## Writing a row

The insert is where the database checks what the pipeline has computed: the ranges and texts of the
columns, the foreign keys, and the unique indexes. Each check that fails raises, but for the
conflict on the id, which is ignored. -/

/-- The range of a `BIGINT` column. An amount outside it does not come out of a statement item, but
may come out of a conversion. -/
def fitsBigint (n : ℤ) : Bool := decide (-2 ^ 63 ≤ n ∧ n < 2 ^ 63)

/-- Every column of the row holds a value its type accepts: the numbers fit their columns, and no
text and no text in the metadata contains a NUL. -/
def Transaction.encodable (r : Transaction) : Bool :=
  fitsBigint r.amountCents &&
  [r.operationAmountCents, r.amountUahCents, r.amountUsdCents, r.amountEurCents,
    r.cashbackAmountCents, r.balanceCents].all (fun n => n.all fitsBigint) &&
  r.sourceId.noNul && r.currencyCode.noNul &&
  [r.operationCurrencyCode, r.description, r.mcc, r.counterpartyIban,
    r.rateSource].all (fun s => s.all String.noNul) &&
  r.metadata.all Json.noNul

/-- The columns `TransactionRepo.insert` writes: those of the event, the currency of the account,
and what the earlier parts of the run have found. -/
def toRow (tx : NormalizedTransaction) (source : TransactionSource) (accountCurrency : String)
    (specialCategory : Option SpecialCategory) (converted : Currency → Option ℤ)
    (metadata : Option Dict) (relatedTransactionId : Option UUID) : Transaction where
  id := tx.id
  sourceId := tx.sourceId
  userId := tx.userId
  accountId := tx.accountId
  time := tx.time
  amountCents := tx.amountCents
  operationAmountCents := tx.operationAmountCents
  currencyCode := accountCurrency
  operationCurrencyCode := some tx.operationCurrencyCode
  amountUahCents := converted .UAH
  amountUsdCents := converted .USD
  amountEurCents := converted .EUR
  description := tx.description
  mcc := tx.mcc
  cashbackAmountCents := some tx.cashbackAmountCents
  balanceCents := tx.balanceCents
  hold := tx.hold
  direction := tx.direction
  specialCategory := specialCategory
  counterpartyIban := tx.counterpartyIban
  rateSource := tx.rateSource
  -- an empty dictionary is falsy and stored as NULL
  metadata := metadata.bind fun d => if d.isEmpty then none else some (.obj d)
  source := source
  origin := if source = .manual then .manual else .bank
  relatedTransactionId := relatedTransactionId

/-- The unique index on `(account_id, source_id)`. Two events of one source id and one account have
one id, unless one of them was made otherwise, and then the second insert raises. -/
def Database.DedupTaken (db : Database) (accountId : UUID) (sourceId : String) : Prop :=
  ∃ r ∈ db.transactions.rows, r.accountId = accountId ∧ r.sourceId = sourceId

instance (db : Database) (accountId : UUID) (sourceId : String) :
    Decidable (db.DedupTaken accountId sourceId) :=
  inferInstanceAs (Decidable (∃ r ∈ db.transactions.rows, _ ∧ _))

/-- `TransactionRepo.insert`: `ON CONFLICT (id) DO NOTHING`; any other constraint raises. The checks
come in an order in which a conflict on the id hides what a later check would have refused. -/
def insertTransaction (env : PipelineEnv) (db : Database) (tx : NormalizedTransaction)
    (accountCurrency : String) (specialCategory : Option SpecialCategory)
    (converted : Currency → Option ℤ) (metadata : Option Dict)
    (relatedTransactionId : Option UUID) : Except PipelineError Database :=
  match TransactionSource.ofText tx.source with
  | none => .error .dataError
  | some source =>
    let row := toRow tx source accountCurrency specialCategory converted metadata
      relatedTransactionId
    if row.encodable = false then .error .dataError
    else if db.Stored tx.id then .ok db
    else if db.DedupTaken tx.accountId tx.sourceId then .error .uniqueViolation
    else if tx.userId ∉ env.users then .error .foreignKeyViolation
    else .ok { db with transactions := db.transactions.insertIgnore row }

/-- `AnomalyRepo.record_anomaly`: `ON CONFLICT (transaction_id) DO NOTHING`. The anomaly of a
transaction that is not stored violates the foreign key. -/
def recordAnomaly (db : Database) (a : AnomalyRecord) : Except PipelineError Database :=
  if db.Stored a.transactionId then .ok { db with anomalies := db.anomalies.insertIgnore a }
  else .error .foreignKeyViolation

/-! ## The orchestrator

The parts of a run contribute to the metadata of the row under names of their own, and the fields of
the source stay as the event has them. -/

/-- Merge the layer outputs under their namespaces; a namespace claimed twice raises. -/
def mergeLayers : Dict → List (String × Dict) → Except PipelineError Dict
  | layer, [] => .ok layer
  | layer, (namespace_, payload) :: rest =>
    if (layer.get? namespace_).isSome then .error .valueError
    else mergeLayers (layer.set namespace_ (.obj payload)) rest

/-- `_build_metadata`: source metadata verbatim, layer outputs under `layer`. Without any output the
metadata is that of the event, and may be missing altogether. -/
def buildMetadata (sourceMetadata : Option Dict) (layerContributions : List (String × Dict)) :
    Except PipelineError (Option Dict) :=
  if layerContributions.isEmpty then .ok sourceMetadata
  else
    (mergeLayers [] layerContributions).map fun layer =>
      some ((sourceMetadata.getD []).set "layer" (.obj layer))

/-- The contributions of one run, in pipeline order. -/
def layerContributions (rateMetadata : Dict) (metadataBlock : Option Dict) :
    List (String × Dict) :=
  (if rateMetadata.isEmpty then [] else [("rate", rateMetadata)]) ++
    match metadataBlock with
    | none => []
    | some block => [("transfer", block)]

/-- Dispatch to the source's strategy; only Monobank has one. For a manual transaction nothing is
detected and no row is touched. -/
def runTransferDetection (env : PipelineEnv) (db : Database) (tx : NormalizedTransaction) :
    Except PipelineError (TransferResult × Database) :=
  if tx.source = "monobank" then detectAndPair env db tx else .ok (.default, db)

/-- `EnrichmentOrchestrator.run`, the statements of one database transaction. Detection may already
have claimed another row when a later statement raises, which is why the caller has to roll back. -/
def run (env : PipelineEnv) (db : Database) (tx : NormalizedTransaction) :
    Except PipelineError Database := do
  let account ← getById env tx.accountId
  let (result, db) ← runTransferDetection env db tx
  let conversion ← (env.convert tx account.currencyCode).mapError PipelineError.conversion
  let metadata ← buildMetadata tx.metadata
    (layerContributions conversion.rateMetadata result.metadataBlock)
  let db ← insertTransaction env db tx account.currencyCode result.specialCategory
    conversion.amounts metadata result.relatedTransactionId
  result.anomalies.foldlM recordAnomaly db

/-- The transaction around `run`: an exception leaves the tables as they were, so that a unit of
work either does everything or nothing. -/
def consume (env : PipelineEnv) (db : Database) (tx : NormalizedTransaction) : Database :=
  match run env db tx with
  | .ok db' => db'
  | .error _ => db

/-- The units of work of a sequence of events, one after another, each on the tables the ones before
have left. -/
def consumeAll (env : PipelineEnv) (db : Database) (events : List NormalizedTransaction) :
    Database :=
  events.foldl (consume env) db

end Grosh
