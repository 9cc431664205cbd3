import Grosh.Decision

/-!
# The Monobank transfer detector

The queries of the detector and `detectAndPair`, which runs inside the unit of work of
one event: the MCC and idempotency gate, the row flags, the unlinked short-circuit, the
universal candidate fetch, the consistency filter, the decision, and the claim that
updates the partner row.

`PipelineEnv` holds what the unit of work reads and does not write: users, accounts, the
injected conversion service and the physical order in which a query without `ORDER BY`
returns its rows.

The detector is the part of the unit of work that looks at the rows of other events, and the only
one that updates a row. Its queries are statements on the tables as the unit of work has left them
so far, and what they raise ends the unit of work.
-/

namespace Grosh

/-- `ConversionResult`: display amounts and the metadata of the rates used. -/
structure ConversionResult : Type where
  amounts : Currency → Option ℤ
  rateMetadata : Dict

/-- What a unit of work reads and does not write. `scan` is the order in which an unordered query
returns its rows: any permutation of them, since PostgreSQL promises none. -/
structure PipelineEnv : Type where
  /-- `users.id` -/
  users : List UUID
  /-- `accounts` -/
  accounts : List AccountProps
  /-- the injected `CurrencyConversionService.convert` -/
  convert : NormalizedTransaction → String → Except ConversionError ConversionResult
  /-- the physical order of the rows a query returns -/
  scan : List Transaction → List Transaction
  /-- a query returns each of its rows once -/
  scan_perm : ∀ rows, (scan rows).Perm rows

/-- The order of insertion is one. -/
theorem scan_id_perm (rows : List Transaction) : (id rows).Perm rows := .refl rows

/-! ## Account queries

The accounts are only read. They may differ from one unit of work to the next, so each is given its
own environment. -/

/-- `AccountRepo.find_by_iban`. -/
def findByIban (env : PipelineEnv) (iban : String) (userId : UUID) : Option AccountProps :=
  env.accounts.find? fun a => decide (a.iban = some iban ∧ a.userId = userId)

/-- `AccountRepo.get_by_id`: the one query of a run whose missing row the consumer treats as
permanent. -/
def getById (env : PipelineEnv) (accountId : UUID) : Except PipelineError AccountProps :=
  match env.accounts.find? fun a => decide (a.id = accountId) with
  | none => .error (.accountNotFound accountId)
  | some a => .ok a

/-- `AccountRepo.get_many_by_ids`, the dictionary by id. -/
def getManyByIds (env : PipelineEnv) (accountIds : List UUID) (id : UUID) :
    Option AccountProps :=
  if id ∈ accountIds then env.accounts.find? fun a => decide (a.id = id) else none

/-- Resolve each IBAN of a set to its owning account; the rest is absent. The answer is a
dictionary, so asking for an IBAN that was not in the set finds nothing. -/
def batchResolveIbans (env : PipelineEnv) (userId : UUID) (ibans : List String)
    (iban : String) : Option UUID :=
  if iban ∈ ibans then (findByIban env iban userId).map AccountProps.id else none

/-- The IBAN as a set to resolve: a missing or empty one is not looked up. -/
def ibanSet : Option String → List String
  | none => []
  | some iban => if iban = "" then [] else [iban]

/-! ## Transfer queries -/

/-- The direction of a partner: an expense is paired with an income, and an income with an
expense. -/
def oppositeDirection : TransactionDirection → TransactionDirection
  | .expense => .income
  | _ => .expense

/-- No partner is of direction zero. -/
theorem oppositeDirection_ne_zero (d : TransactionDirection) : oppositeDirection d ≠ .zero := by
  cases d <;> simp [oppositeDirection]

/-- The two-clause amount predicate, from the incoming row's side: the amount of one is the
operation amount of the other. Between accounts of one currency both clauses say the same. -/
def amountsMatch (incomingAmount : ℤ) (incomingOperationAmount : Option ℤ)
    (candAmount : ℤ) (candOperationAmount : Option ℤ) : Bool :=
  candAmount == incomingOperationAmount.getD incomingAmount ||
    candOperationAmount == some incomingAmount

/-- The `WHERE` clause of the universal fetch: an unclaimed wire transfer of the user in the other
direction, on another account, with a matching amount and at most two seconds away. -/
def matchesUniversal (tx : NormalizedTransaction) (r : Transaction) : Bool :=
  decide (r.userId = tx.userId) &&
  decide (r.direction = oppositeDirection tx.direction) &&
  decide (r.mcc = some wireTransfer) &&
  decide (r.accountId ≠ tx.accountId) &&
  r.relatedTransactionId.isNone &&
  amountsMatch tx.amountCents tx.operationAmountCents r.amountCents r.operationAmountCents &&
  decide (tx.time - 2 * second ≤ r.time ∧ r.time ≤ tx.time + 2 * second)

/-- `find_universal_candidates`; the runs of one user are serialised, so no row is locked. The query
has no `ORDER BY`, and its rows come in any order. -/
def findUniversalCandidates (env : PipelineEnv) (db : Database)
    (tx : NormalizedTransaction) : List CandidateRow :=
  (env.scan (db.transactions.rows.filter (matchesUniversal tx))).map CandidateRow.ofRow

/-- The metadata `claim_pair` writes: `layer` and `layer.transfer` are made objects where
they are missing, then `layer.transfer.pair` is set. `none` is a `jsonb_set` error. -/
def claimMetadata (metadata : Option Json) (pairMetadataBlock : Json) : Option Json :=
  let layer := metadata.bind fun m => m.get? "layer"
  let transfer := layer.bind fun l => l.get? "transfer"
  ((Json.jsonbSet (metadata.getD (.obj [])) ["layer"] (layer.getD (.obj []))).bind fun m =>
    Json.jsonbSet m ["layer", "transfer"] (transfer.getD (.obj []))).bind fun m =>
    Json.jsonbSet m ["layer", "transfer", "pair"] pairMetadataBlock

/-- The row `claim_pair` leaves, its metadata already computed. -/
def Transaction.claimed (r : Transaction) (newId : UUID) (metadata : Json) : Transaction :=
  { r with
    relatedTransactionId := some newId
    specialCategory := some .transfer
    metadata := some metadata }

@[simp] theorem Transaction.claimed_id (r : Transaction) (newId : UUID) (metadata : Json) :
    (r.claimed newId metadata).id = r.id := rfl

/-- `claim_pair`: claim the existing row as the partner of the new one. It is linked and
categorised, and its metadata gets the pair block below what is there; nothing else of it
changes. -/
def claimPair (db : Database) (existingId newId : UUID) (pairMetadataBlock : Json) :
    Except PipelineError Database :=
  match db.transactions.find? existingId with
  | none => .ok db
  | some r =>
    match claimMetadata r.metadata pairMetadataBlock with
    | none => .error .dataError
    | some metadata =>
      .ok { db with
        transactions := db.transactions.updateWhere (fun r => decide (r.id = existingId))
          (fun r => r.claimed newId metadata) (fun _ => rfl) }

/-- `delete_unpaired_anomalies_for_transactions`. -/
def deleteUnpairedAnomalies (db : Database) (txIds : List UUID) : Database :=
  { db with
    anomalies := db.anomalies.deleteWhere fun a =>
      decide (a.transactionId ∈ txIds) && a.reasonCode.isUnpaired }

/-! ## The strategy

The strategy runs in the transaction of the unit of work, so that a claim it makes is rolled back
with the row it was made for. -/

/-- `TransferResult`. -/
structure TransferResult : Type where
  specialCategory : Option SpecialCategory
  relatedTransactionId : Option UUID
  anomalies : List AnomalyRecord
  metadataBlock : Option Dict

/-- `TransferResult()`: the defaults. -/
def TransferResult.default : TransferResult := ⟨none, none, [], none⟩

/-- The consistency filter and the evidence classification over the fetched candidates. The IBANs of
the candidates are resolved together, and the answer is merged into that for the incoming row. -/
def filterAndClassify (env : PipelineEnv) (tx : NormalizedTransaction) (flags : RowFlags)
    (candidates : List CandidateRow) (incomingIbanToAccount : String → Option UUID) :
    List ScoredCandidate :=
  let newResolutions := batchResolveIbans env tx.userId
    (candidates.flatMap fun cand => ibanSet cand.counterpartyIban)
  let ibanToAccount := fun iban => (newResolutions iban).or (incomingIbanToAccount iban)
  candidates.filterMap fun cand =>
    let candFlags := computeRowFlags cand.description cand.direction cand.counterpartyIban
      ibanToAccount
    if isConsistent flags candFlags tx.counterpartyIban cand.counterpartyIban tx.accountId
        cand.accountId ibanToAccount then
      some (cand, classifyPairEvidence flags candFlags tx.counterpartyIban
        cand.counterpartyIban tx.accountId cand.accountId ibanToAccount)
    else none

/-- The unlinked-partner short-circuit: emit the row block; an anomaly on a transfer prefix outside
the known set. The partner is somebody else, so no candidate is looked for. -/
def handleUnlinked (tx : NormalizedTransaction) (flags : RowFlags) (rowBlock : Json) :
    TransferResult where
  specialCategory := none
  relatedTransactionId := none
  anomalies :=
    if !flags.descriptionMatched && isTransferDescription tx.description then
      if startsWith (tx.description.getD "") "З " then
        [Anomalies.unpairedFromDescription tx.id tx.description]
      else if startsWith (tx.description.getD "") "На " then
        [Anomalies.unpairedToDescription tx.id tx.description]
      else []
    else []
  metadataBlock := some [("row", rowBlock)]

/-- Translate the decision: claim the partner, or return the anomaly to persist. After a claim the
unpaired anomalies of both rows are deleted. -/
def applyDecision (db : Database) (tx : NormalizedTransaction) (decision : Decision)
    (rowBlock : Json) : Except PipelineError (TransferResult × Database) :=
  match decision with
  | .skip => .ok (⟨none, none, [], some [("row", rowBlock)]⟩, db)
  | .anomaly record => .ok (⟨none, none, [record], some [("row", rowBlock)]⟩, db)
  | .claim partnerId ibanEvidence descriptionDecisive canaryAnomaly =>
    let pairMetadataBlock := buildPairBlock ibanEvidence descriptionDecisive
    match claimPair db partnerId tx.id pairMetadataBlock with
    | .error e => .error e
    | .ok db =>
      .ok (⟨some .transfer, some partnerId, canaryAnomaly.toList,
          some [("row", rowBlock), ("pair", pairMetadataBlock)]⟩,
        deleteUnpairedAnomalies db [tx.id, partnerId])

/-- `MonobankTransferDetection.detect_and_pair`: the gates of the code, the direction and the id
come first, and an event they stop gets no block at all. -/
def detectAndPair (env : PipelineEnv) (db : Database) (tx : NormalizedTransaction) :
    Except PipelineError (TransferResult × Database) :=
  if tx.mcc ≠ some wireTransfer then .ok (.default, db)
  else if tx.direction ≠ .income ∧ tx.direction ≠ .expense then .ok (.default, db)
  else if db.Stored tx.id then .ok (.default, db)
  else
    let incomingIbanToAccount := batchResolveIbans env tx.userId (ibanSet tx.counterpartyIban)
    let flags := computeRowFlags tx.description tx.direction tx.counterpartyIban
      incomingIbanToAccount
    let rowBlock := buildRowBlock flags
    if flags.cpIbanStatus = .unlinked then .ok (handleUnlinked tx flags rowBlock, db)
    else
      let scored := filterAndClassify env tx flags (findUniversalCandidates env db tx)
        incomingIbanToAccount
      match getById env tx.accountId with
      | .error e => .error e
      | .ok incomingAccProps =>
        match decideTransfer tx.id tx.description incomingAccProps
            (getManyByIds env (scored.map fun c => c.1.accountId)) scored with
        | .error e => .error e
        | .ok decision => applyDecision db tx decision rowBlock

end Grosh
