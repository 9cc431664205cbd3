import Grosh.Domain

/-!
# Descriptions, row flags and pair evidence

The pure part of the Monobank transfer detection that looks at one row or at one pair of
rows: the description vocabulary and its account constraints, the per-row flags with the
directional transitive rule, the hard IBAN consistency filter and the evidence levels.

`ibanToAccount` is the pre-resolved map from IBAN to owning account the source passes as a
dictionary; here it is a partial function.

Nothing here reads a table. What a description means depends on the account it belongs to, so the
account's properties are passed along with the row, and the rules that hold for one direction of a
payment are told apart from those that hold for both.
-/

namespace Grosh

/-- `s.startswith(p)`. -/
def startsWith (s p : String) : Bool := p.toList.isPrefixOf s.toList

/-- `p in s`. -/
def hasSubstring (s p : String) : Bool := s.toList.tails.any fun t => p.toList.isPrefixOf t

/-! ## The description guard

Monobank describes a transfer between two cards of one client by naming the kind of the other
account. The texts are a closed vocabulary, and each that is known constrains the account at the
other end. -/

/-- Account-level constraint implied by a Monobank transfer description: the type and the currency
the other account must have, as far as the text says. -/
structure DescriptionConstraint : Type where
  /-- required account type, or any -/
  type : Option String
  /-- required account currency, or any -/
  currency : Option String
  deriving DecidableEq, Repr

/-- Known income descriptions: they name the expense account, the one the money has come from. -/
def incomeMap : List (String × DescriptionConstraint) :=
  [("З гривневого рахунку ФОП", ⟨some "fop", some "UAH"⟩),
   ("З доларового рахунку ФОП", ⟨some "fop", some "USD"⟩),
   ("З єврового рахунку ФОП", ⟨some "fop", some "EUR"⟩),
   ("З доларового рахунку ФОП для переказу на картку", ⟨some "fop", some "USD"⟩),
   ("З єврового рахунку ФОП для переказу на картку", ⟨some "fop", some "EUR"⟩),
   ("З гривневого рахунку ФОП для переказу на картку", ⟨some "fop", some "UAH"⟩),
   ("З Чорної картки", ⟨some "black", none⟩),
   ("З Білої картки", ⟨some "white", none⟩),
   ("З Платинової картки", ⟨some "platinum", none⟩),
   ("З Залізної картки", ⟨some "iron", none⟩),
   ("З Жовтої картки", ⟨some "yellow", none⟩),
   ("З доларової картки", ⟨none, some "USD"⟩),
   ("З єврової картки", ⟨none, some "EUR"⟩)]

/-- Known expense descriptions: they name the income account, the one the money goes to. -/
def expenseMap : List (String × DescriptionConstraint) :=
  [("Переказ на картку", ⟨none, none⟩),
   ("На чорну картку", ⟨some "black", none⟩),
   ("На білу картку", ⟨some "white", none⟩),
   ("На платинову картку", ⟨some "platinum", none⟩),
   ("На залізну картку", ⟨some "iron", none⟩),
   ("На жовту картку", ⟨some "yellow", none⟩),
   ("На гривневий рахунок ФОП", ⟨some "fop", some "UAH"⟩),
   ("На доларовий рахунок ФОП", ⟨some "fop", some "USD"⟩),
   ("На євровий рахунок ФОП", ⟨some "fop", some "EUR"⟩),
   ("На гривневий рахунок ФОП для переказу на картку", ⟨some "fop", some "UAH"⟩),
   ("На доларовий рахунок ФОП для переказу на картку", ⟨some "fop", some "USD"⟩),
   ("На євровий рахунок ФОП для переказу на картку", ⟨some "fop", some "EUR"⟩)]

/-- `_ALL_KNOWN`: the two maps merged, their keys being disjoint. -/
def allKnown : List (String × DescriptionConstraint) := incomeMap ++ expenseMap

/-- The constraint of a known transfer description; `none` for one that is missing, empty or not in
the vocabulary. -/
def parseDescription : Option String → Option DescriptionConstraint
  | none => none
  | some d => if d = "" then none else allKnown.lookup d

/-- A transfer-like prefix or the generic phrase; the description need not be known. It is what
makes a row without a partner worth an anomaly. -/
def isTransferDescription : Option String → Bool
  | none => false
  | some d =>
    if d = "" then false
    else startsWith d "З " || startsWith d "На " || d == "Переказ на картку"

/-- The `для переказу на` family among the known descriptions: the money only passes through the
account on its way to a card. -/
def isMultiHopDescription : Option String → Bool
  | none => false
  | some d =>
    if d = "" then false
    else match parseDescription (some d) with
      | none => false
      | some _ => hasSubstring d "для переказу на"

/-- A constraint against account properties; no constraint is vacuously valid. -/
def constraintMatches (constraint : Option DescriptionConstraint)
    (accountType accountCurrency : String) : Bool :=
  match constraint with
  | none => true
  | some c =>
    (match c.type with
      | none => true
      | some t => t == accountType) &&
    (match c.currency with
      | none => true
      | some cur => cur == accountCurrency)

/-- Both sides of a pair: the income description against the expense account, the expense
description against the income account. A side that is not known says nothing. -/
def validatePairDescriptions (incomeDesc expenseDesc : Option String)
    (incomeAccountType incomeAccountCurrency : String)
    (expenseAccountType expenseAccountCurrency : String) : Bool :=
  constraintMatches (parseDescription incomeDesc) expenseAccountType expenseAccountCurrency &&
    constraintMatches (parseDescription expenseDesc) incomeAccountType incomeAccountCurrency

/-! ## Row flags -/

/-- Classification of a row's counterparty IBAN: there is none, it names the end of a chain and not
the partner, it is nobody's among the accounts of the user, or it names an account of the user. -/
inductive CpIbanStatus : Type where
  | null
  | transitive
  | unlinked
  | honest
  deriving DecidableEq, Repr

/-- The string a status serializes to. -/
def CpIbanStatus.toText : CpIbanStatus → String
  | .null => "null"
  | .transitive => "transitive"
  | .unlinked => "unlinked"
  | .honest => "honest"

/-- Diagnostic facts about one row. -/
structure RowFlags : Type where
  descriptionMatched : Bool
  multiHopDescription : Bool
  cpIbanStatus : CpIbanStatus
  deriving DecidableEq, Repr

/-- The directional transitive rule fires before the lookup matters: a multi-hop expense reports the
IBAN of the chain's end, which says nothing about the account next in the chain. -/
def classifyCpIban (direction : TransactionDirection) (cpIban : Option String)
    (multiHopDescription : Bool) (ibanToAccount : String → Option UUID) : CpIbanStatus :=
  match cpIban with
  | none => .null
  | some iban =>
    if direction = .expense ∧ multiHopDescription = true then .transitive
    else match ibanToAccount iban with
      | none => .unlinked
      | some _ => .honest

/-- The flags of a row from its description, direction and counterparty IBAN. They do not depend on
any other row, and are stored with the row. -/
def computeRowFlags (description : Option String) (direction : TransactionDirection)
    (counterpartyIban : Option String) (ibanToAccount : String → Option UUID) : RowFlags where
  descriptionMatched := (parseDescription description).isSome
  multiHopDescription := isMultiHopDescription description
  cpIbanStatus :=
    classifyCpIban direction counterpartyIban (isMultiHopDescription description) ibanToAccount

/-! ## Pair evidence -/

/-- The evidence level of a pair. -/
inductive PairEvidence : Type where
  | bilateral
  | unilateral
  | none
  deriving DecidableEq, Repr

/-- The literal a level is written as. -/
def PairEvidence.toText : PairEvidence → String
  | .bilateral => "bilateral"
  | .unilateral => "unilateral"
  | .none => "none"

/-- The IBAN, if present, resolves to the account. -/
def resolvesTo (cpIban : Option String) (accountId : UUID)
    (ibanToAccount : String → Option UUID) : Bool :=
  match cpIban with
  | none => false
  | some iban => ibanToAccount iban == some accountId

/-- The hard IBAN consistency filter: a side whose IBAN can be trusted must name the account of the
other. A candidate whose IBAN is not one of the user's cannot name it, and is out. -/
def isConsistent (incomingFlags candidateFlags : RowFlags)
    (incomingCpIban candidateCpIban : Option String)
    (incomingAccountId candidateAccountId : UUID)
    (ibanToAccount : String → Option UUID) : Bool :=
  if incomingFlags.cpIbanStatus = .honest ∧
      resolvesTo incomingCpIban candidateAccountId ibanToAccount = false then false
  else if (candidateFlags.cpIbanStatus = .honest ∨ candidateFlags.cpIbanStatus = .unlinked) ∧
      resolvesTo candidateCpIban incomingAccountId ibanToAccount = false then false
  else true

/-- This side contributes an `honest` claim pointing at the other: its IBAN is one of the user's,
and it is that of the other account. -/
def sideClaims (flags : RowFlags) (cpIban : Option String) (otherAccountId : UUID)
    (ibanToAccount : String → Option UUID) : Bool :=
  if flags.cpIbanStatus ≠ .honest then false
  else resolvesTo cpIban otherAccountId ibanToAccount

/-- The evidence of a pair by the number of sides that claim the other: both, one or none. -/
def classifyPairEvidence (incomingFlags candidateFlags : RowFlags)
    (incomingCpIban candidateCpIban : Option String)
    (incomingAccountId candidateAccountId : UUID)
    (ibanToAccount : String → Option UUID) : PairEvidence :=
  let incomingClaims := sideClaims incomingFlags incomingCpIban candidateAccountId ibanToAccount
  let candidateClaims := sideClaims candidateFlags candidateCpIban incomingAccountId ibanToAccount
  if incomingClaims && candidateClaims then .bilateral
  else if incomingClaims || candidateClaims then .unilateral
  else .none

/-! ## The metadata blocks -/

/-- The per-row sub-block `metadata.layer.transfer.row`. -/
def buildRowBlock (flags : RowFlags) : Json :=
  .obj [("description_matched", .bool flags.descriptionMatched),
    ("multi_hop_description", .bool flags.multiHopDescription),
    ("cp_iban_status", .str flags.cpIbanStatus.toText)]

/-- The per-pair sub-block `metadata.layer.transfer.pair`, identical on both legs. -/
def buildPairBlock (ibanEvidence : PairEvidence) (descriptionDecisive : Bool) : Json :=
  .obj [("iban_evidence", .str ibanEvidence.toText),
    ("description_decisive", .bool descriptionDecisive)]

end Grosh
