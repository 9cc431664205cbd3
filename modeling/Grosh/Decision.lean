import Grosh.Classifier

/-!
# Count and decide

The pure decision `decide` over the scored candidates of an incoming row: no candidate, a
single one, or many with the bucket-locked principle — commit to the highest non-empty
evidence bucket, filter it by descriptions, never fall through to a weaker one. The
anomaly builders format the details the anomalies table stores.

`accountPropsById` is the dictionary of the candidates' accounts; a missing key is the
`KeyError` of the subscript.

The decision is a value: a claim, an anomaly or a skip, with everything the source puts into it.
What is done with it, and what it makes of the tables, is for the detector.
-/

namespace Grosh

/-- The columns of `transactions` the decision looks at. The universal fetch selects no others, so
two rows that agree on these are the same candidate. -/
structure CandidateRow : Type where
  id : UUID
  accountId : UUID
  direction : TransactionDirection
  counterpartyIban : Option String
  description : Option String
  amountCents : ℤ
  operationAmountCents : Option ℤ
  time : Timestamp
  deriving DecidableEq, Repr

/-- The projection the universal fetch selects. -/
def CandidateRow.ofRow (r : Transaction) : CandidateRow where
  id := r.id
  accountId := r.accountId
  direction := r.direction
  counterpartyIban := r.counterpartyIban
  description := r.description
  amountCents := r.amountCents
  operationAmountCents := r.operationAmountCents
  time := r.time

/-- A candidate with the evidence level it survived the consistency filter with. Candidates that the
filter drops do not reach the decision. -/
abbrev ScoredCandidate : Type := CandidateRow × PairEvidence

/-! ## Anomaly texts

The details of an anomaly are texts with the descriptions in them, as `repr` writes them. They are
part of the row that is stored, and so of what the decision returns. -/

/-- The assigned code points that are not printable: controls, format characters, private use and
the separators other than the space. `repr` escapes them; code points that are not assigned are left
out of the table. -/
def unprintable : List (ℕ × ℕ) :=
  [(0x00, 0x1f), (0x7f, 0xa0), (0xad, 0xad), (0x600, 0x605), (0x61c, 0x61c), (0x6dd, 0x6dd),
   (0x70f, 0x70f), (0x890, 0x891), (0x8e2, 0x8e2), (0x1680, 0x1680), (0x180e, 0x180e),
   (0x2000, 0x200f), (0x2028, 0x202f), (0x205f, 0x2064), (0x2066, 0x206f), (0x3000, 0x3000),
   (0xe000, 0xf8ff), (0xfeff, 0xfeff), (0xfff9, 0xfffb), (0x110bd, 0x110bd),
   (0x110cd, 0x110cd), (0x13430, 0x1343f), (0x1bca0, 0x1bca3), (0x1d173, 0x1d17a),
   (0xe0001, 0xe0001), (0xe0020, 0xe007f), (0xf0000, 0xffffd), (0x100000, 0x10fffd)]

/-- `c.isprintable()`. -/
def isPrintable (c : Char) : Bool :=
  !unprintable.any fun r => decide (r.1 ≤ c.toNat ∧ c.toNat ≤ r.2)

/-- The last `k` hexadecimal digits of a number. -/
def hexDigits : ℕ → ℕ → List Char
  | 0, _ => []
  | k + 1, n => hexDigits k (n / 16) ++ ("0123456789abcdef".toList.drop (n % 16)).take 1

/-- `repr` of a string: quoted with `'`, or with `"` where the text has a `'` and no `"`;
the quote, the backslash and what is not printable are escaped. -/
def pyRepr (s : String) : String :=
  let cs := s.toList
  let quote := if cs.contains '\'' && !cs.contains '"' then '"' else '\''
  let escape := fun c : Char =>
    if c = quote then ['\\', c]
    else if c = '\\' then ['\\', '\\']
    else if c = '\n' then ['\\', 'n']
    else if c = '\r' then ['\\', 'r']
    else if c = '\t' then ['\\', 't']
    else if isPrintable c then [c]
    else if c.toNat < 0x100 then ['\\', 'x'] ++ hexDigits 2 c.toNat
    else if c.toNat < 0x10000 then ['\\', 'u'] ++ hexDigits 4 c.toNat
    else ['\\', 'U'] ++ hexDigits 8 c.toNat
  String.ofList (quote :: (cs.flatMap escape ++ [quote]))

/-- `repr` of an optional string. -/
def pyReprOpt : Option String → String
  | none => "None"
  | some s => pyRepr s

namespace Anomalies

/-- The income side has a transfer prefix but no partner yet. The anomaly names no candidate, and a
partner that comes later resolves it. -/
def unpairedFromDescription (transactionId : UUID) (description : Option String) :
    AnomalyRecord where
  transactionId := transactionId
  candidateIds := []
  reasonCode := .unpairedFromDescription
  reasonDetail := some <|
    "Income leg with transfer-prefixed description " ++ pyReprOpt description ++
      " found no partner candidate within the ±2s window."

/-- The expense side has a transfer prefix but no partner yet. The anomaly names no candidate, and a
partner that comes later resolves it. -/
def unpairedToDescription (transactionId : UUID) (description : Option String) :
    AnomalyRecord where
  transactionId := transactionId
  candidateIds := []
  reasonCode := .unpairedToDescription
  reasonDetail := some <|
    "Expense leg with transfer-prefixed description " ++ pyReprOpt description ++
      " found no partner candidate within the ±2s window."

/-- `type/currency` of an account. -/
def accSummary (acc : AccountProps) : String := acc.type ++ "/" ++ acc.currencyCode

/-- The pair was claimed but its descriptions disagree with the accounts: the canary that goes with
a claim, for somebody to look at. -/
def descriptionConsistencyMismatch (transactionId partnerId : UUID)
    (incomeDesc expenseDesc : Option String) (incomeAccProps expenseAccProps : AccountProps) :
    AnomalyRecord where
  transactionId := transactionId
  candidateIds := [partnerId]
  reasonCode := .descriptionConsistencyMismatch
  reasonDetail := some <|
    "Pair claimed but descriptions disagree: income=" ++ pyReprOpt incomeDesc ++ " on " ++
      accSummary incomeAccProps ++ ", expense=" ++ pyReprOpt expenseDesc ++ " on " ++
      accSummary expenseAccProps ++ "."

/-- The `none` bucket, every candidate rejected by its description: without any evidence by IBAN the
description has the last word. -/
def descriptionAccountMismatch (transactionId : UUID) (rejectedCandidateIds : List UUID)
    (incomingDescription : Option String) (bucketEvidence : PairEvidence) :
    AnomalyRecord where
  transactionId := transactionId
  candidateIds := rejectedCandidateIds
  reasonCode := .descriptionAccountMismatch
  reasonDetail := some <|
    "Description " ++ pyReprOpt incomingDescription ++ " rejected all " ++
      toString rejectedCandidateIds.length ++ " candidate(s) in the " ++
      pyRepr bucketEvidence.toText ++ " evidence bucket."

/-- The pair could not be picked: of the bucket none or several candidates have survived the
descriptions. -/
def ambiguousPairMatch (transactionId : UUID) (bucketCandidateIds : List UUID)
    (bucketEvidence : PairEvidence) (survivingCount : ℕ) : AnomalyRecord where
  transactionId := transactionId
  candidateIds := bucketCandidateIds
  reasonCode := .ambiguousPairMatch
  reasonDetail := some <|
    "Bucket evidence=" ++ pyRepr bucketEvidence.toText ++ " with " ++
      toString bucketCandidateIds.length ++ " candidate(s); " ++
      (if survivingCount = 0 then "description filter eliminated all"
        else toString survivingCount ++ " candidate(s) survived description filter") ++ "."

end Anomalies

/-! ## The decision

The incoming row is given by its id, its description and its account; the candidates come with the
evidence that their IBANs give. -/

/-- The outcome of `decide`: a claim of one candidate, an anomaly, or neither. A claim may carry an
anomaly of its own, the canary. -/
inductive Decision : Type where
  /-- the pair is claimed; the partner row will be updated -/
  | claim (partnerId : UUID) (ibanEvidence : PairEvidence) (descriptionDecisive : Bool)
      (canaryAnomaly : Option AnomalyRecord)
  /-- the pair could not be claimed -/
  | anomaly (record : AnomalyRecord)
  /-- nothing to do -/
  | skip
  deriving DecidableEq, Repr

/-- Route the two descriptions and accounts by the partner's direction: (income description, expense
description, income account, expense account). An incoming row pairs with rows of the other
direction only, so the partner's direction settles both. -/
def splitByDirection (partner : CandidateRow) (partnerAccProps : AccountProps)
    (incomingDescription : Option String) (incomingAccProps : AccountProps) :
    Option String × Option String × AccountProps × AccountProps :=
  if partner.direction = .income then
    (partner.description, incomingDescription, partnerAccProps, incomingAccProps)
  else (incomingDescription, partner.description, incomingAccProps, partnerAccProps)

/-- The description verdict of a pair; two unknown descriptions are vacuously consistent. Where at
least one of them is of a known form, both have to fit the accounts. -/
def descriptionsConsistent (partner : CandidateRow) (partnerAccProps : AccountProps)
    (incomingDescription : Option String) (incomingAccProps : AccountProps) : Bool :=
  let (incomeDesc, expenseDesc, incomeProps, expenseProps) :=
    splitByDirection partner partnerAccProps incomingDescription incomingAccProps
  if (parseDescription incomeDesc).isNone && (parseDescription expenseDesc).isNone then true
  else validatePairDescriptions incomeDesc expenseDesc incomeProps.type
    incomeProps.currencyCode expenseProps.type expenseProps.currencyCode

/-- The canary of an inconsistent claim. It does not stop the claim: the evidence has chosen the
partner already. -/
def buildCanaryIfInconsistent (transactionId : UUID) (partner : CandidateRow)
    (partnerAccProps : AccountProps) (incomingDescription : Option String)
    (incomingAccProps : AccountProps) : Option AnomalyRecord :=
  if descriptionsConsistent partner partnerAccProps incomingDescription incomingAccProps then none
  else
    let (incomeDesc, expenseDesc, incomeProps, expenseProps) :=
      splitByDirection partner partnerAccProps incomingDescription incomingAccProps
    some (Anomalies.descriptionConsistencyMismatch transactionId partner.id incomeDesc
      expenseDesc incomeProps expenseProps)

/-- No candidate: an `unpaired_*` anomaly on the two prefixes, otherwise nothing. -/
def decideCountZero (transactionId : UUID) (incomingDescription : Option String) : Decision :=
  match incomingDescription with
  | none => .skip
  | some d =>
    if d = "" then .skip
    else if startsWith d "З " then
      .anomaly (Anomalies.unpairedFromDescription transactionId (some d))
    else if startsWith d "На " then
      .anomaly (Anomalies.unpairedToDescription transactionId (some d))
    else .skip

section Decide

variable (transactionId : UUID) (incomingDescription : Option String)
  (incomingAccProps : AccountProps) (accountPropsById : UUID → Option AccountProps)

/-- The single-partner path: claim, with a canary on a description mismatch. It is taken for a lone
candidate and for the one of a bucket that is left by its descriptions. -/
def decideSingle (partner : CandidateRow) (evidence : PairEvidence)
    (descriptionDecisive : Bool) : Except PipelineError Decision :=
  match accountPropsById partner.accountId with
  | none => .error .keyError
  | some partnerAccProps =>
    .ok (.claim partner.id evidence descriptionDecisive
      (buildCanaryIfInconsistent transactionId partner partnerAccProps incomingDescription
        incomingAccProps))

/-- The bucket members of one level. -/
def bucketOf (candidates : List ScoredCandidate) (level : PairEvidence) : List CandidateRow :=
  (candidates.filter fun c => decide (c.2 = level)).map Prod.fst

/-- The highest non-empty evidence bucket, scanning the priority order: candidates confirmed by the
IBANs of both sides, then by one, then by none. The weaker buckets are not looked at again. -/
def selectBucket (candidates : List ScoredCandidate) : PairEvidence × List CandidateRow :=
  if bucketOf candidates .bilateral ≠ [] then (.bilateral, bucketOf candidates .bilateral)
  else if bucketOf candidates .unilateral ≠ [] then
    (.unilateral, bucketOf candidates .unilateral)
  else (.none, bucketOf candidates .none)

/-- The bucket members whose description is consistent with the incoming row's, in the order of the
bucket. A candidate whose account is not in the dictionary raises. -/
def descriptionSurvivors : List CandidateRow → Except PipelineError (List CandidateRow)
  | [] => .ok []
  | cand :: bucket =>
    match accountPropsById cand.accountId with
    | none => .error .keyError
    | some props =>
      (descriptionSurvivors bucket).map fun survivors =>
        if descriptionsConsistent cand props incomingDescription incomingAccProps then
          cand :: survivors
        else survivors

/-- The many-candidates path: one survivor of the chosen bucket is claimed; none or several end in
an anomaly that names the whole bucket. A weaker bucket is never tried. -/
def decideMany (candidates : List ScoredCandidate) : Except PipelineError Decision :=
  let (bucketEvidence, bucket) := selectBucket candidates
  match descriptionSurvivors incomingDescription incomingAccProps accountPropsById bucket with
  | .error e => .error e
  | .ok [partner] =>
    decideSingle transactionId incomingDescription incomingAccProps accountPropsById partner
      bucketEvidence (decide (1 < bucket.length))
  | .ok survivors =>
    if survivors.length = 0 ∧ bucketEvidence = .none then
      .ok (.anomaly (Anomalies.descriptionAccountMismatch transactionId
        (bucket.map CandidateRow.id) incomingDescription bucketEvidence))
    else
      .ok (.anomaly (Anomalies.ambiguousPairMatch transactionId
        (bucket.map CandidateRow.id) bucketEvidence survivors.length))

/-- Decide what to do with the incoming row given its candidates: nothing or an `unpaired_*` anomaly
without one, a claim of a lone one, and the buckets for more. -/
def decideTransfer (candidates : List ScoredCandidate) : Except PipelineError Decision :=
  match candidates with
  | [] => .ok (decideCountZero transactionId incomingDescription)
  | [(cand, evidence)] =>
    decideSingle transactionId incomingDescription incomingAccProps accountPropsById cand
      evidence false
  | candidates =>
    decideMany transactionId incomingDescription incomingAccProps accountPropsById candidates

/-! ### What a decision says

A claim names a member of the candidate list with the evidence it was scored with, and
every anomaly is stamped with the incoming id. -/

variable {transactionId incomingDescription incomingAccProps accountPropsById}

/-- The description verdict of a candidate whose account is in the dictionary. It turns the filter
that may raise into a plain predicate. -/
def candidateConsistent (incomingDescription : Option String) (incomingAccProps : AccountProps)
    (accountPropsById : UUID → Option AccountProps) (cand : CandidateRow) : Bool :=
  match accountPropsById cand.accountId with
  | none => false
  | some props => descriptionsConsistent cand props incomingDescription incomingAccProps

/-- The description filter is a filter, and raises only on a missing account. -/
theorem descriptionSurvivors_eq {bucket survivors : List CandidateRow}
    (h : descriptionSurvivors incomingDescription incomingAccProps accountPropsById bucket =
      .ok survivors) :
    survivors = bucket.filter
      (candidateConsistent incomingDescription incomingAccProps accountPropsById) := by
  induction bucket generalizing survivors with
  | nil =>
    rw [descriptionSurvivors] at h
    cases h
    rfl
  | cons cand bucket ih =>
    rw [descriptionSurvivors] at h
    rcases hp : accountPropsById cand.accountId with _ | props
    · rw [hp] at h
      cases h
    · rw [hp] at h
      rcases hs : descriptionSurvivors incomingDescription incomingAccProps accountPropsById
        bucket with e | rest
      · simp only [hs, Except.map] at h
        cases h
      · simp only [hs, Except.map, Except.ok.injEq] at h
        rw [← h, ih hs, List.filter_cons]
        simp only [candidateConsistent, hp]

theorem descriptionSurvivors_ok {bucket : List CandidateRow}
    (h : ∀ c ∈ bucket, (accountPropsById c.accountId).isSome) :
    ∃ survivors, descriptionSurvivors incomingDescription incomingAccProps accountPropsById
      bucket = .ok survivors := by
  induction bucket with
  | nil => exact ⟨[], rfl⟩
  | cons cand bucket ih =>
    obtain ⟨rest, hrest⟩ := ih fun c hc => h c (List.mem_cons_of_mem _ hc)
    obtain ⟨props, hp⟩ := Option.isSome_iff_exists.mp (h cand (List.mem_cons_self ..))
    rw [descriptionSurvivors, hp, hrest]
    exact ⟨_, rfl⟩

theorem mem_bucketOf {candidates : List ScoredCandidate} {level : PairEvidence}
    {c : CandidateRow} : c ∈ bucketOf candidates level ↔ (c, level) ∈ candidates := by
  simp only [bucketOf, List.mem_map, List.mem_filter, decide_eq_true_eq]
  refine ⟨?_, ?_⟩
  · rintro ⟨⟨c', level'⟩, ⟨hmem, rfl⟩, rfl⟩
    exact hmem
  · intro hmem
    exact ⟨(c, level), ⟨hmem, rfl⟩, rfl⟩

/-- The chosen bucket is the bucket of its level. -/
theorem selectBucket_snd (candidates : List ScoredCandidate) :
    (selectBucket candidates).2 = bucketOf candidates (selectBucket candidates).1 := by
  simp only [selectBucket]
  split
  · rfl
  · split <;> rfl

theorem decideSingle_cases {partner : CandidateRow} {evidence : PairEvidence} {dd : Bool}
    {d : Decision}
    (h : decideSingle transactionId incomingDescription incomingAccProps accountPropsById
      partner evidence dd = .ok d) :
    ∃ props, accountPropsById partner.accountId = some props ∧
      d = .claim partner.id evidence dd (buildCanaryIfInconsistent transactionId partner props
        incomingDescription incomingAccProps) := by
  rw [decideSingle] at h
  rcases hp : accountPropsById partner.accountId with _ | props
  · rw [hp] at h
    cases h
  · rw [hp] at h
    exact ⟨props, rfl, (Except.ok.inj h).symm⟩

/-- The canary is stamped with the incoming id and is not auto-resolvable. -/
theorem canary_stamp {partner : CandidateRow} {props : AccountProps} {a : AnomalyRecord}
    (h : buildCanaryIfInconsistent transactionId partner props incomingDescription
      incomingAccProps = some a) :
    a.transactionId = transactionId ∧ a.reasonCode = .descriptionConsistencyMismatch := by
  simp only [buildCanaryIfInconsistent] at h
  split at h
  · cases h
  · obtain rfl := Option.some.inj h
    exact ⟨rfl, rfl⟩

theorem decideCountZero_stamp {a : AnomalyRecord}
    (h : decideCountZero transactionId incomingDescription = .anomaly a) :
    a.transactionId = transactionId := by
  simp only [decideCountZero] at h
  split at h
  · cases h
  · split at h
    · cases h
    · split at h
      · obtain rfl := Decision.anomaly.inj h
        rfl
      · split at h
        · obtain rfl := Decision.anomaly.inj h
          rfl
        · cases h

theorem decideCountZero_ne_claim {pid : UUID} {ev : PairEvidence} {dd : Bool}
    {canary : Option AnomalyRecord} :
    decideCountZero transactionId incomingDescription ≠ .claim pid ev dd canary := by
  simp only [decideCountZero]
  split
  · exact Decision.noConfusion
  · split
    · exact Decision.noConfusion
    · split
      · exact Decision.noConfusion
      · split <;> exact Decision.noConfusion

/-- The many-candidates path: a claim of a bucket member with the evidence of the bucket, or one
anomaly, stamped with the incoming id. -/
theorem decideMany_cases {candidates : List ScoredCandidate} {d : Decision}
    (h : decideMany transactionId incomingDescription incomingAccProps accountPropsById
      candidates = .ok d) :
    (∃ partner ∈ (selectBucket candidates).2, ∃ dd props,
      d = .claim partner.id (selectBucket candidates).1 dd (buildCanaryIfInconsistent
        transactionId partner props incomingDescription incomingAccProps)) ∨
    ∃ a, d = .anomaly a ∧ a.transactionId = transactionId := by
  simp only [decideMany] at h
  rcases hsel : selectBucket candidates with ⟨level, bucket⟩
  rw [hsel] at h
  simp only at h
  split at h
  · cases h
  · next partner hs =>
    left
    obtain ⟨props, -, rfl⟩ := decideSingle_cases h
    refine ⟨partner, ?_, _, props, rfl⟩
    have hmem : partner ∈ [partner] := List.mem_singleton_self partner
    rw [descriptionSurvivors_eq hs] at hmem
    exact (List.mem_filter.mp hmem).1
  · right
    split at h <;> exact ⟨_, (Except.ok.inj h).symm, rfl⟩

/-- What a decision says about its input: a claim names a scored candidate, with a canary
that is not auto-resolvable; an anomaly carries the incoming id. -/
theorem decideTransfer_cases {candidates : List ScoredCandidate} {d : Decision}
    (h : decideTransfer transactionId incomingDescription incomingAccProps accountPropsById
      candidates = .ok d) :
    (∃ c ev dd canary, (c, ev) ∈ candidates ∧ d = .claim c.id ev dd canary ∧
      ∀ a, canary = some a → a.transactionId = transactionId ∧
        a.reasonCode = .descriptionConsistencyMismatch) ∨
    (∃ a, d = .anomaly a ∧ a.transactionId = transactionId) ∨ d = .skip := by
  simp only [decideTransfer] at h
  split at h
  · obtain rfl := Except.ok.inj h
    rcases hd : decideCountZero transactionId incomingDescription with
      ⟨pid, ev, dd, canary⟩ | a | _
    · exact absurd hd decideCountZero_ne_claim
    · exact Or.inr (Or.inl ⟨a, rfl, decideCountZero_stamp hd⟩)
    · exact Or.inr (Or.inr rfl)
  · next c ev =>
    obtain ⟨props, -, rfl⟩ := decideSingle_cases h
    exact Or.inl ⟨c, ev, _, _, List.mem_singleton_self _, rfl, fun a ha => canary_stamp ha⟩
  · rcases decideMany_cases h with ⟨c, hc, dd, props, rfl⟩ | ⟨a, rfl, ha⟩
    · rw [selectBucket_snd] at hc
      exact Or.inl ⟨c, _, dd, _, mem_bucketOf.mp hc, rfl, fun a ha => canary_stamp ha⟩
    · exact Or.inr (Or.inl ⟨a, rfl, ha⟩)

/-- With every candidate's account in the dictionary, the decision does not raise. -/
theorem decideTransfer_ok {candidates : List ScoredCandidate}
    (h : ∀ c ∈ candidates, (accountPropsById c.1.accountId).isSome) :
    ∃ d, decideTransfer transactionId incomingDescription incomingAccProps accountPropsById
      candidates = .ok d := by
  have hsingle : ∀ (c : CandidateRow) (ev : PairEvidence) (dd : Bool),
      (accountPropsById c.accountId).isSome →
      ∃ d, decideSingle transactionId incomingDescription incomingAccProps accountPropsById c
        ev dd = .ok d := by
    intro c ev dd hc
    obtain ⟨props, hp⟩ := Option.isSome_iff_exists.mp hc
    rw [decideSingle, hp]
    exact ⟨_, rfl⟩
  simp only [decideTransfer]
  split
  · exact ⟨_, rfl⟩
  · next c ev => exact hsingle c ev false (h _ (List.mem_singleton_self _))
  · simp only [decideMany]
    rcases hsel : selectBucket candidates with ⟨level, bucket⟩
    have hbucket : ∀ c ∈ bucket, (c, level) ∈ candidates := by
      intro c hc
      have hb := selectBucket_snd candidates
      rw [hsel] at hb
      rw [show bucket = bucketOf candidates level from hb] at hc
      exact mem_bucketOf.mp hc
    obtain ⟨survivors, hs⟩ : ∃ survivors, descriptionSurvivors incomingDescription
        incomingAccProps accountPropsById bucket = .ok survivors :=
      descriptionSurvivors_ok fun c hc => h _ (hbucket c hc)
    simp only [hs]
    split
    · next he => cases he
    · next partner he =>
      have hmem : partner ∈ survivors := by
        rw [Except.ok.inj he]
        exact List.mem_singleton_self partner
      rw [descriptionSurvivors_eq hs] at hmem
      exact hsingle partner level _ (h _ (hbucket partner (List.mem_filter.mp hmem).1))
    · split <;> exact ⟨_, rfl⟩

end Decide

end Grosh
