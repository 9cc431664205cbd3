import Grosh.CandidateOrder

/-!
# What the decision is for

The specification of `decide`, said without its branches: which candidate is picked, when the
result is decisive by description, when there is a canary, and what is returned where nothing
can be picked.

A decision of the source is found by cases: none, one or many candidates, then the buckets from the
strongest to the weakest, then the descriptions. The specification says the same of the list of
candidates as a whole, so that it can be read without following the branches, and it covers lists of
any length in which ids may repeat.

* `Picks` — the only candidate, or of several the one member of the highest-ranked evidence
  bucket whose description is consistent with the incoming row's.
* `decideTransfer_meets_spec` — `decide` claims the candidate that is picked, and returns the
  anomaly or the skip of the specification where none is; a lower bucket is never consulted.
-/

namespace Grosh

variable {transactionId : UUID} {incomingDescription : Option String}
  {incomingAccProps : AccountProps} {accountPropsById : UUID → Option AccountProps}
  {candidates : List ScoredCandidate} {level : PairEvidence} {consistent : CandidateRow → Bool}

/-! ## The specification

What the decision is for can be said without its branches: there is at most one candidate it may
pick, and the rest of the outcome is determined by that candidate or by its absence. -/

/-- `bilateral > unilateral > none`: the order in which the buckets are scanned, as a number. -/
def PairEvidence.rank : PairEvidence → ℕ
  | .bilateral => 2
  | .unilateral => 1
  | .none => 0

/-- The level of the highest-ranked bucket that is not empty. There is exactly one as soon as there
is a candidate. -/
structure IsHighest (candidates : List ScoredCandidate) (level : PairEvidence) : Prop where
  nonempty : bucketOf candidates level ≠ []
  highest : ∀ level', bucketOf candidates level' ≠ [] → level'.rank ≤ level.rank

/-- The candidate to claim, with its evidence. Of several candidates a description can only choose
among the members of the highest bucket, never between buckets. -/
inductive Picks (consistent : CandidateRow → Bool) (candidates : List ScoredCandidate) :
    PairEvidence → CandidateRow → Prop where
  /-- the only candidate, whatever its description -/
  | single {c : CandidateRow} {level : PairEvidence} :
      candidates = [(c, level)] → Picks consistent candidates level c
  /-- of several, the only consistent member of the highest bucket -/
  | bucket {c : CandidateRow} {level : PairEvidence} : 2 ≤ candidates.length →
      IsHighest candidates level → (bucketOf candidates level).filter consistent = [c] →
      Picks consistent candidates level c

/-- A description with one of the two transfer prefixes. -/
def HasTransferPrefix (description : Option String) : Prop :=
  ∃ d, description = some d ∧ (startsWith d "З " = true ∨ startsWith d "На " = true)

/-- What a decision over the candidates has to be: which claim, if one, decisive by what and with
which canary, and which anomaly otherwise. -/
structure DecisionSpec (incomingDescription : Option String) (consistent : CandidateRow → Bool)
    (candidates : List ScoredCandidate) (d : Decision) : Prop where
  /-- a candidate that is picked is claimed -/
  picked : ∀ level c, Picks consistent candidates level c →
    ∃ dd canary, d = .claim c.id level dd canary
  /-- what is claimed was picked; it is decisive by description if its bucket had another
  member, and has a canary if it is the only candidate and inconsistent -/
  claimed : ∀ partnerId level dd canary, d = .claim partnerId level dd canary →
    ∃ c, Picks consistent candidates level c ∧ partnerId = c.id ∧
      (dd = true ↔ 1 < (bucketOf candidates level).length) ∧
      (canary.isSome = true ↔ candidates.length = 1 ∧ consistent c = false)
  /-- without a candidate, a transfer prefix is an `unpaired_*` anomaly … -/
  unpaired : candidates = [] →
    ((∃ a, d = .anomaly a ∧ a.reasonCode.isUnpaired = true) ↔ HasTransferPrefix incomingDescription)
  /-- … and anything else is skipped -/
  skipped : candidates = [] → (d = .skip ↔ ¬ HasTransferPrefix incomingDescription)
  /-- several candidates and none picked: one anomaly with the ids of the highest bucket -/
  unclaimed : 2 ≤ candidates.length → (∀ level c, ¬ Picks consistent candidates level c) →
    ∃ a level, d = .anomaly a ∧ IsHighest candidates level ∧
      a.candidateIds = (bucketOf candidates level).map CandidateRow.id ∧
      (a.reasonCode = .descriptionAccountMismatch ↔
        level = .none ∧ ∀ c ∈ bucketOf candidates level, consistent c = false) ∧
      (a.reasonCode = .ambiguousPairMatch ↔
        ¬ (level = .none ∧ ∀ c ∈ bucketOf candidates level, consistent c = false))

/-! ## The highest bucket -/

theorem isHighest_unique {level' : PairEvidence} (h : IsHighest candidates level)
    (h' : IsHighest candidates level') : level = level' := by
  have hle := h.highest level' h'.nonempty
  have hge := h'.highest level h.nonempty
  cases level <;> cases level' <;> first | rfl | simp [PairEvidence.rank] at hle hge

/-- A candidate is in the bucket of its level, so some bucket is not empty. -/
theorem isHighest_selectBucket (h : candidates ≠ []) :
    IsHighest candidates (selectBucket candidates).1 := by
  by_cases hb : bucketOf candidates .bilateral = []
  swap
  · rw [selectBucket, if_pos hb]
    exact ⟨hb, fun level' _ => by cases level' <;> simp [PairEvidence.rank]⟩
  by_cases hu : bucketOf candidates .unilateral = []
  swap
  · rw [selectBucket, if_neg (not_not.mpr hb), if_pos hu]
    refine ⟨hu, fun level' hne => ?_⟩
    cases level' with
    | bilateral => exact absurd hb hne
    | unilateral => exact le_rfl
    | none => exact Nat.zero_le _
  rw [selectBucket, if_neg (not_not.mpr hb), if_neg (not_not.mpr hu)]
  refine ⟨?_, fun level' hne => ?_⟩
  · obtain ⟨⟨c, level'⟩, hc⟩ := List.exists_mem_of_ne_nil candidates h
    have hmem := mem_bucketOf.mpr hc
    cases level' with
    | bilateral => rw [hb] at hmem; cases hmem
    | unilateral => rw [hu] at hmem; cases hmem
    | none => exact List.ne_nil_of_mem hmem
  · cases level' with
    | bilateral => exact absurd hb hne
    | unilateral => exact absurd hu hne
    | none => exact le_rfl

/-- The bucket that is selected is the highest one: scanning the levels in their order finds what
the specification calls the highest. -/
theorem selectBucket_of_isHighest (h : IsHighest candidates level) :
    selectBucket candidates = (level, bucketOf candidates level) := by
  have hne : candidates ≠ [] := by
    rintro rfl
    exact h.nonempty rfl
  obtain rfl := isHighest_unique h (isHighest_selectBucket hne)
  rw [← selectBucket_snd]

theorem bucketOf_singleton (c : CandidateRow) : bucketOf [(c, level)] level = [c] := by
  simp [bucketOf]

/-! ## The three paths -/

theorem buildCanary_isSome {partner : CandidateRow} {props : AccountProps}
    (hp : accountPropsById partner.accountId = some props) :
    (buildCanaryIfInconsistent transactionId partner props incomingDescription
        incomingAccProps).isSome = true ↔
      candidateConsistent incomingDescription incomingAccProps accountPropsById partner =
        false := by
  simp only [buildCanaryIfInconsistent, candidateConsistent, hp]
  rcases descriptionsConsistent partner props incomingDescription incomingAccProps with _ | _
  · exact iff_of_true rfl rfl
  · exact iff_of_false Bool.false_ne_true fun h => by cases h

theorem decideCountZero_unpaired_iff (transactionId : UUID)
    (incomingDescription : Option String) :
    (∃ a, decideCountZero transactionId incomingDescription = .anomaly a ∧
      a.reasonCode.isUnpaired = true) ↔ HasTransferPrefix incomingDescription := by
  rcases incomingDescription with _ | d
  · refine iff_of_false ?_ ?_
    · rintro ⟨_, h, -⟩
      cases h
    · rintro ⟨_, h, -⟩
      cases h
  by_cases hd : d = ""
  · subst hd
    refine iff_of_false ?_ ?_
    · rintro ⟨_, h, -⟩
      cases h
    · rintro ⟨_, h, hp⟩
      obtain rfl := Option.some.inj h
      exact hp.elim (by decide) (by decide)
  simp only [decideCountZero, if_neg hd]
  by_cases hfrom : startsWith d "З " = true
  · rw [if_pos hfrom]
    exact iff_of_true ⟨_, rfl, rfl⟩ ⟨d, rfl, Or.inl hfrom⟩
  rw [if_neg hfrom]
  by_cases hto : startsWith d "На " = true
  · rw [if_pos hto]
    exact iff_of_true ⟨_, rfl, rfl⟩ ⟨d, rfl, Or.inr hto⟩
  rw [if_neg hto]
  refine iff_of_false ?_ ?_
  · rintro ⟨_, h, -⟩
    cases h
  · rintro ⟨_, h, hp⟩
    obtain rfl := Option.some.inj h
    exact hp.elim hfrom hto

/-- Without a candidate the outcome is an `unpaired_*` anomaly or a skip. -/
theorem decideCountZero_cases (transactionId : UUID) (incomingDescription : Option String) :
    decideCountZero transactionId incomingDescription = .skip ∨
      ∃ a, decideCountZero transactionId incomingDescription = .anomaly a ∧
        a.reasonCode.isUnpaired = true := by
  rcases incomingDescription with _ | d
  · exact Or.inl rfl
  simp only [decideCountZero]
  split
  · exact Or.inl rfl
  split
  · exact Or.inr ⟨_, rfl, rfl⟩
  split
  · exact Or.inr ⟨_, rfl, rfl⟩
  · exact Or.inl rfl

theorem decisionSpec_nil :
    DecisionSpec incomingDescription consistent []
      (decideCountZero transactionId incomingDescription) where
  picked := by
    rintro level c (hnil | ⟨hlen, -, -⟩)
    · cases hnil
    · cases hlen
  claimed := fun _ _ _ _ h => absurd h decideCountZero_ne_claim
  unpaired := fun _ => decideCountZero_unpaired_iff _ _
  skipped := by
    intro _
    rw [← decideCountZero_unpaired_iff transactionId]
    rcases decideCountZero_cases transactionId incomingDescription with h | ⟨a, h, ha⟩
    · rw [h]
      apply iff_of_true rfl
      rintro ⟨_, h', -⟩
      cases h'
    · rw [h]
      exact iff_of_false (fun h' => by cases h') (not_not.mpr ⟨a, rfl, ha⟩)
  unclaimed := fun h => absurd h (by decide)

/-- The single candidate is claimed. -/
theorem decisionSpec_single {c : CandidateRow} {d : Decision}
    (h : decideSingle transactionId incomingDescription incomingAccProps accountPropsById c level
      false = .ok d) :
    DecisionSpec incomingDescription
      (candidateConsistent incomingDescription incomingAccProps accountPropsById) [(c, level)]
      d := by
  obtain ⟨props, hp, rfl⟩ := decideSingle_cases h
  refine ⟨?_, ?_, fun hnil => ?_, fun hnil => ?_, fun hlen => ?_⟩
  · rintro level' c' (heq | ⟨hlen, -, -⟩)
    · obtain ⟨rfl, rfl⟩ := Prod.mk.inj (List.cons.inj heq).1
      exact ⟨_, _, rfl⟩
    · exact absurd hlen (by simp)
  · intro pid level' dd canary heq
    obtain ⟨rfl, rfl, rfl, rfl⟩ := Decision.claim.inj heq
    refine ⟨c, .single rfl, rfl, ?_, ?_⟩
    · rw [bucketOf_singleton]
      exact iff_of_false Bool.false_ne_true (lt_irrefl 1)
    · rw [buildCanary_isSome hp]
      exact (and_iff_right rfl).symm
  · cases hnil
  · cases hnil
  · exact absurd hlen (by simp)

/-! ## Several candidates -/

/-- Of several candidates only a bucket member is picked. -/
theorem picks_iff_of_many {c : CandidateRow} {level' : PairEvidence}
    (hlen : 2 ≤ candidates.length) (h : IsHighest candidates level) :
    Picks consistent candidates level' c ↔
      level' = level ∧ (bucketOf candidates level).filter consistent = [c] := by
  constructor
  · rintro (heq | ⟨-, hhigh, hfilter⟩)
    · rw [heq] at hlen
      exact absurd hlen (by simp)
    · obtain rfl := isHighest_unique hhigh h
      exact ⟨rfl, hfilter⟩
  · rintro ⟨rfl, hfilter⟩
    exact .bucket hlen h hfilter

/-- The anomaly of the many-candidates path lists the bucket, under one of two reasons: which of
them, the level of the bucket and the number of survivors say. -/
theorem manyAnomaly_reason (transactionId : UUID) (incomingDescription : Option String)
    (level : PairEvidence) (bucket survivors : List CandidateRow) :
    (manyAnomaly transactionId incomingDescription level bucket survivors).candidateIds =
        bucket.map CandidateRow.id ∧
      ((manyAnomaly transactionId incomingDescription level bucket survivors).reasonCode =
        .descriptionAccountMismatch ↔ level = .none ∧ survivors = []) ∧
      ((manyAnomaly transactionId incomingDescription level bucket survivors).reasonCode =
        .ambiguousPairMatch ↔ ¬ (level = .none ∧ survivors = [])) := by
  simp only [manyAnomaly, List.length_eq_zero_iff, and_comm (a := survivors = [])]
  by_cases h : level = .none ∧ survivors = []
  · rw [if_pos h]
    exact ⟨rfl, iff_of_true rfl h, iff_of_false (fun h' => by cases h') (not_not.mpr h)⟩
  · rw [if_neg h]
    exact ⟨rfl, iff_of_false (fun h' => by cases h') h, iff_of_true rfl h⟩

/-- **What the many-candidates path does**: the only consistent member of the highest bucket is
claimed, and where there is none, or more than one, the bucket becomes an anomaly. -/
theorem decideMany_outcome {d : Decision} (hne : candidates ≠ [])
    (h : decideMany transactionId incomingDescription incomingAccProps accountPropsById
      candidates = .ok d) :
    ∃ level survivors, IsHighest candidates level ∧
      survivors = (bucketOf candidates level).filter
        (candidateConsistent incomingDescription incomingAccProps accountPropsById) ∧
      ((∃ c props, survivors = [c] ∧ accountPropsById c.accountId = some props ∧
          d = .claim c.id level (decide (1 < (bucketOf candidates level).length))
            (buildCanaryIfInconsistent transactionId c props incomingDescription
              incomingAccProps)) ∨
        (∀ c, survivors ≠ [c]) ∧ d = .anomaly (manyAnomaly transactionId incomingDescription
          level (bucketOf candidates level) survivors)) := by
  have hhigh := isHighest_selectBucket hne
  generalize (selectBucket candidates).1 = level at hhigh
  have hsel := selectBucket_of_isHighest hhigh
  obtain ⟨survivors, hs⟩ := exists_survivors h
  rw [decideMany_eq hs, hsel] at h
  rw [hsel] at hs
  refine ⟨level, survivors, hhigh, descriptionSurvivors_eq hs, ?_⟩
  cases survivors with
  | nil => exact .inr ⟨(fun c hc => by cases hc), (Except.ok.inj h).symm⟩
  | cons c rest =>
    cases rest with
    | nil =>
      obtain ⟨props, hp, rfl⟩ := decideSingle_cases h
      exact .inl ⟨c, props, rfl, hp, rfl⟩
    | cons => exact .inr ⟨(fun c hc => by cases hc), (Except.ok.inj h).symm⟩

theorem decisionSpec_many {d : Decision} (hlen : 2 ≤ candidates.length)
    (h : decideMany transactionId incomingDescription incomingAccProps accountPropsById
      candidates = .ok d) :
    DecisionSpec incomingDescription
      (candidateConsistent incomingDescription incomingAccProps accountPropsById) candidates
      d := by
  have hne : candidates ≠ [] := by
    rintro rfl
    cases hlen
  obtain ⟨level, survivors, hhigh, hfilter, hcases⟩ := decideMany_outcome hne h
  have hempty : survivors = [] ↔ ∀ c ∈ bucketOf candidates level,
      candidateConsistent incomingDescription incomingAccProps accountPropsById c = false := by
    rw [hfilter, List.filter_eq_nil_iff]
    exact forall₂_congr fun c _ => by rw [Bool.not_eq_true]
  refine ⟨?_, ?_, fun hnil => absurd hnil hne, fun hnil => absurd hnil hne, ?_⟩
  · intro level' c hpick
    obtain ⟨rfl, hone⟩ := (picks_iff_of_many hlen hhigh).mp hpick
    rw [← hfilter] at hone
    obtain ⟨c', props, hone', -, rfl⟩ | ⟨hnone, -⟩ := hcases
    · obtain rfl := (List.cons.inj (hone'.symm.trans hone)).1
      exact ⟨_, _, rfl⟩
    · exact absurd hone (hnone c)
  · rintro pid level' dd canary rfl
    obtain ⟨c, props, hone, hp, heq⟩ | ⟨-, heq⟩ := hcases
    · obtain ⟨rfl, rfl, rfl, rfl⟩ := Decision.claim.inj heq
      refine ⟨c, .bucket hlen hhigh (hfilter.symm.trans hone), rfl, decide_eq_true_iff, ?_⟩
      -- the survivor is consistent, so there is no canary
      have hc : candidateConsistent incomingDescription incomingAccProps accountPropsById c =
          true := (List.mem_filter.mp (hfilter ▸ hone ▸ List.mem_singleton_self c)).2
      rw [buildCanary_isSome hp, hc]
      exact iff_of_false (fun hf => by cases hf) fun hf => by cases hf.2
    · cases heq
  · intro _ hno
    obtain ⟨c, -, hone, -, -⟩ | ⟨-, hanomaly⟩ := hcases
    · exact absurd (.bucket hlen hhigh (hfilter.symm.trans hone)) (hno level c)
    · obtain ⟨hids, hmismatch, hambiguous⟩ := manyAnomaly_reason transactionId
        incomingDescription level (bucketOf candidates level) survivors
      rw [hempty] at hmismatch hambiguous
      exact ⟨_, level, hanomaly, hhigh, hids, hmismatch, hambiguous⟩

/-- Which bucket members there are decides; what lies below is not looked at. Two lists with the
same highest bucket come to the same outcome. -/
theorem decideTransfer_bucket_locked {candidates' : List ScoredCandidate}
    (hlen : 2 ≤ candidates.length) (hlen' : 2 ≤ candidates'.length)
    (h : IsHighest candidates level) (h' : IsHighest candidates' level)
    (hbucket : bucketOf candidates level = bucketOf candidates' level) :
    decideTransfer transactionId incomingDescription incomingAccProps accountPropsById candidates =
      decideTransfer transactionId incomingDescription incomingAccProps accountPropsById
        candidates' := by
  have hmany : ∀ l : List ScoredCandidate, 2 ≤ l.length →
      decideTransfer transactionId incomingDescription incomingAccProps accountPropsById l =
        decideMany transactionId incomingDescription incomingAccProps accountPropsById l := by
    intro l hl
    match l, hl with
    | _ :: _ :: _, _ => rfl
  rw [hmany _ hlen, hmany _ hlen', decideMany, decideMany, selectBucket_of_isHighest h,
    selectBucket_of_isHighest h', hbucket]

/-! ## The decision -/

/-- **The decision meets its specification.** With the account of every candidate given, a
candidate is claimed exactly where one is picked, and otherwise the outcome is the one the
specification names; of several candidates only those of the highest bucket matter. -/
theorem decideTransfer_meets_spec (transactionId : UUID) (incomingDescription : Option String)
    (incomingAccProps : AccountProps) (accountPropsById : UUID → Option AccountProps)
    (candidates : List ScoredCandidate)
    (h : ∀ c ∈ candidates, (accountPropsById c.1.accountId).isSome) :
    (∃ d, decideTransfer transactionId incomingDescription incomingAccProps accountPropsById
        candidates = .ok d ∧
      DecisionSpec incomingDescription
        (candidateConsistent incomingDescription incomingAccProps accountPropsById) candidates
        d) ∧
    ∀ candidates' level, 2 ≤ candidates.length → 2 ≤ candidates'.length →
      IsHighest candidates level → IsHighest candidates' level →
      bucketOf candidates level = bucketOf candidates' level →
      decideTransfer transactionId incomingDescription incomingAccProps accountPropsById
          candidates =
        decideTransfer transactionId incomingDescription incomingAccProps accountPropsById
          candidates' := by
  refine ⟨?_, fun candidates' level => decideTransfer_bucket_locked⟩
  obtain ⟨d, hd⟩ := decideTransfer_ok h
  refine ⟨d, hd, ?_⟩
  match candidates with
  | [] =>
    obtain rfl := Except.ok.inj hd
    exact decisionSpec_nil
  | [(c, level)] => exact decisionSpec_single hd
  | c :: c' :: rest => exact decisionSpec_many (by simp) hd

/-! ### Two candidates -/

/-- A candidate without a description. -/
def sampleCandidate (id accountId : UUID) : CandidateRow where
  id := id
  accountId := accountId
  direction := .income
  counterpartyIban := none
  description := none
  amountCents := 1000
  operationAmountCents := some 1000
  time := 0

/-- An account for every id. -/
def sampleAccounts (id : UUID) : Option AccountProps := some ⟨id, 1, "black", "UAH", none⟩

/-- The candidates a unilateral and no evidence speak for. -/
def sampleBuckets (id : UUID) : List ScoredCandidate :=
  [(sampleCandidate 1 2, .unilateral), (sampleCandidate id 5, .none)]

theorem isHighest_sampleBuckets (id : UUID) : IsHighest (sampleBuckets id) .unilateral := by
  refine ⟨fun h => (by cases h), fun level' hne => ?_⟩
  cases level' with
  | bilateral => exact absurd rfl hne
  | unilateral => exact le_rfl
  | none => exact Nat.zero_le _

/-- The candidate with the evidence is picked, whatever the other one is. -/
theorem decideTransfer_meets_spec_buckets :
    (∃ d, decideTransfer 7 none ⟨3, 1, "fop", "UAH", none⟩ sampleAccounts (sampleBuckets 4) =
        .ok d ∧
      DecisionSpec none (candidateConsistent none ⟨3, 1, "fop", "UAH", none⟩ sampleAccounts)
        (sampleBuckets 4) d) ∧
    decideTransfer 7 none ⟨3, 1, "fop", "UAH", none⟩ sampleAccounts (sampleBuckets 4) =
      decideTransfer 7 none ⟨3, 1, "fop", "UAH", none⟩ sampleAccounts (sampleBuckets 6) := by
  obtain ⟨hspec, hlocked⟩ := decideTransfer_meets_spec 7 none ⟨3, 1, "fop", "UAH", none⟩
    sampleAccounts (sampleBuckets 4) fun _ _ => rfl
  exact ⟨hspec, hlocked (sampleBuckets 6) .unilateral (by decide) (by decide)
    (isHighest_sampleBuckets 4) (isHighest_sampleBuckets 6) rfl⟩

/-- Two consistent members of the `none` bucket are an `ambiguous_pair_match`. -/
example : ∃ a, decideTransfer 7 none ⟨3, 1, "fop", "UAH", none⟩ sampleAccounts
    [(sampleCandidate 1 2, .none), (sampleCandidate 4 5, .none)] = .ok (.anomaly a) ∧
      a.candidateIds = [1, 4] ∧ a.reasonCode = .ambiguousPairMatch := ⟨_, rfl, rfl, rfl⟩

end Grosh
