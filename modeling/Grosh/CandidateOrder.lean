import Grosh.UnitOfWork

/-!
# The order in which candidates are fetched

The universal fetch has no `ORDER BY`. The decision of the detector does not depend on the order
of the rows it returns, up to the order of the candidate ids an anomaly lists: the buckets are
counted and filtered, and a partner is only ever picked where it is the only one left
(`decideTransfer_perm`).

A database may return the rows of such a query in another order every time. That the decision does
not notice is what lets the later results speak about the candidates as a set. Each part of the
decision is looked at by itself: the scores are taken row by row, the buckets are filters, and a
filter of a permuted list is a permutation of the filtered list.
-/

namespace Grosh

/-! ## Anomalies and decisions

An anomaly lists the ids of its candidates in the order of the query. Nothing reads the list for its
order, so two decisions that differ in it are the same decision. -/

/-- The same anomaly, up to the order of its candidates. -/
structure SameAnomaly (a b : AnomalyRecord) : Prop where
  transactionId : a.transactionId = b.transactionId
  candidateIds : a.candidateIds.Perm b.candidateIds
  reasonCode : a.reasonCode = b.reasonCode
  reasonDetail : a.reasonDetail = b.reasonDetail

theorem SameAnomaly.refl (a : AnomalyRecord) : SameAnomaly a a := ⟨rfl, .refl _, rfl, rfl⟩

theorem SameAnomaly.symm {a b : AnomalyRecord} (h : SameAnomaly a b) : SameAnomaly b a :=
  ⟨h.transactionId.symm, h.candidateIds.symm, h.reasonCode.symm, h.reasonDetail.symm⟩

theorem SameAnomaly.trans {a b c : AnomalyRecord} (h : SameAnomaly a b) (h' : SameAnomaly b c) :
    SameAnomaly a c :=
  ⟨h.transactionId.trans h'.transactionId, h.candidateIds.trans h'.candidateIds,
    h.reasonCode.trans h'.reasonCode, h.reasonDetail.trans h'.reasonDetail⟩

/-- The same decision, up to the order of the candidates in an anomaly. -/
inductive SameDecision : Decision → Decision → Prop where
  | claim (partnerId : UUID) (ev : PairEvidence) (dd : Bool) (canary : Option AnomalyRecord) :
      SameDecision (.claim partnerId ev dd canary) (.claim partnerId ev dd canary)
  | anomaly {a b : AnomalyRecord} (h : SameAnomaly a b) : SameDecision (.anomaly a) (.anomaly b)
  | skip : SameDecision .skip .skip

theorem SameDecision.refl : ∀ d, SameDecision d d
  | .claim pid ev dd canary => .claim pid ev dd canary
  | .anomaly a => .anomaly (.refl a)
  | .skip => .skip

/-! ## The decision -/

variable {candidates candidates' : List ScoredCandidate} {bucket bucket' : List CandidateRow}
  {transactionId : UUID} {incomingDescription : Option String} {incomingAccProps : AccountProps}
  {accountPropsById : UUID → Option AccountProps}

theorem bucketOf_perm (h : candidates.Perm candidates') (level : PairEvidence) :
    (bucketOf candidates level).Perm (bucketOf candidates' level) :=
  (h.filter _).map _

/-- The level of the bucket is the same, and so are its members. -/
theorem selectBucket_perm (h : candidates.Perm candidates') :
    (selectBucket candidates).1 = (selectBucket candidates').1 ∧
      (selectBucket candidates).2.Perm (selectBucket candidates').2 := by
  have hnil : ∀ level, bucketOf candidates level ≠ [] ↔ bucketOf candidates' level ≠ [] := by
    intro level
    have hp := bucketOf_perm h level
    exact not_congr
      ⟨fun he => List.perm_nil.mp (he ▸ hp.symm), fun he => List.perm_nil.mp (he ▸ hp)⟩
  simp only [selectBucket]
  by_cases hb : bucketOf candidates .bilateral ≠ []
  · rw [if_pos hb, if_pos ((hnil _).mp hb)]
    exact ⟨rfl, bucketOf_perm h _⟩
  rw [if_neg hb, if_neg (mt (hnil _).mpr hb)]
  by_cases hu : bucketOf candidates .unilateral ≠ []
  · rw [if_pos hu, if_pos ((hnil _).mp hu)]
    exact ⟨rfl, bucketOf_perm h _⟩
  · rw [if_neg hu, if_neg (mt (hnil _).mpr hu)]
    exact ⟨rfl, bucketOf_perm h _⟩

/-- Where the description filter does not raise, it has found every account. -/
theorem isSome_of_descriptionSurvivors {survivors : List CandidateRow}
    (h : descriptionSurvivors incomingDescription incomingAccProps accountPropsById bucket =
      .ok survivors) : ∀ c ∈ bucket, (accountPropsById c.accountId).isSome := by
  induction bucket generalizing survivors with
  | nil => exact fun c hc => by cases hc
  | cons cand bucket ih =>
    rw [descriptionSurvivors] at h
    rcases hp : accountPropsById cand.accountId with _ | props
    · rw [hp] at h
      cases h
    rw [hp] at h
    rcases hs : descriptionSurvivors incomingDescription incomingAccProps accountPropsById
      bucket with e | rest
    · simp only [hs, Except.map] at h
      cases h
    intro c hc
    obtain rfl | hc := List.mem_cons.mp hc
    · rw [hp]
      rfl
    · exact ih hs c hc

theorem descriptionSurvivors_perm {survivors : List CandidateRow} (hp : bucket.Perm bucket')
    (h : descriptionSurvivors incomingDescription incomingAccProps accountPropsById bucket =
      .ok survivors) :
    ∃ survivors', descriptionSurvivors incomingDescription incomingAccProps accountPropsById
      bucket' = .ok survivors' ∧ survivors.Perm survivors' := by
  obtain ⟨survivors', h'⟩ : ∃ survivors', descriptionSurvivors incomingDescription incomingAccProps
      accountPropsById bucket' = .ok survivors' :=
    descriptionSurvivors_ok fun c hc => isSome_of_descriptionSurvivors h c (hp.mem_iff.mpr hc)
  refine ⟨survivors', h', ?_⟩
  rw [descriptionSurvivors_eq h, descriptionSurvivors_eq h']
  exact hp.filter _

/-- The anomaly of the many-candidates path: without evidence and without a survivor it is the
descriptions that did not fit, and otherwise the pair is ambiguous. -/
def manyAnomaly (transactionId : UUID) (incomingDescription : Option String)
    (bucketEvidence : PairEvidence) (bucket survivors : List CandidateRow) : AnomalyRecord :=
  if survivors.length = 0 ∧ bucketEvidence = .none then
    Anomalies.descriptionAccountMismatch transactionId (bucket.map CandidateRow.id)
      incomingDescription bucketEvidence
  else
    Anomalies.ambiguousPairMatch transactionId (bucket.map CandidateRow.id) bucketEvidence
      survivors.length

theorem manyAnomaly_perm {survivors survivors' : List CandidateRow} {level : PairEvidence}
    (hb : bucket.Perm bucket') (hs : survivors.Perm survivors') :
    SameAnomaly (manyAnomaly transactionId incomingDescription level bucket survivors)
      (manyAnomaly transactionId incomingDescription level bucket' survivors') := by
  simp only [manyAnomaly, hs.length_eq]
  split
  · refine ⟨rfl, hb.map _, rfl, ?_⟩
    simp only [Anomalies.descriptionAccountMismatch, List.length_map, hb.length_eq]
  · refine ⟨rfl, hb.map _, rfl, ?_⟩
    simp only [Anomalies.ambiguousPairMatch, List.length_map, hb.length_eq]

/-- What the many-candidates path makes of the survivors of the description filter: the only one is
claimed, and the bucket becomes an anomaly otherwise. -/
def decideSurvivors (transactionId : UUID) (incomingDescription : Option String)
    (incomingAccProps : AccountProps) (accountPropsById : UUID → Option AccountProps)
    (level : PairEvidence) (bucket : List CandidateRow) :
    List CandidateRow → Except PipelineError Decision
  | [partner] => decideSingle transactionId incomingDescription incomingAccProps accountPropsById
      partner level (decide (1 < bucket.length))
  | survivors =>
    .ok (.anomaly (manyAnomaly transactionId incomingDescription level bucket survivors))

/-- A decision over several candidates has read the accounts of its bucket. -/
theorem exists_survivors {d : Decision}
    (h : decideMany transactionId incomingDescription incomingAccProps accountPropsById candidates =
      .ok d) :
    ∃ survivors, descriptionSurvivors incomingDescription incomingAccProps accountPropsById
      (selectBucket candidates).2 = .ok survivors := by
  rcases hs : descriptionSurvivors incomingDescription incomingAccProps accountPropsById
    (selectBucket candidates).2 with e | survivors
  · simp only [decideMany, hs] at h
    cases h
  · exact ⟨survivors, rfl⟩

theorem decideMany_eq {survivors : List CandidateRow}
    (hs : descriptionSurvivors incomingDescription incomingAccProps accountPropsById
      (selectBucket candidates).2 = .ok survivors) :
    decideMany transactionId incomingDescription incomingAccProps accountPropsById candidates =
      decideSurvivors transactionId incomingDescription incomingAccProps accountPropsById
        (selectBucket candidates).1 (selectBucket candidates).2 survivors := by
  simp only [decideMany, hs]
  cases survivors with
  | nil =>
    simp only [decideSurvivors, manyAnomaly]
    split <;> rfl
  | cons partner rest =>
    cases rest with
    | nil => rfl
    | cons partner₂ rest =>
      simp only [decideSurvivors, manyAnomaly]
      split <;> rfl

theorem decideSurvivors_perm {level : PairEvidence} {survivors survivors' : List CandidateRow}
    {d : Decision} (hb : bucket.Perm bucket') (hs : survivors.Perm survivors')
    (h : decideSurvivors transactionId incomingDescription incomingAccProps accountPropsById level
      bucket survivors = .ok d) :
    ∃ d', decideSurvivors transactionId incomingDescription incomingAccProps accountPropsById level
      bucket' survivors' = .ok d' ∧ SameDecision d d' := by
  cases survivors with
  | nil =>
    obtain rfl := List.perm_nil.mp hs.symm
    obtain rfl := Except.ok.inj h
    exact ⟨_, rfl, .anomaly (manyAnomaly_perm hb hs)⟩
  | cons partner rest =>
    cases rest with
    | nil =>
      -- a partner is picked only where it is the only survivor
      obtain rfl := List.perm_singleton.mp hs.symm
      refine ⟨d, ?_, .refl d⟩
      rw [decideSurvivors, ← hb.length_eq]
      exact h
    | cons partner₂ rest =>
      obtain rfl := Except.ok.inj h
      have hlen := hs.length_eq
      cases survivors' with
      | nil => cases hlen
      | cons partner' rest' =>
        cases rest' with
        | nil => cases hlen
        | cons partner₂' rest' => exact ⟨_, rfl, .anomaly (manyAnomaly_perm hb hs)⟩

/-- The many-candidates path does not depend on the order of the candidates. -/
theorem decideMany_perm {d : Decision} (hp : candidates.Perm candidates')
    (h : decideMany transactionId incomingDescription incomingAccProps accountPropsById candidates =
      .ok d) :
    ∃ d', decideMany transactionId incomingDescription incomingAccProps accountPropsById
      candidates' = .ok d' ∧ SameDecision d d' := by
  obtain ⟨hlevel, hbucket⟩ := selectBucket_perm hp
  obtain ⟨survivors, hs⟩ := exists_survivors h
  obtain ⟨survivors', hs', hsurv⟩ := descriptionSurvivors_perm hbucket hs
  rw [decideMany_eq hs] at h
  rw [decideMany_eq hs', ← hlevel]
  exact decideSurvivors_perm hbucket hsurv h

/-- **The decision does not depend on the order of the candidates**: for every permutation of the
list it is the same, up to the order in which an anomaly lists them. -/
theorem decideTransfer_perm {d : Decision} (hp : candidates.Perm candidates')
    (h : decideTransfer transactionId incomingDescription incomingAccProps accountPropsById
      candidates = .ok d) :
    ∃ d', decideTransfer transactionId incomingDescription incomingAccProps accountPropsById
      candidates' = .ok d' ∧ SameDecision d d' := by
  cases candidates with
  | nil =>
    obtain rfl := List.perm_nil.mp hp.symm
    exact ⟨d, h, .refl d⟩
  | cons c rest =>
    cases rest with
    | nil =>
      obtain rfl := List.perm_singleton.mp hp.symm
      exact ⟨d, h, .refl d⟩
    | cons c₂ rest =>
      have hlen := hp.length_eq
      cases candidates' with
      | nil => cases hlen
      | cons c' rest' =>
        cases rest' with
        | nil => cases hlen
        | cons c₂' rest' => exact decideMany_perm hp h

end Grosh
