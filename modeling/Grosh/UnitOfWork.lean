import Grosh.Enrichment

/-!
# What one unit of work can do

The specification of `run`, from which every result about sequences of events is derived.

* `mem_scoredCandidates` — which rows are scored for an incoming event, independently of
  the other candidates and of the order they are fetched in;
* `run_cases`, `consume_cases` — a successful run writes nothing (the id is stored), appends
  one plain row, or appends one row linked to the unclaimed candidate it updates (`Enriched`);
* `consume_of_stored`, `consume_stored_mono` — on a stored id nothing is written, and an id
  that is stored stays stored;
* `not_skips_run` — the exceptions on which the consumer commits the offset without a row
  come from the account lookup alone.
-/

namespace Grosh

variable {env : PipelineEnv} {db db' : Database} {tx : NormalizedTransaction}

/-! ## The scored candidates

The source resolves the IBANs of all candidates in one query and merges the answer into that for the
incoming row. What comes out is the same as if each candidate were looked at alone, which is how the
decision is reasoned about from here on. -/

/-- The account an IBAN of the user resolves to; the empty text is never looked up. An IBAN of
somebody else's account resolves to nothing. -/
def resolveIban (env : PipelineEnv) (userId : UUID) (iban : String) : Option UUID :=
  if iban = "" then none else (findByIban env iban userId).map AccountProps.id

/-- The flags of the incoming event. -/
def incomingFlags (env : PipelineEnv) (tx : NormalizedTransaction) : RowFlags :=
  computeRowFlags tx.description tx.direction tx.counterpartyIban (resolveIban env tx.userId)

/-- The flags of a candidate. -/
def candidateFlags (env : PipelineEnv) (tx : NormalizedTransaction) (c : CandidateRow) :
    RowFlags :=
  computeRowFlags c.description c.direction c.counterpartyIban (resolveIban env tx.userId)

/-- The candidate survives the IBAN consistency filter. -/
def consistentWith (env : PipelineEnv) (tx : NormalizedTransaction) (c : CandidateRow) : Bool :=
  isConsistent (incomingFlags env tx) (candidateFlags env tx c) tx.counterpartyIban
    c.counterpartyIban tx.accountId c.accountId (resolveIban env tx.userId)

/-- The evidence of a pair: how many of its two sides name the account of the other by an IBAN that
can be trusted. -/
def evidenceWith (env : PipelineEnv) (tx : NormalizedTransaction) (c : CandidateRow) :
    PairEvidence :=
  classifyPairEvidence (incomingFlags env tx) (candidateFlags env tx c) tx.counterpartyIban
    c.counterpartyIban tx.accountId c.accountId (resolveIban env tx.userId)

theorem computeRowFlags_congr {m m' : String → Option UUID} {desc iban : Option String}
    {dir : TransactionDirection} (h : ∀ i, iban = some i → m i = m' i) :
    computeRowFlags desc dir iban m = computeRowFlags desc dir iban m' := by
  rcases iban with _ | i
  · rfl
  · simp only [computeRowFlags, classifyCpIban, h i rfl]

theorem resolvesTo_congr {m m' : String → Option UUID} {iban : Option String} {a : UUID}
    (h : ∀ i, iban = some i → m i = m' i) : resolvesTo iban a m = resolvesTo iban a m' := by
  rcases iban with _ | i
  · rfl
  · simp only [resolvesTo, h i rfl]

theorem sideClaims_congr {m m' : String → Option UUID} {flags : RowFlags}
    {iban : Option String} {a : UUID} (h : ∀ i, iban = some i → m i = m' i) :
    sideClaims flags iban a m = sideClaims flags iban a m' := by
  simp only [sideClaims]
  rw [resolvesTo_congr h]

theorem batchResolveIbans_ibanSet {userId : UUID} {iban : Option String} {i : String}
    (h : iban = some i) :
    batchResolveIbans env userId (ibanSet iban) i = resolveIban env userId i := by
  subst h
  by_cases hi : i = ""
  · simp [batchResolveIbans, ibanSet, resolveIban, hi]
  · simp [batchResolveIbans, ibanSet, resolveIban, hi]

/-- The incoming flags do not depend on how the IBAN map was built. -/
theorem computeRowFlags_batch :
    computeRowFlags tx.description tx.direction tx.counterpartyIban
      (batchResolveIbans env tx.userId (ibanSet tx.counterpartyIban)) = incomingFlags env tx :=
  computeRowFlags_congr fun _ hi => batchResolveIbans_ibanSet hi

/-- The merged IBAN dictionary of the filter, at an IBAN one of its two sets holds: it makes no
difference which of the two queries has found it. -/
theorem mergedResolutions_eq {userId : UUID} {s s' : List String} {i : String}
    (hne : "" ∉ s ∧ "" ∉ s') (h : i ≠ "" → i ∈ s ∨ i ∈ s') :
    (batchResolveIbans env userId s i).or (batchResolveIbans env userId s' i) =
      resolveIban env userId i := by
  by_cases hi : i = ""
  · subst hi
    simp [batchResolveIbans, resolveIban, hne.1, hne.2]
  · rw [resolveIban, if_neg hi]
    by_cases h1 : i ∈ s <;> by_cases h2 : i ∈ s'
    · simp [batchResolveIbans, h1, h2]
    · simp [batchResolveIbans, h1, h2]
    · simp [batchResolveIbans, h1, h2]
    · exact absurd (h hi) (by simp [h1, h2])

theorem empty_not_mem_ibanSet (iban : Option String) : "" ∉ ibanSet iban := by
  rcases iban with _ | i
  · simp [ibanSet]
  · by_cases hi : i = ""
    · simp [ibanSet, hi]
    · simp [ibanSet, hi, Ne.symm hi]

theorem mem_ibanSet {iban : Option String} {i : String} (h : iban = some i) (hi : i ≠ "") :
    i ∈ ibanSet iban := by
  subst h
  simp [ibanSet, hi]

/-- The filter and the classifier look at one candidate at a time, so the score of a candidate does
not depend on the others or on their order. -/
theorem filterAndClassify_eq (candidates : List CandidateRow) :
    filterAndClassify env tx (incomingFlags env tx) candidates
      (batchResolveIbans env tx.userId (ibanSet tx.counterpartyIban)) =
    candidates.filterMap fun c =>
      if consistentWith env tx c then some (c, evidenceWith env tx c) else none := by
  simp only [filterAndClassify]
  apply List.filterMap_congr
  intro c hc
  set merged : String → Option UUID := fun iban =>
    (batchResolveIbans env tx.userId
      (candidates.flatMap fun cand => ibanSet cand.counterpartyIban) iban).or
    (batchResolveIbans env tx.userId (ibanSet tx.counterpartyIban) iban) with hmerged
  have hne : "" ∉ candidates.flatMap (fun cand => ibanSet cand.counterpartyIban) ∧
      "" ∉ ibanSet tx.counterpartyIban := by
    refine ⟨?_, empty_not_mem_ibanSet _⟩
    simp [List.mem_flatMap, empty_not_mem_ibanSet]
  have hcand : ∀ i, c.counterpartyIban = some i → merged i = resolveIban env tx.userId i :=
    fun i hi => mergedResolutions_eq hne fun hi' =>
      Or.inl (List.mem_flatMap.mpr ⟨c, hc, mem_ibanSet hi hi'⟩)
  have hinc : ∀ i, tx.counterpartyIban = some i → merged i = resolveIban env tx.userId i :=
    fun i hi => mergedResolutions_eq hne fun hi' => Or.inr (mem_ibanSet hi hi')
  have hflags : computeRowFlags c.description c.direction c.counterpartyIban merged =
      candidateFlags env tx c := computeRowFlags_congr hcand
  have hcons : isConsistent (incomingFlags env tx) (candidateFlags env tx c)
      tx.counterpartyIban c.counterpartyIban tx.accountId c.accountId merged =
      consistentWith env tx c := by
    simp only [consistentWith, isConsistent]
    rw [resolvesTo_congr hcand, resolvesTo_congr hinc]
  have hev : classifyPairEvidence (incomingFlags env tx) (candidateFlags env tx c)
      tx.counterpartyIban c.counterpartyIban tx.accountId c.accountId merged =
      evidenceWith env tx c := by
    simp only [evidenceWith, classifyPairEvidence]
    rw [sideClaims_congr hcand, sideClaims_congr hinc]
  simp only [hflags, hcons, hev]

/-- The scored candidates of an incoming event. -/
def scoredCandidates (env : PipelineEnv) (db : Database) (tx : NormalizedTransaction) :
    List ScoredCandidate :=
  (findUniversalCandidates env db tx).filterMap fun c =>
    if consistentWith env tx c then some (c, evidenceWith env tx c) else none

/-- A stored row the incoming event would find in its filtered candidate list: it matches the
universal query, and the IBANs of neither side contradict the pair. -/
def eligible (env : PipelineEnv) (tx : NormalizedTransaction) (r : Transaction) : Bool :=
  matchesUniversal tx r && consistentWith env tx (.ofRow r)

theorem mem_findUniversalCandidates {c : CandidateRow} :
    c ∈ findUniversalCandidates env db tx ↔
      ∃ r ∈ db.transactions, matchesUniversal tx r = true ∧ CandidateRow.ofRow r = c := by
  simp only [findUniversalCandidates, List.mem_map, (env.scan_perm _).mem_iff, List.mem_filter,
    KeyedTable.mem_def, and_assoc]

theorem mem_scoredCandidates {c : CandidateRow} {ev : PairEvidence} :
    (c, ev) ∈ scoredCandidates env db tx ↔
      ∃ r ∈ db.transactions, eligible env tx r = true ∧ CandidateRow.ofRow r = c ∧
        evidenceWith env tx c = ev := by
  simp only [scoredCandidates, List.mem_filterMap, Option.ite_none_right_eq_some,
    Option.some.injEq, Prod.mk.injEq, mem_findUniversalCandidates, eligible, Bool.and_eq_true]
  refine ⟨?_, ?_⟩
  · rintro ⟨_, ⟨r, hr, hm, rfl⟩, hc, rfl, rfl⟩
    exact ⟨r, hr, ⟨hm, hc⟩, rfl, rfl⟩
  · rintro ⟨r, hr, ⟨hm, hc⟩, rfl, rfl⟩
    exact ⟨_, ⟨r, hr, hm, rfl⟩, hc, rfl, rfl⟩

/-! ## Metadata a claim can be written into

`jsonb_set` writes below objects only. A row whose metadata has something else on the path makes a
claim fail, or leaves it without its pair block. -/

/-- The metadata of a row is `NULL` or an object whose `layer` and `layer.transfer`, where present,
are objects: the paths `claim_pair` sets exist or can be created. Every row enrichment has written
is of this form. -/
def Settable (metadata : Option Json) : Prop :=
  ∀ m, metadata = some m → ∃ d, m = .obj d ∧
    ∀ l, Dict.get? d "layer" = some l → ∃ ld, l = .obj ld ∧
      ∀ t, Dict.get? ld "transfer" = some t → ∃ td, t = .obj td

/-- The pair block of a row, if it has one. -/
def Transaction.pairBlock (r : Transaction) : Option Json :=
  r.metadata.bind fun m => m.getPath? ["layer", "transfer", "pair"]

/-- **What `claim_pair` writes** into settable metadata: the pair block below the objects on its
path, which are empty where they are missing. -/
theorem Settable.claimMetadata_eq {metadata : Option Json} (h : Settable metadata) (pair : Json) :
    ∃ d ld td : Dict, metadata.getD (.obj []) = .obj d ∧
      (Dict.get? d "layer").getD (.obj []) = .obj ld ∧
      (Dict.get? ld "transfer").getD (.obj []) = .obj td ∧
      Grosh.claimMetadata metadata pair = some (.obj (d.set "layer"
        (.obj (ld.set "transfer" (.obj (td.set "pair" pair)))))) := by
  obtain ⟨d, hd, hdl⟩ : ∃ d, metadata.getD (.obj []) = .obj d ∧
      ∀ l, Dict.get? d "layer" = some l → ∃ ld, l = .obj ld ∧
        ∀ t, Dict.get? ld "transfer" = some t → ∃ td, t = .obj td := by
    rcases metadata with _ | m
    · exact ⟨[], rfl, fun l hl => by cases hl⟩
    · exact h m rfl
  obtain ⟨ld, hld, hlt⟩ : ∃ ld, (Dict.get? d "layer").getD (.obj []) = .obj ld ∧
      ∀ t, Dict.get? ld "transfer" = some t → ∃ td, t = .obj td := by
    rcases hl : Dict.get? d "layer" with _ | l
    · exact ⟨[], rfl, fun t ht => by cases ht⟩
    · exact hdl l hl
  obtain ⟨td, htd⟩ : ∃ td, (Dict.get? ld "transfer").getD (.obj []) = .obj td := by
    rcases ht : Dict.get? ld "transfer" with _ | t
    · exact ⟨[], rfl⟩
    · exact hlt t ht
  refine ⟨d, ld, td, hd, hld, htd, ?_⟩
  -- the three nested `jsonb_set`s, from the inside
  simp only [Grosh.claimMetadata, Json.bind_get?_of_getD hd, Json.bind_get?_of_getD hld, hd, hld,
    htd, Json.jsonbSet_obj, Json.setPath_obj_one, Option.bind_some]
  rw [Json.setPath_obj_cons (Dict.get?_set_self ..), Json.setPath_obj_one, Option.map_some,
    Option.bind_some, Json.jsonbSet_obj, Json.setPath_obj_cons (Dict.get?_set_self ..),
    Json.setPath_obj_cons (Dict.get?_set_self ..), Json.setPath_obj_one]
  simp only [Option.map_some, Dict.set_set]

/-- A claim on settable metadata does not raise, and leaves exactly the given pair block at
its path. -/
theorem Settable.claimMetadata {metadata : Option Json} (h : Settable metadata) (pair : Json) :
    ∃ m, claimMetadata metadata pair = some m ∧ Settable (some m) ∧
      m.getPath? ["layer", "transfer", "pair"] = some pair := by
  obtain ⟨d, ld, td, -, -, -, hm⟩ := h.claimMetadata_eq pair
  refine ⟨_, hm, ?_, by simp⟩
  intro m hm
  obtain rfl := Option.some.inj hm
  refine ⟨_, rfl, fun l hl => ?_⟩
  rw [Dict.get?_set_self] at hl
  obtain rfl := Option.some.inj hl
  refine ⟨_, rfl, fun t ht => ?_⟩
  rw [Dict.get?_set_self] at ht
  obtain rfl := Option.some.inj ht
  exact ⟨_, rfl⟩

/-! ## The detector

What the strategy returns and does to the tables is one of a few outcomes. Everything that is proved
about detection in sequences of events starts from this list. -/

/-- The tables after `claim_pair` on the row with id `existingId` and the auto-resolve delete that
follows it: the row is linked to the new one, and the unpaired anomalies of both are gone. -/
def Database.claim (db : Database) (existingId newId : UUID) (metadata : Json) : Database where
  transactions := db.transactions.updateWhere (fun r => decide (r.id = existingId))
    (fun r => r.claimed newId metadata) (fun r => r.claimed_id newId metadata)
  anomalies := db.anomalies.deleteWhere fun a =>
    decide (a.transactionId ∈ [newId, existingId]) && a.reasonCode.isUnpaired

/-- The row block of an incoming event. -/
def rowBlock (env : PipelineEnv) (tx : NormalizedTransaction) : Json :=
  buildRowBlock (incomingFlags env tx)

/-- The metadata block of a claim. -/
def claimBlock (env : PipelineEnv) (tx : NormalizedTransaction) (pair : Json) : Dict :=
  [("row", rowBlock env tx), ("pair", pair)]

/-- The events detection looks at: wire transfers of Monobank with an amount. All others keep the
tables and get no block. -/
def Detects (tx : NormalizedTransaction) : Prop :=
  tx.source = "monobank" ∧ tx.mcc = some wireTransfer ∧ tx.direction ≠ .zero

instance (tx : NormalizedTransaction) : Decidable (Detects tx) :=
  inferInstanceAs (Decidable (_ ∧ _ ∧ _))

/-- The outcomes of detection for one event: it is not looked at, it stays unpaired, or an eligible
row is claimed for it. -/
inductive Detection (env : PipelineEnv) (db : Database) (tx : NormalizedTransaction) :
    TransferResult → Database → Prop where
  /-- not an event of the detector, or one already stored -/
  | skipped : ¬ Detects tx ∨ db.Stored tx.id → Detection env db tx .default db
  /-- no pair: the row block, and anomalies of the event itself -/
  | unpaired (anomalies : List AnomalyRecord) : Detects tx → ¬ db.Stored tx.id →
      (∀ a ∈ anomalies, a.transactionId = tx.id) →
      Detection env db tx ⟨none, none, anomalies, some [("row", rowBlock env tx)]⟩ db
  /-- an eligible row is claimed -/
  | claimed (r : Transaction) (pair metadata : Json) (canary : Option AnomalyRecord) :
      Detects tx → ¬ db.Stored tx.id → (incomingFlags env tx).cpIbanStatus ≠ .unlinked →
      r ∈ db.transactions → eligible env tx r = true →
      (∀ a, canary = some a → a.transactionId = tx.id ∧
        a.reasonCode = .descriptionConsistencyMismatch) →
      claimMetadata r.metadata pair = some metadata →
      (∃ ev dd, pair = buildPairBlock ev dd) →
      Detection env db tx ⟨some .transfer, some r.id, canary.toList, some (claimBlock env tx pair)⟩
        (db.claim r.id tx.id metadata)

/-- The strategy past its gates. -/
theorem detectAndPair_of_fresh (hm : tx.mcc = some wireTransfer) (hd : tx.direction ≠ .zero)
    (hf : ¬ db.Stored tx.id) :
    detectAndPair env db tx =
      if (incomingFlags env tx).cpIbanStatus = .unlinked then
        .ok (handleUnlinked tx (incomingFlags env tx) (rowBlock env tx), db)
      else
        match getById env tx.accountId with
        | .error e => .error e
        | .ok incomingAccProps =>
          match decideTransfer tx.id tx.description incomingAccProps
              (getManyByIds env ((scoredCandidates env db tx).map fun c => c.1.accountId))
              (scoredCandidates env db tx) with
          | .error e => .error e
          | .ok decision => applyDecision db tx decision (rowBlock env tx) := by
  have hdir : ¬ (tx.direction ≠ .income ∧ tx.direction ≠ .expense) := by
    rintro ⟨h1, h2⟩
    cases hc : tx.direction <;> contradiction
  simp only [detectAndPair]
  rw [if_neg (by simp [hm]), if_neg hdir, if_neg hf]
  simp only [computeRowFlags_batch, filterAndClassify_eq]
  rfl

theorem claimPair_of_mem {r : Transaction} (hr : r ∈ db.transactions) (newId : UUID)
    (pair : Json) :
    claimPair db r.id newId pair =
      match claimMetadata r.metadata pair with
      | none => .error .dataError
      | some metadata =>
        .ok { db with
          transactions := db.transactions.updateWhere (fun r' => decide (r'.id = r.id))
            (fun r' => r'.claimed newId metadata) (fun _ => rfl) } := by
  have hfind : db.transactions.find? r.id = some r := KeyedTable.find?_eq_some.mpr ⟨hr, rfl⟩
  rcases hmeta : claimMetadata r.metadata pair with _ | metadata
  · simp [claimPair, hfind, hmeta]
  · simp [claimPair, hfind, hmeta]

theorem handleUnlinked_stamp (flags : RowFlags) (block : Json) {a : AnomalyRecord}
    (h : a ∈ (handleUnlinked tx flags block).anomalies) : a.transactionId = tx.id := by
  simp only [handleUnlinked] at h
  split at h
  · split at h
    · rw [List.mem_singleton.mp h]
      rfl
    · split at h
      · rw [List.mem_singleton.mp h]
        rfl
      · cases h
  · cases h

/-- Every result of the strategy is one of the outcomes: it is proved along the branches of the
source, and is not looked at again. -/
theorem detectAndPair_cases {res : TransferResult} (hsrc : tx.source = "monobank")
    (h : detectAndPair env db tx = .ok (res, db')) : Detection env db tx res db' := by
  by_cases hm : tx.mcc = some wireTransfer
  swap
  · rw [detectAndPair, if_pos hm] at h
    obtain ⟨rfl, rfl⟩ := Prod.mk.inj (Except.ok.inj h)
    exact .skipped (Or.inl fun hd => hm hd.2.1)
  by_cases hd : tx.direction = .zero
  · rw [detectAndPair, if_neg (by simp [hm]), if_pos (by simp [hd])] at h
    obtain ⟨rfl, rfl⟩ := Prod.mk.inj (Except.ok.inj h)
    exact .skipped (Or.inl fun hd' => hd'.2.2 hd)
  by_cases hf : db.Stored tx.id
  · have hdir : ¬ (tx.direction ≠ .income ∧ tx.direction ≠ .expense) := by
      rintro ⟨h1, h2⟩
      cases hc : tx.direction <;> contradiction
    rw [detectAndPair, if_neg (by simp [hm]), if_neg hdir, if_pos hf] at h
    obtain ⟨rfl, rfl⟩ := Prod.mk.inj (Except.ok.inj h)
    exact .skipped (Or.inr hf)
  have hdet : Detects tx := ⟨hsrc, hm, hd⟩
  rw [detectAndPair_of_fresh hm hd hf] at h
  split at h
  · -- the unlinked short-circuit
    obtain ⟨rfl, rfl⟩ := Prod.mk.inj (Except.ok.inj h)
    exact .unpaired _ hdet hf fun a ha => handleUnlinked_stamp _ (rowBlock env tx) ha
  next hlinked =>
  split at h
  · cases h
  split at h
  · cases h
  next decision hdec =>
  rcases decideTransfer_cases hdec with ⟨c, ev, dd, canary, hc, rfl, hcan⟩ | ⟨a, rfl, ha⟩ | rfl
  · obtain ⟨r, hr, hel, rfl, -⟩ := mem_scoredCandidates.mp hc
    simp only [applyDecision, CandidateRow.ofRow, claimPair_of_mem hr] at h
    rcases hcm : claimMetadata r.metadata (buildPairBlock ev dd) with _ | metadata
    · simp only [hcm] at h
      cases h
    · simp only [hcm] at h
      obtain ⟨rfl, rfl⟩ := Prod.mk.inj (Except.ok.inj h)
      exact .claimed r _ metadata canary hdet hf hlinked hr hel hcan hcm ⟨ev, dd, rfl⟩
  · obtain ⟨rfl, rfl⟩ := Prod.mk.inj (Except.ok.inj h)
    exact .unpaired [a] hdet hf fun a' ha' => by rw [List.mem_singleton.mp ha', ha]
  · obtain ⟨rfl, rfl⟩ := Prod.mk.inj (Except.ok.inj h)
    exact .unpaired [] hdet hf fun a' ha' => by cases ha'

theorem runTransferDetection_cases {res : TransferResult}
    (h : runTransferDetection env db tx = .ok (res, db')) : Detection env db tx res db' := by
  simp only [runTransferDetection] at h
  split at h
  · next hsrc => exact detectAndPair_cases hsrc h
  · next hsrc =>
    obtain ⟨rfl, rfl⟩ := Prod.mk.inj (Except.ok.inj h)
    exact .skipped (Or.inl fun hd => hsrc hd.1)

/-! ## The row a run writes -/

/-- The layer outputs of a run under their namespaces. -/
def layerOf (rateMetadata : Dict) (metadataBlock : Option Dict) : Dict :=
  (if rateMetadata.isEmpty then [] else [("rate", .obj rateMetadata)]) ++
    match metadataBlock with
    | none => []
    | some block => [("transfer", .obj block)]

/-- The metadata a run writes: the namespaces never collide, so the merge does not raise. The fields
of the source stay, and the layer is replaced as a whole. -/
def storedMetadata (sourceMetadata : Option Dict) (rateMetadata : Dict)
    (metadataBlock : Option Dict) : Option Dict :=
  if (layerOf rateMetadata metadataBlock).isEmpty then sourceMetadata
  else some ((sourceMetadata.getD []).set "layer" (.obj (layerOf rateMetadata metadataBlock)))

theorem buildMetadata_eq (sourceMetadata : Option Dict) (rateMetadata : Dict)
    (metadataBlock : Option Dict) :
    buildMetadata sourceMetadata (layerContributions rateMetadata metadataBlock) =
      .ok (storedMetadata sourceMetadata rateMetadata metadataBlock) := by
  rcases metadataBlock with _ | block
  · rcases hr : rateMetadata.isEmpty with _ | _
    · simp [buildMetadata, layerContributions, storedMetadata, layerOf, hr, mergeLayers,
        Dict.set, Except.map]
    · simp [buildMetadata, layerContributions, storedMetadata, layerOf, hr]
  · rcases hr : rateMetadata.isEmpty with _ | _
    · simp [buildMetadata, layerContributions, storedMetadata, layerOf, hr, mergeLayers,
        Dict.set, Dict.get?, Except.map]
    · simp [buildMetadata, layerContributions, storedMetadata, layerOf, hr, mergeLayers,
        Dict.set, Except.map]

/-- The row a run writes, given what detection and conversion returned. -/
def enrichedRow (tx : NormalizedTransaction) (source : TransactionSource)
    (account : AccountProps) (conversion : ConversionResult) (res : TransferResult) :
    Transaction :=
  toRow tx source account.currencyCode res.specialCategory conversion.amounts
    (storedMetadata tx.metadata conversion.rateMetadata res.metadataBlock)
    res.relatedTransactionId

/-- The tables after the insert of a row and of its anomalies, given that no check stops them. -/
def Database.persist (db : Database) (row : Transaction) (anomalies : List AnomalyRecord) :
    Database where
  transactions := db.transactions.insertIgnore row
  anomalies := anomalies.foldl KeyedTable.insertIgnore db.anomalies

@[simp] theorem Database.stored_persist {row : Transaction} {anomalies : List AnomalyRecord}
    {id : UUID} : (db.persist row anomalies).Stored id ↔ db.Stored id ∨ id = row.id :=
  KeyedTable.hasKey_insertIgnore

@[simp] theorem Database.stored_claim {existingId newId id : UUID} {metadata : Json} :
    (db.claim existingId newId metadata).Stored id ↔ db.Stored id :=
  KeyedTable.hasKey_updateWhere fun r => r.claimed_id newId metadata

theorem Database.mem_claim {existingId newId : UUID} {metadata : Json} {r : Transaction} :
    r ∈ (db.claim existingId newId metadata).transactions ↔
      ∃ r₀ ∈ db.transactions,
        (if decide (r₀.id = existingId) then r₀.claimed newId metadata else r₀) = r :=
  KeyedTable.mem_updateWhere fun r => r.claimed_id newId metadata

/-- A claim changes no dedup key. -/
@[simp] theorem Database.dedupTaken_claim {existingId newId accountId : UUID}
    {metadata : Json} {sourceId : String} :
    (db.claim existingId newId metadata).DedupTaken accountId sourceId ↔
      db.DedupTaken accountId sourceId := by
  refine ⟨?_, ?_⟩
  · rintro ⟨r, hr, h1, h2⟩
    obtain ⟨r₀, hr₀, rfl⟩ := mem_claim.mp hr
    refine ⟨r₀, hr₀, ?_⟩
    split at h1 <;> split at h2 <;> exact ⟨h1, h2⟩
  · rintro ⟨r₀, hr₀, h1, h2⟩
    refine ⟨_, mem_claim.mpr ⟨r₀, hr₀, rfl⟩, ?_⟩
    split <;> exact ⟨h1, h2⟩

/-- Detection neither stores nor forgets a row. -/
theorem Detection.stored_iff {res : TransferResult} {db₁ : Database} {id : UUID}
    (h : Detection env db tx res db₁) : db₁.Stored id ↔ db.Stored id := by
  cases h with
  | skipped => exact Iff.rfl
  | unpaired => exact Iff.rfl
  | claimed => exact Database.stored_claim

theorem Detection.dedupTaken_iff {res : TransferResult} {db₁ : Database} {accountId : UUID}
    {sourceId : String} (h : Detection env db tx res db₁) :
    db₁.DedupTaken accountId sourceId ↔ db.DedupTaken accountId sourceId := by
  cases h with
  | skipped => exact Iff.rfl
  | unpaired => exact Iff.rfl
  | claimed => exact Database.dedupTaken_claim

/-- Every anomaly of a detection is about the event itself. -/
theorem Detection.anomaly_stamp {res : TransferResult} {db₁ : Database} {a : AnomalyRecord}
    (h : Detection env db tx res db₁) (ha : a ∈ res.anomalies) : a.transactionId = tx.id := by
  cases h with
  | skipped => cases ha
  | unpaired anomalies _ _ hs => exact hs a ha
  | claimed r pair metadata canary _ _ _ _ _ hs =>
    exact (hs a (Option.mem_toList.mp ha)).1

theorem foldlM_recordAnomaly {anomalies : List AnomalyRecord}
    (h : ∀ a ∈ anomalies, db.Stored a.transactionId) :
    anomalies.foldlM recordAnomaly db =
      .ok ⟨db.transactions, anomalies.foldl KeyedTable.insertIgnore db.anomalies⟩ := by
  induction anomalies generalizing db with
  | nil => rfl
  | cons a anomalies ih =>
    rw [List.foldlM_cons, recordAnomaly, if_pos (h a (List.mem_cons_self ..))]
    exact ih fun a' ha' => h a' (List.mem_cons_of_mem _ ha')

/-! ## One run

The theorem of this section says everything a unit of work can do. The results on sequences,
redeliveries and replays are derived from it, without a look into the pipeline. -/

/-- A run on a fresh id: what detection returned, persisted. The fields are what has to hold for the
run to succeed, and what it leaves. -/
structure Enriched (env : PipelineEnv) (db : Database) (tx : NormalizedTransaction)
    (account : AccountProps) (source : TransactionSource) (conversion : ConversionResult)
    (res : TransferResult) (db₁ db' : Database) : Prop where
  fresh : ¬ db.Stored tx.id
  account_eq : getById env tx.accountId = .ok account
  source_eq : TransactionSource.ofText tx.source = some source
  conversion_eq : env.convert tx account.currencyCode = .ok conversion
  user_mem : tx.userId ∈ env.users
  dedup_free : ¬ db.DedupTaken tx.accountId tx.sourceId
  encodable : (enrichedRow tx source account conversion res).encodable = true
  returned : runTransferDetection env db tx = .ok (res, db₁)
  detection : Detection env db tx res db₁
  result : db' = db₁.persist (enrichedRow tx source account conversion res) res.anomalies

theorem exceptMap_eq_ok {ε α β : Type} {f : α → β} {x : Except ε α} {b : β} :
    x.map f = .ok b ↔ ∃ a, x = .ok a ∧ f a = b := by
  rcases x with e | a
  · simp [Except.map]
  · simp [Except.map]

theorem exceptBind_eq_ok {ε α β : Type} {x : Except ε α} {f : α → Except ε β} {b : β} :
    (x >>= f) = .ok b ↔ ∃ a, x = .ok a ∧ f a = .ok b := by
  rcases x with e | a
  · refine ⟨?_, ?_⟩
    · intro h
      cases h
    · rintro ⟨_, h, -⟩
      cases h
  · refine ⟨?_, ?_⟩
    · exact fun h => ⟨a, rfl, h⟩
    · rintro ⟨_, h, hf⟩
      cases h
      exact hf

theorem mapError_eq_ok {ε ε' α : Type} {f : ε → ε'} {x : Except ε α} {a : α} :
    x.mapError f = .ok a ↔ x = .ok a := by
  rcases x with e | b
  · exact iff_of_false (fun h => by cases h) fun h => by cases h
  · exact ⟨fun h => congrArg _ (Except.ok.inj h), fun h => congrArg _ (Except.ok.inj h)⟩

/-- The statements of a successful run, in order: each has succeeded on what the ones before have
left. -/
theorem run_eq_ok :
    run env db tx = .ok db' ↔
      ∃ account res db₁ conversion db₂, getById env tx.accountId = .ok account ∧
        runTransferDetection env db tx = .ok (res, db₁) ∧
        env.convert tx account.currencyCode = .ok conversion ∧
        insertTransaction env db₁ tx account.currencyCode res.specialCategory
          conversion.amounts
          (storedMetadata tx.metadata conversion.rateMetadata res.metadataBlock)
          res.relatedTransactionId = .ok db₂ ∧
        res.anomalies.foldlM recordAnomaly db₂ = .ok db' := by
  simp only [run, exceptBind_eq_ok, mapError_eq_ok, buildMetadata_eq, Except.ok.injEq,
    Prod.exists]
  refine ⟨?_, ?_⟩
  · rintro ⟨account, ha, res, db₁, hd, conversion, hc, _, rfl, db₂, hi, hf⟩
    exact ⟨account, res, db₁, conversion, db₂, ha, hd, hc, hi, hf⟩
  · rintro ⟨account, res, db₁, conversion, db₂, ha, hd, hc, hi, hf⟩
    exact ⟨account, ha, res, db₁, hd, conversion, hc, _, rfl, db₂, hi, hf⟩

/-- Inversion of the insert: the id was stored and nothing is written, or every check passed
and the row is appended. -/
theorem insertTransaction_cases {cur : String} {special : Option SpecialCategory}
    {converted : Currency → Option ℤ} {metadata : Option Dict} {related : Option UUID}
    (h : insertTransaction env db tx cur special converted metadata related = .ok db') :
    (db.Stored tx.id ∧ db' = db) ∨
    ∃ source, TransactionSource.ofText tx.source = some source ∧ ¬ db.Stored tx.id ∧
      ¬ db.DedupTaken tx.accountId tx.sourceId ∧ tx.userId ∈ env.users ∧
      (toRow tx source cur special converted metadata related).encodable = true ∧
      db' = ⟨db.transactions.insertIgnore
        (toRow tx source cur special converted metadata related), db.anomalies⟩ := by
  unfold insertTransaction at h
  split at h
  · cases h
  next source hs =>
  simp only at h
  split at h
  · cases h
  next henc =>
  split at h
  · next hst => exact Or.inl ⟨hst, (Except.ok.inj h).symm⟩
  next hst =>
  split at h
  · cases h
  next hdt =>
  split at h
  · cases h
  next hu =>
  refine Or.inr ⟨source, hs, hst, hdt, ?_, ?_, (Except.ok.inj h).symm⟩
  · simpa using hu
  · simpa using henc

/-- **What one unit of work can do**: on a stored id nothing; on a fresh one, persist the outcome of
detection. A run that succeeds has no third way. -/
theorem run_cases (h : run env db tx = .ok db') :
    (db.Stored tx.id ∧ db' = db) ∨
    ∃ account source conversion res db₁,
      Enriched env db tx account source conversion res db₁ db' := by
  obtain ⟨account, res, db₁, conversion, db₂, ha, hd, hc, hi, hf⟩ := run_eq_ok.mp h
  have hdet := runTransferDetection_cases hd
  rcases insertTransaction_cases hi with ⟨hst, rfl⟩ | ⟨source, hs, hst, hdt, hu, henc, rfl⟩
  · left
    have hst' : db.Stored tx.id := hdet.stored_iff.mp hst
    refine ⟨hst', ?_⟩
    cases hdet with
    | skipped => exact (Except.ok.inj hf).symm
    | unpaired _ _ hfresh => exact absurd hst' hfresh
    | claimed _ _ _ _ _ hfresh => exact absurd hst' hfresh
  · right
    refine ⟨account, source, conversion, res, db₁, fun hst' => hst (hdet.stored_iff.mpr hst'),
      ha, hs, hc, hu, fun hdt' => hdt (hdet.dedupTaken_iff.mpr hdt'), henc, hd, hdet, ?_⟩
    rw [foldlM_recordAnomaly] at hf
    · exact (Except.ok.inj hf).symm
    · intro a haa
      rw [hdet.anomaly_stamp haa]
      exact KeyedTable.hasKey_insertIgnore.mpr (Or.inr rfl)

theorem consume_of_run (h : run env db tx = .ok db') : consume env db tx = db' := by
  simp only [consume, h]

/-- **What the transaction around a run can do**: nothing, or on a fresh id persist the outcome of
detection. Nothing covers both a stored id and an exception. -/
theorem consume_cases (env : PipelineEnv) (db : Database) (tx : NormalizedTransaction) :
    consume env db tx = db ∨
    ∃ account source conversion res db₁,
      Enriched env db tx account source conversion res db₁ (consume env db tx) := by
  rcases hrun : run env db tx with e | db'
  · left
    simp only [consume, hrun]
  · rw [consume_of_run hrun]
    exact (run_cases hrun).imp_left And.right

/-- A run that succeeds leaves the row of its event. -/
theorem stored_of_run (h : run env db tx = .ok db') : db'.Stored tx.id := by
  rcases run_cases h with ⟨hst, rfl⟩ | ⟨_, _, _, _, _, he⟩
  · exact hst
  · rw [he.result]
    exact Database.stored_persist.mpr (Or.inr rfl)

/-- **A redelivered event writes nothing**, whatever the environment is by then: the insert ignores
the conflict, and detection does not look at an event that is stored. -/
theorem consume_of_stored (h : db.Stored tx.id) : consume env db tx = db := by
  rcases consume_cases env db tx with hdb | ⟨_, _, _, _, _, he⟩
  · exact hdb
  · exact absurd h he.fresh

/-- No unit of work forgets a row. -/
theorem consume_stored_mono {id : UUID} (h : db.Stored id) :
    (consume env db tx).Stored id := by
  rcases consume_cases env db tx with hdb | ⟨_, _, _, _, _, he⟩
  · rw [hdb]
    exact h
  · rw [he.result]
    exact Database.stored_persist.mpr (Or.inl (he.detection.stored_iff.mpr h))

/-- What every unit of work keeps, a sequence of them keeps: the induction rule for all invariants
of the tables. -/
theorem consumeAll_induction {P : Database → Prop} {events : List NormalizedTransaction}
    (hstep : ∀ db, ∀ tx ∈ events, P db → P (consume env db tx)) (h : P db) :
    P (consumeAll env db events) := by
  induction events generalizing db with
  | nil => exact h
  | cons tx events ih =>
    exact ih (fun db tx' htx' => hstep db tx' (List.mem_cons_of_mem _ htx'))
      (hstep db tx (List.mem_cons_self ..) h)

/-! ## When the consumer skips an event -/

/-- The outcome is `AccountNotFoundError`. -/
def Skips {α : Type} (x : Except PipelineError α) : Prop :=
  ∃ accountId, x = .error (.accountNotFound accountId)

theorem not_skips_ok {α : Type} (a : α) : ¬ Skips (.ok a : Except PipelineError α) := by
  rintro ⟨_, h⟩
  cases h

theorem not_skips_map {α β : Type} {f : α → β} {x : Except PipelineError α} (h : ¬ Skips x) :
    ¬ Skips (x.map f) := by
  rcases x with e | a
  · rintro ⟨id, he⟩
    exact h ⟨id, by rw [Except.error.inj he]⟩
  · exact not_skips_ok (f a)

/-- In a sequence of statements one of them is to blame. -/
theorem not_skips_bind {α β : Type} {x : Except PipelineError α}
    {f : α → Except PipelineError β} (hx : ¬ Skips x) (hf : ∀ a, x = .ok a → ¬ Skips (f a)) :
    ¬ Skips (x >>= f) := by
  rcases x with e | a
  · rintro ⟨id, he⟩
    exact hx ⟨id, by rw [Except.error.inj he]⟩
  · exact hf a rfl

section Decide

variable {id : UUID} {d : Option String} {acc : AccountProps}
  {props : UUID → Option AccountProps}

theorem not_skips_decideSingle {partner : CandidateRow} {ev : PairEvidence} {dd : Bool} :
    ¬ Skips (decideSingle id d acc props partner ev dd) := by
  simp only [decideSingle]
  split
  · rintro ⟨_, h⟩
    cases h
  · exact not_skips_ok _

theorem not_skips_descriptionSurvivors {bucket : List CandidateRow} :
    ¬ Skips (descriptionSurvivors d acc props bucket) := by
  induction bucket with
  | nil => exact not_skips_ok _
  | cons cand bucket ih =>
    simp only [descriptionSurvivors]
    split
    · rintro ⟨_, h⟩
      cases h
    · exact not_skips_map ih

theorem not_skips_decideMany {candidates : List ScoredCandidate} :
    ¬ Skips (decideMany id d acc props candidates) := by
  unfold decideMany
  simp only
  split
  · next e he =>
    rintro ⟨_, h⟩
    exact not_skips_descriptionSurvivors ⟨_, by rw [he, Except.error.inj h]⟩
  · exact not_skips_decideSingle
  · split <;> exact not_skips_ok _

theorem not_skips_decideTransfer {candidates : List ScoredCandidate} :
    ¬ Skips (decideTransfer id d acc props candidates) := by
  simp only [decideTransfer]
  split
  · exact not_skips_ok _
  · exact not_skips_decideSingle
  · exact not_skips_decideMany

end Decide

theorem not_skips_applyDecision {decision : Decision} {block : Json} :
    ¬ Skips (applyDecision db tx decision block) := by
  rcases decision with ⟨pid, ev, dd, canary⟩ | a | _
  · simp only [applyDecision, claimPair]
    rcases db.transactions.find? pid with _ | r
    · exact not_skips_ok _
    simp only
    rcases claimMetadata r.metadata (buildPairBlock ev dd) with _ | m
    · rintro ⟨_, h⟩
      cases h
    · exact not_skips_ok _
  · exact not_skips_ok _
  · exact not_skips_ok _

theorem not_skips_runTransferDetection {account : AccountProps}
    (ha : getById env tx.accountId = .ok account) : ¬ Skips (runTransferDetection env db tx) := by
  simp only [runTransferDetection]
  split
  swap
  · exact not_skips_ok _
  simp only [detectAndPair]
  simp only [ha]
  split_ifs
  · exact not_skips_ok _
  · exact not_skips_ok _
  · exact not_skips_ok _
  · exact not_skips_ok _
  split
  · next e he =>
    rintro ⟨_, h⟩
    exact not_skips_decideTransfer ⟨_, by rw [he, Except.error.inj h]⟩
  · exact not_skips_applyDecision

theorem not_skips_insertTransaction {cur : String} {special : Option SpecialCategory}
    {converted : Currency → Option ℤ} {metadata : Option Dict} {related : Option UUID} :
    ¬ Skips (insertTransaction env db tx cur special converted metadata related) := by
  unfold insertTransaction
  split
  · rintro ⟨_, h⟩
    cases h
  simp only
  split_ifs <;>
    first
      | exact not_skips_ok _
      | rintro ⟨_, h⟩
        cases h

theorem not_skips_recordAnomalies {anomalies : List AnomalyRecord} :
    ¬ Skips (anomalies.foldlM recordAnomaly db) := by
  induction anomalies generalizing db with
  | nil => exact not_skips_ok _
  | cons a anomalies ih =>
    rw [List.foldlM_cons]
    refine not_skips_bind ?_ fun db' _ => ih
    simp only [recordAnomaly]
    split
    · exact not_skips_ok _
    · rintro ⟨_, h⟩
      cases h

/-- **The consumer skips an event only for the account it names.** -/
theorem not_skips_run {account : AccountProps} (ha : getById env tx.accountId = .ok account) :
    ¬ Skips (run env db tx) := by
  simp only [run]
  apply not_skips_bind (ha ▸ not_skips_ok _)
  intro a _
  apply not_skips_bind (not_skips_runTransferDetection ha)
  intro p _
  refine not_skips_bind ?_ fun conversion _ => ?_
  · rcases env.convert tx a.currencyCode with e | c
    · rintro ⟨_, h⟩
      cases h
    · exact not_skips_ok _
  rw [buildMetadata_eq]
  exact not_skips_bind (not_skips_ok _) fun _ _ =>
    not_skips_bind not_skips_insertTransaction fun _ _ => not_skips_recordAnomalies

end Grosh
