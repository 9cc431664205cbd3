import Grosh.UnitOfWork

/-!
# The rows a run leaves, and when it succeeds

Two consequences of `run_cases` that every later result starts from.

* `consume_row_cases` — a row found after a unit of work was there before, is the new row of
  the event, or is a free candidate of it, claimed;
* `run_ok_iff` — on a fresh id a run succeeds exactly when the event passes the checks that do
  not look at the two tables (`Admitted`) and its dedup key is free. In particular the outcome
  of detection never decides whether a run fails.

The second needs the stored rows to be sound (`RowsSound`): their accounts exist, as the
foreign key says, and a claim can be written into their metadata.
-/

namespace Grosh

variable {env : PipelineEnv} {db db' : Database} {tx : NormalizedTransaction}

/-! ## Membership after the writes -/

theorem Database.mem_persist {row r : Transaction} {anomalies : List AnomalyRecord}
    (hf : ¬ db.Stored row.id) :
    r ∈ (db.persist row anomalies).transactions ↔ r ∈ db.transactions ∨ r = row :=
  KeyedTable.mem_insertIgnore_of_not_hasKey hf

/-- An anomaly found after the insert was there before or is one of the inserted ones. -/
theorem Database.mem_persist_anomalies {row : Transaction} {anomalies : List AnomalyRecord}
    {x : AnomalyRecord} (h : x ∈ (db.persist row anomalies).anomalies) :
    x ∈ db.anomalies ∨ x ∈ anomalies := by
  simp only [persist] at h
  generalize db.anomalies = t at h ⊢
  induction anomalies generalizing t with
  | nil => exact Or.inl h
  | cons a anomalies ih =>
    rcases ih _ h with h | h
    · rcases KeyedTable.mem_of_mem_insertIgnore h with h | rfl
      · exact Or.inl h
      · exact Or.inr (List.mem_cons_self ..)
    · exact Or.inr (List.mem_cons_of_mem _ h)

/-- The rows after a claim and the insert of the claiming row. -/
theorem Database.mem_claim_persist {r row r' : Transaction} {metadata : Json}
    {anomalies : List AnomalyRecord} (hr : r ∈ db.transactions) (hf : ¬ db.Stored row.id) :
    r' ∈ ((db.claim r.id row.id metadata).persist row anomalies).transactions ↔
      r' = row ∨ r' = r.claimed row.id metadata ∨ r' ∈ db.transactions ∧ r'.id ≠ r.id := by
  have hclaim : r' ∈ (db.claim r.id row.id metadata).transactions ↔
      r' = r.claimed row.id metadata ∨ (r' ∈ db.transactions ∧ r'.id ≠ r.id) :=
    KeyedTable.mem_updateWhere_key (fun q => q.claimed_id row.id metadata) hr
  rw [Database.mem_persist (by simpa using hf), hclaim, or_comm]

/-! ## The metadata of a new row -/

theorem layerOf_transfer (rateMetadata : Dict) (block : Dict) :
    Dict.get? (layerOf rateMetadata (some block)) "transfer" = some (.obj block) := by
  simp only [layerOf]
  split <;> simp [Dict.get?]

theorem layerOf_no_transfer (rateMetadata : Dict) :
    Dict.get? (layerOf rateMetadata none) "transfer" = none := by
  simp only [layerOf]
  split <;> simp [Dict.get?]

/-- The metadata column of a new row: the event's own, or the event's with a layer. -/
theorem enrichedRow_metadata {source : TransactionSource} {account : AccountProps}
    {conversion : ConversionResult} {res : TransferResult} :
    (enrichedRow tx source account conversion res).metadata =
      if (layerOf conversion.rateMetadata res.metadataBlock).isEmpty then
        tx.metadata.bind fun d => if d.isEmpty then none else some (.obj d)
      else some (.obj ((tx.metadata.getD []).set "layer"
        (.obj (layerOf conversion.rateMetadata res.metadataBlock)))) := by
  simp only [enrichedRow, toRow, storedMetadata]
  split
  · rfl
  · simp

/-- A claim can always be written into a new row. -/
theorem settable_enrichedRow (hn : tx.NoLayer) {source : TransactionSource}
    {account : AccountProps} {conversion : ConversionResult} {res : TransferResult} :
    Settable (enrichedRow tx source account conversion res).metadata := by
  rw [enrichedRow_metadata]
  split
  · intro m hm
    obtain ⟨d, hd, hm⟩ := Option.bind_eq_some_iff.mp hm
    split at hm
    · cases hm
    · refine ⟨d, (Option.some.inj hm).symm, fun l hl => ?_⟩
      rw [hn d hd] at hl
      cases hl
  · intro m hm
    obtain rfl := Option.some.inj hm
    refine ⟨_, rfl, fun l hl => ?_⟩
    rw [Dict.get?_set_self] at hl
    obtain rfl := Option.some.inj hl
    refine ⟨_, rfl, fun t ht => ?_⟩
    rcases hb : res.metadataBlock with _ | block
    · rw [hb, layerOf_no_transfer] at ht
      cases ht
    · rw [hb, layerOf_transfer] at ht
      exact ⟨block, (Option.some.inj ht).symm⟩

/-- A new row carries the pair block its detection emitted. -/
theorem pairBlock_enrichedRow {source : TransactionSource} {account : AccountProps}
    {conversion : ConversionResult} {res : TransferResult} {block : Dict} {pair : Json}
    (hb : res.metadataBlock = some block) (hp : Dict.get? block "pair" = some pair) :
    (enrichedRow tx source account conversion res).pairBlock = some pair := by
  have hne : (layerOf conversion.rateMetadata (some block)).isEmpty = false := by
    simp [layerOf]
  rw [Transaction.pairBlock, enrichedRow_metadata, hb, hne]
  simp [layerOf_transfer, hp]

theorem get?_claimBlock (pair : Json) :
    Dict.get? (claimBlock env tx pair) "pair" = some pair := by
  simp [claimBlock, Dict.get?]

/-- A candidate is unclaimed. -/
theorem eligible_free {r : Transaction} (h : eligible env tx r = true) :
    r.relatedTransactionId = none := by
  simp only [eligible, matchesUniversal, Bool.and_eq_true, Option.isNone_iff_eq_none] at h
  exact h.1.1.1.2

/-! ## The anomalies after a unit of work -/

/-- Detection only deletes anomalies. -/
theorem Detection.mem_anomalies {res : TransferResult} {db₁ : Database} {a : AnomalyRecord}
    (h : Detection env db tx res db₁) (ha : a ∈ db₁.anomalies) : a ∈ db.anomalies := by
  cases h with
  | skipped => exact ha
  | unpaired => exact ha
  | claimed => exact (KeyedTable.mem_deleteWhere.mp ha).1

/-- An anomaly found after a unit of work was there before, or is about the new row. -/
theorem consume_anomaly_cases {a : AnomalyRecord} (ha : a ∈ (consume env db tx).anomalies) :
    a ∈ db.anomalies ∨ a.transactionId = tx.id ∧ (consume env db tx).Stored tx.id := by
  obtain hdb | ⟨account, source, conversion, res, db₁, he⟩ := consume_cases env db tx
  · exact Or.inl (hdb ▸ ha)
  rw [he.result] at ha ⊢
  obtain ha | ha := Database.mem_persist_anomalies ha
  · exact Or.inl (he.detection.mem_anomalies ha)
  · exact Or.inr ⟨he.detection.anomaly_stamp ha, Database.stored_persist.mpr (Or.inr rfl)⟩

/-! ## The rows after a unit of work

Seen from one row, a unit of work is simple: the row was there, or it is the new one, or it is the
partner that was claimed. Most invariants of the table are about one row or about two, and start
from here. -/

/-- Inversion of a unit of work, seen from one row: it was there before, it is the new row of the
event, or it was a free candidate and has been claimed. -/
theorem consume_row_cases {r : Transaction} (hr : r ∈ (consume env db tx).transactions) :
    r ∈ db.transactions ∨
    (∃ account source conversion res db₁ db',
      Enriched env db tx account source conversion res db₁ db' ∧
        r = enrichedRow tx source account conversion res) ∨
    ¬ db.Stored tx.id ∧ ∃ r₀ ∈ db.transactions, eligible env tx r₀ = true ∧ ∃ pair metadata,
      claimMetadata r₀.metadata pair = some metadata ∧ r = r₀.claimed tx.id metadata := by
  rcases consume_cases env db tx with hdb | ⟨account, source, conversion, res, db₁, he⟩
  · exact Or.inl (hdb ▸ hr)
  have hfresh : ¬ db.Stored (enrichedRow tx source account conversion res).id := he.fresh
  have hnew : Enriched env db tx account source conversion res db₁ (consume env db tx) := he
  obtain ⟨-, -, -, -, -, -, -, -, hdet, hres⟩ := he
  rw [hres] at hr
  have hplain : r ∈ (db.persist (enrichedRow tx source account conversion res)
      res.anomalies).transactions → r ∈ db.transactions ∨
      r = enrichedRow tx source account conversion res := (Database.mem_persist hfresh).mp
  cases hdet with
  | skipped =>
    exact (hplain hr).imp_right fun h => Or.inl ⟨_, _, _, _, _, _, hnew, h⟩
  | unpaired =>
    exact (hplain hr).imp_right fun h => Or.inl ⟨_, _, _, _, _, _, hnew, h⟩
  | claimed r₀ pair metadata _ _ _ _ hr₀ hel _ hcm =>
    rcases (Database.mem_claim_persist hr₀ hfresh).mp hr with h | h | ⟨h, -⟩
    · exact Or.inr (Or.inl ⟨_, _, _, _, _, _, hnew, h⟩)
    · exact Or.inr (Or.inr ⟨hfresh, r₀, hr₀, hel, pair, metadata, hcm, h⟩)
    · exact Or.inl h

/-- A row with this id is stored, and it is the user's. -/
def Database.Owns (db : Database) (userId id : UUID) : Prop :=
  ∃ r ∈ db.transactions, r.userId = userId ∧ r.id = id

/-- A unit of work takes no row from a user. -/
theorem owns_consume_of_owns {userId id : UUID} (h : db.Owns userId id) :
    (consume env db tx).Owns userId id := by
  obtain ⟨r, hr, hu, rfl⟩ := h
  have hstored : (consume env db tx).Stored r.id :=
    consume_stored_mono (KeyedTable.hasKey_of_mem hr)
  obtain ⟨r', hr', hid⟩ := hstored
  refine ⟨r', hr', ?_, hid⟩
  rcases consume_row_cases hr' with hr' | ⟨_, _, _, _, _, _, he, rfl⟩ |
    ⟨-, r₀, hr₀, -, _, _, -, rfl⟩
  · rw [KeyedTable.eq_of_key_eq hr' hr hid, hu]
  · exact absurd ⟨r, hr, hid.symm⟩ he.fresh
  · rw [Transaction.claimed_id] at hid
    rw [← hu, ← KeyedTable.eq_of_key_eq hr₀ hr hid]
    rfl

/-- The row a unit of work adds is that of its event. -/
theorem owns_of_owns_consume {userId id : UUID} (h : (consume env db tx).Owns userId id) :
    db.Owns userId id ∨ ¬ db.Stored tx.id ∧ tx.userId = userId ∧ id = tx.id := by
  obtain ⟨r, hr, hu, rfl⟩ := h
  rcases consume_row_cases hr with hr | ⟨_, _, _, _, _, _, he, rfl⟩ |
    ⟨-, r₀, hr₀, -, _, _, -, rfl⟩
  · exact Or.inl ⟨r, hr, hu, rfl⟩
  · exact Or.inr ⟨he.fresh, hu, rfl⟩
  · exact Or.inl ⟨r₀, hr₀, hu, rfl⟩

/-- A claim can be written into the metadata of every row. Rows enrichment has written are settable,
and a claim leaves them so. -/
def AllSettable (db : Database) : Prop := ∀ r ∈ db.transactions, Settable r.metadata

theorem AllSettable.consume (h : AllSettable db) (hn : tx.NoLayer) :
    AllSettable (consume env db tx) := by
  intro r hr
  rcases consume_row_cases hr with hr | ⟨_, _, _, _, _, _, -, rfl⟩ |
    ⟨-, r₀, hr₀, -, pair, metadata, hcm, rfl⟩
  · exact h r hr
  · exact settable_enrichedRow hn
  · obtain ⟨m, hm, hms, -⟩ := (h r₀ hr₀).claimMetadata pair
    obtain rfl := Option.some.inj (hcm.symm.trans hm)
    exact hms

/-- The account is one of the known ones. -/
def AccountKnown (accounts : List AccountProps) (accountId : UUID) : Prop :=
  ∃ a ∈ accounts, a.id = accountId

theorem accountKnown_iff {accountId : UUID} :
    AccountKnown env.accounts accountId ↔ ∃ account, getById env accountId = .ok account := by
  rcases hfind : env.accounts.find? (fun a => decide (a.id = accountId)) with _ | a
  · refine iff_of_false ?_ ?_
    · rintro ⟨a, ha, hid⟩
      have hno := List.find?_eq_none.mp hfind a ha
      simp [hid] at hno
    · rintro ⟨account, h⟩
      simp only [getById, hfind] at h
      cases h
  · refine iff_of_true ⟨a, List.mem_of_find?_eq_some hfind, ?_⟩ ⟨a, by simp only [getById, hfind]⟩
    simpa using List.find?_some hfind

/-- The account of every row exists: `transactions.account_id` is a foreign key. -/
def AccountsExist (accounts : List AccountProps) (db : Database) : Prop :=
  ∀ r ∈ db.transactions, AccountKnown accounts r.accountId

theorem AccountsExist.consume (h : AccountsExist env.accounts db) :
    AccountsExist env.accounts (consume env db tx) := by
  intro r hr
  rcases consume_row_cases hr with hr | ⟨account, _, _, _, _, _, he, rfl⟩ |
    ⟨-, r₀, hr₀, -, _, _, -, rfl⟩
  · exact h r hr
  · exact accountKnown_iff.mpr ⟨account, he.account_eq⟩
  · exact h r₀ hr₀

/-- What a run relies on in the stored rows: their metadata can take a claim, and their accounts
exist, as the foreign key promises. -/
structure RowsSound (env : PipelineEnv) (db : Database) : Prop where
  settable : AllSettable db
  accounts : AccountsExist env.accounts db

theorem rowsSound_empty : RowsSound env .empty :=
  ⟨fun _ hr => absurd hr KeyedTable.not_mem_empty,
    fun _ hr => absurd hr KeyedTable.not_mem_empty⟩

theorem RowsSound.consume (h : RowsSound env db) (hn : tx.NoLayer) :
    RowsSound env (consume env db tx) :=
  ⟨h.settable.consume hn, h.accounts.consume⟩

/-! ## Detection does not fail -/

theorem getManyByIds_isSome {ids : List UUID} {id : UUID} {account : AccountProps}
    (hid : id ∈ ids) (h : getById env id = .ok account) : (getManyByIds env ids id).isSome := by
  rw [getManyByIds, if_pos hid]
  simp only [getById] at h
  split at h
  · cases h
  · next a ha => rw [ha]; rfl

/-- Over sound rows, a decision can always be applied: a claim finds its row, and its metadata takes
the pair block. -/
theorem applyDecision_ok (h : RowsSound env db) {d : Decision} (block : Json)
    (hd : ∀ pid ev dd canary, d = .claim pid ev dd canary → ∃ r ∈ db.transactions, r.id = pid) :
    ∃ res db₁, applyDecision db tx d block = .ok (res, db₁) := by
  rcases d with ⟨pid, ev, dd, canary⟩ | a | _
  · obtain ⟨r, hr, rfl⟩ := hd pid ev dd canary rfl
    obtain ⟨m, hm, -, -⟩ := (h.settable r hr).claimMetadata (buildPairBlock ev dd)
    simp only [applyDecision, claimPair_of_mem hr, hm]
    exact ⟨_, _, rfl⟩
  · exact ⟨_, _, rfl⟩
  · exact ⟨_, _, rfl⟩

/-- Over sound rows, detection of an event whose account exists does not raise, whatever candidates
there are. -/
theorem runTransferDetection_ok (h : RowsSound env db) {account : AccountProps}
    (ha : getById env tx.accountId = .ok account) :
    ∃ res db₁, runTransferDetection env db tx = .ok (res, db₁) := by
  simp only [runTransferDetection]
  split
  swap
  · exact ⟨_, _, rfl⟩
  by_cases hm : tx.mcc = some wireTransfer
  swap
  · rw [detectAndPair, if_pos hm]
    exact ⟨_, _, rfl⟩
  by_cases hd : tx.direction = .zero
  · rw [detectAndPair, if_neg (by simp [hm]), if_pos (by simp [hd])]
    exact ⟨_, _, rfl⟩
  by_cases hf : db.Stored tx.id
  · rw [detectAndPair, if_neg (by simp [hm]), if_pos hf]
    split <;> exact ⟨_, _, rfl⟩
  rw [detectAndPair_of_fresh hm hd hf]
  split
  · exact ⟨_, _, rfl⟩
  have hprops : ∀ c ∈ scoredCandidates env db tx, (getManyByIds env
      ((scoredCandidates env db tx).map fun c => c.1.accountId) c.1.accountId).isSome := by
    rintro ⟨c, ev⟩ hc
    obtain ⟨r, hr, -, rfl, -⟩ := mem_scoredCandidates.mp hc
    obtain ⟨a, har⟩ := accountKnown_iff.mp (h.accounts r hr)
    exact getManyByIds_isSome (List.mem_map_of_mem hc) har
  simp only [ha]
  obtain ⟨d, hdec⟩ := decideTransfer_ok hprops
  rw [hdec]
  apply applyDecision_ok h _
  intro pid ev dd canary hpd
  rcases decideTransfer_cases hdec with ⟨c, ev', dd', canary', hc, he, -⟩ | ⟨a, he, -⟩ | he
  · obtain ⟨r, hr, -, rfl, -⟩ := mem_scoredCandidates.mp hc
    rw [he] at hpd
    obtain ⟨rfl, -, -, -⟩ := Decision.claim.inj hpd
    exact ⟨r, hr, rfl⟩
  · rw [he] at hpd
    cases hpd
  · rw [he] at hpd
    cases hpd

/-! ## When a run succeeds -/

/-- The checks of a run that do not look at the two tables: the account, the source, the conversion,
the user, and the types of the columns. They come out the same whenever the event is consumed in one
environment. -/
def Admitted (env : PipelineEnv) (tx : NormalizedTransaction) : Prop :=
  ∃ account source conversion, getById env tx.accountId = .ok account ∧
    TransactionSource.ofText tx.source = some source ∧
    env.convert tx account.currencyCode = .ok conversion ∧ tx.userId ∈ env.users ∧
    (enrichedRow tx source account conversion .default).encodable = true

theorem noNulFields_set {d : Dict} {k : String} {v : Json} (h : Dict.get? d k = none) :
    Json.noNulFields (d.set k v) = (Json.noNulFields d && (k.noNul && v.noNul)) := by
  induction d with
  | nil => simp [Dict.set, Json.noNulFields]
  | cons p d ih =>
    obtain ⟨k', w⟩ := p
    simp only [Dict.get?] at h
    split at h
    · cases h
    next hne =>
    simp only [Dict.set, if_neg hne, Json.noNulFields, ih h, Bool.and_assoc]

/-- A layer is storable when its parts are. -/
theorem noNulFields_layerOf (rateMetadata : Dict) (block : Option Dict) :
    Json.noNulFields (layerOf rateMetadata block) =
      (Json.noNulFields rateMetadata && block.all Json.noNulFields) := by
  have hrate : "rate".noNul = true := by decide
  have htransfer : "transfer".noNul = true := by decide
  rcases rateMetadata with _ | ⟨p, rateMetadata⟩ <;> rcases block with _ | block <;>
    simp [layerOf, Json.noNulFields, Json.noNul, hrate, htransfer]

/-- Whether the metadata of a new row is storable, part by part. -/
theorem enrichedRow_metadata_noNul (hn : tx.NoLayer) {source : TransactionSource}
    {account : AccountProps} {conversion : ConversionResult} {res : TransferResult} :
    (enrichedRow tx source account conversion res).metadata.all Json.noNul =
      (Json.noNulFields (tx.metadata.getD []) &&
        (Json.noNulFields conversion.rateMetadata &&
          res.metadataBlock.all Json.noNulFields)) := by
  have hlayer : "layer".noNul = true := by decide
  have habsent : Dict.get? (tx.metadata.getD []) "layer" = none := by
    rcases htx : tx.metadata with _ | d
    · rfl
    · exact hn d htx
  rw [enrichedRow_metadata, ← noNulFields_layerOf]
  split
  · next he =>
    rw [List.isEmpty_iff.mp he]
    rcases tx.metadata with _ | d
    · rfl
    · rcases d with _ | ⟨p, d⟩ <;> simp [Json.noNul, Json.noNulFields]
  · simp [Json.noNul, noNulFields_set habsent, hlayer]

/-- What detection returns never makes a row unstorable. -/
theorem enrichedRow_encodable (hn : tx.NoLayer) {source : TransactionSource}
    {account : AccountProps} {conversion : ConversionResult} {res : TransferResult}
    (hb : ∀ block, res.metadataBlock = some block → Json.noNulFields block = true) :
    (enrichedRow tx source account conversion res).encodable =
      (enrichedRow tx source account conversion .default).encodable := by
  have hall : res.metadataBlock.all Json.noNulFields = true := by
    rcases hres : res.metadataBlock with _ | block
    · rfl
    · exact hb block hres
  have hmeta : (enrichedRow tx source account conversion res).metadata.all Json.noNul =
      (enrichedRow tx source account conversion .default).metadata.all Json.noNul := by
    rw [enrichedRow_metadata_noNul hn, enrichedRow_metadata_noNul hn, hall]
    rfl
  simp only [Transaction.encodable]
  rw [hmeta]
  rfl

theorem rowBlock_noNul : (rowBlock env tx).noNul = true := by
  simp only [rowBlock, buildRowBlock, Json.noNul, Json.noNulFields]
  cases (incomingFlags env tx).cpIbanStatus <;> decide

theorem buildPairBlock_noNul (ev : PairEvidence) (dd : Bool) :
    (buildPairBlock ev dd).noNul = true := by
  simp only [buildPairBlock, Json.noNul, Json.noNulFields]
  cases ev <;> decide

/-- The blocks of a detection are storable: they are made of texts the program itself writes. -/
theorem Detection.block_noNul {res : TransferResult} {db₁ : Database}
    (h : Detection env db tx res db₁) :
    ∀ block, res.metadataBlock = some block → Json.noNulFields block = true := by
  have hrow : "row".noNul = true := by decide
  have hpair : "pair".noNul = true := by decide
  intro block hb
  cases h with
  | skipped => cases hb
  | unpaired =>
    obtain rfl := Option.some.inj hb
    simp [Json.noNulFields, hrow, rowBlock_noNul]
  | claimed _ _ _ _ _ _ _ _ _ _ _ hp =>
    obtain ⟨ev, dd, rfl⟩ := hp
    obtain rfl := Option.some.inj hb
    simp [claimBlock, Json.noNulFields, hrow, hpair, rowBlock_noNul, buildPairBlock_noNul]

theorem insertTransaction_ok {cur : String} {special : Option SpecialCategory}
    {converted : Currency → Option ℤ} {metadata : Option Dict} {related : Option UUID}
    {source : TransactionSource} (hs : TransactionSource.ofText tx.source = some source)
    (henc : (toRow tx source cur special converted metadata related).encodable = true)
    (hf : ¬ db.Stored tx.id) (hd : ¬ db.DedupTaken tx.accountId tx.sourceId)
    (hu : tx.userId ∈ env.users) :
    insertTransaction env db tx cur special converted metadata related =
      .ok ⟨db.transactions.insertIgnore
        (toRow tx source cur special converted metadata related), db.anomalies⟩ := by
  simp only [insertTransaction, hs]
  rw [if_neg (by simp [henc]), if_neg hf, if_neg hd, if_neg (by simpa using hu)]

/-- **When a run succeeds**: on a fresh id, exactly when the event is admitted and its dedup key is
free. What detection finds among the rows has no say in it. -/
theorem run_ok_iff (h : RowsSound env db) (hn : tx.NoLayer) (hf : ¬ db.Stored tx.id) :
    (∃ db', run env db tx = .ok db') ↔
      Admitted env tx ∧ ¬ db.DedupTaken tx.accountId tx.sourceId := by
  refine ⟨?_, ?_⟩
  · rintro ⟨db', hrun⟩
    rcases run_cases hrun with ⟨hst, -⟩ | ⟨account, source, conversion, res, db₁, he⟩
    · exact absurd hst hf
    · refine ⟨⟨account, source, conversion, he.account_eq, he.source_eq, he.conversion_eq,
        he.user_mem, ?_⟩, he.dedup_free⟩
      rw [← enrichedRow_encodable hn he.detection.block_noNul]
      exact he.encodable
  · rintro ⟨⟨account, source, conversion, ha, hs, hc, hu, henc⟩, hdt⟩
    obtain ⟨res, db₁, hd⟩ := runTransferDetection_ok h ha
    have hdet := runTransferDetection_cases hd
    rw [← enrichedRow_encodable hn hdet.block_noNul] at henc
    have hf₁ : ¬ db₁.Stored tx.id := fun hst => hf (hdet.stored_iff.mp hst)
    have hdt₁ : ¬ db₁.DedupTaken tx.accountId tx.sourceId :=
      fun hdt' => hdt (hdet.dedupTaken_iff.mp hdt')
    refine ⟨_, run_eq_ok.mpr ⟨account, res, db₁, conversion, _, ha, hd, hc,
      insertTransaction_ok hs henc hf₁ hdt₁ hu, foldlM_recordAnomaly fun a haa => ?_⟩⟩
    rw [hdet.anomaly_stamp haa]
    exact KeyedTable.hasKey_insertIgnore.mpr (Or.inr rfl)

end Grosh
