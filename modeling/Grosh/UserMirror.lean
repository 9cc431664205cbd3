import Mathlib.Data.List.Forall2
import Grosh.CandidateOrder
import Grosh.StoredRows

/-!
# A user's part of the tables

What enrichment does for the events of a user depends on the user's own rows alone: a database that
holds the same rows of the user, and the same anomalies of a set of transaction ids, takes an
event of the user in the same way, whatever else it holds and in whatever order it returns the
candidates (`Mirrors.run`). The events of other users change nothing of it
(`Mirrors.consume_other`).

The second database is the one a reader has in mind: the user's own, with nobody else in it. Two
runs that start from mirrors of the same database end in mirrors of the same, which is what
comparing a replay with what was there before comes down to.
-/

namespace Grosh

variable {env env₀ : PipelineEnv} {db db₀ db' : Database} {tx : NormalizedTransaction}
  {userId : UUID} {ids : List UUID}

/-! ## What a unit of work reads beside the tables

The accounts and the conversion come from outside the two tables. Which users there are matters for
one thing only: the foreign key of the row. -/

/-- The same accounts and the same conversion; users and the order of rows may differ. Two
environments with the same reads decide alike. -/
structure SameReads (env env₀ : PipelineEnv) : Prop where
  accounts : env.accounts = env₀.accounts
  convert : env.convert = env₀.convert

theorem SameReads.getById (h : SameReads env env₀) (accountId : UUID) :
    getById env accountId = getById env₀ accountId := by
  rw [Grosh.getById, Grosh.getById, h.accounts]

theorem SameReads.getManyByIds (h : SameReads env env₀) {accountIds accountIds' : List UUID}
    (hp : accountIds.Perm accountIds') :
    getManyByIds env accountIds = getManyByIds env₀ accountIds' := by
  funext id
  simp only [Grosh.getManyByIds, h.accounts, hp.mem_iff]

theorem SameReads.resolveIban (h : SameReads env env₀) (userId : UUID) :
    resolveIban env userId = resolveIban env₀ userId := by
  funext iban
  simp only [Grosh.resolveIban, findByIban, h.accounts]

theorem SameReads.incomingFlags (h : SameReads env env₀) (tx : NormalizedTransaction) :
    incomingFlags env tx = incomingFlags env₀ tx := by
  simp only [Grosh.incomingFlags, h.resolveIban]

theorem SameReads.consistentWith (h : SameReads env env₀) (tx : NormalizedTransaction)
    (c : CandidateRow) : consistentWith env tx c = consistentWith env₀ tx c := by
  simp only [Grosh.consistentWith, candidateFlags, h.incomingFlags, h.resolveIban]

theorem SameReads.evidenceWith (h : SameReads env env₀) (tx : NormalizedTransaction)
    (c : CandidateRow) : evidenceWith env tx c = evidenceWith env₀ tx c := by
  simp only [Grosh.evidenceWith, candidateFlags, h.incomingFlags, h.resolveIban]

theorem SameReads.rowBlock (h : SameReads env env₀) (tx : NormalizedTransaction) :
    rowBlock env tx = rowBlock env₀ tx := by
  rw [Grosh.rowBlock, Grosh.rowBlock, h.incomingFlags]

/-! ## The mirror

The rows of one user, taken out of a database into one of their own. The relation is kept by every
unit of work, of this user and of others. -/

/-- `db₀` holds the user's rows of `db`, and its anomalies of the given transactions, and nothing
else. The anomalies agree up to the order of the candidates they name. -/
structure Mirrors (userId : UUID) (ids : List UUID) (db db₀ : Database) : Prop where
  rows : db.rowsOf userId = db₀.transactions.rows
  anomalies : List.Forall₂ SameAnomaly
    (db.anomalies.rows.filter fun a => decide (a.transactionId ∈ ids)) db₀.anomalies.rows

theorem Mirrors.mem (h : Mirrors userId ids db db₀) {r : Transaction} :
    r ∈ db₀.transactions ↔ r ∈ db.transactions ∧ r.userId = userId := by
  rw [KeyedTable.mem_def, ← h.rows]
  simp only [Database.rowsOf, List.mem_filter, decide_eq_true_eq]
  exact Iff.rfl

theorem Mirrors.not_stored (h : Mirrors userId ids db db₀) {id : UUID} (hid : ¬ db.Stored id) :
    ¬ db₀.Stored id := by
  rintro ⟨r, hr, rfl⟩
  exact hid ⟨r, (h.mem.mp hr).1, rfl⟩

theorem Mirrors.not_dedupTaken (h : Mirrors userId ids db db₀) {accountId : UUID}
    {sourceId : String} (hd : ¬ db.DedupTaken accountId sourceId) :
    ¬ db₀.DedupTaken accountId sourceId := by
  rintro ⟨r, hr, hkey⟩
  exact hd ⟨r, (h.mem.mp hr).1, hkey⟩

/-- The candidates are the same, in some order: a query asks for rows of the user only. -/
theorem Mirrors.scoredCandidates (h : Mirrors userId ids db db₀) (hreads : SameReads env env₀)
    (hu : tx.userId = userId) :
    (scoredCandidates env db tx).Perm (scoredCandidates env₀ db₀ tx) := by
  have hrows : db.transactions.rows.filter (matchesUniversal tx) =
      db₀.transactions.rows.filter (matchesUniversal tx) := by
    rw [← h.rows, Database.rowsOf, List.filter_filter]
    apply List.filter_congr
    intro r _
    by_cases hr : r.userId = userId
    · rw [decide_eq_true hr, Bool.and_true]
    · simp only [matchesUniversal, hu, decide_eq_false hr, Bool.false_and, Bool.and_false]
  simp only [Grosh.scoredCandidates, findUniversalCandidates, hreads.consistentWith,
    hreads.evidenceWith]
  refine List.Perm.filterMap _ (List.Perm.map _ ?_)
  refine (env.scan_perm _).trans ?_
  rw [hrows]
  exact (env₀.scan_perm _).symm

/-! ## A claim and an insert

Every statement that writes does the same on both sides, as long as what it touches is the
user's. -/

theorem Mirrors.claim (h : Mirrors userId ids db db₀) (existingId newId : UUID) (metadata : Json) :
    Mirrors userId ids (db.claim existingId newId metadata)
      (db₀.claim existingId newId metadata) := by
  refine ⟨?_, ?_⟩
  · simp only [Database.claim, Database.rowsOf, KeyedTable.updateWhere_rows, List.filter_map]
    rw [← h.rows]
    congr 1
    apply List.filter_congr
    intro r _
    simp only [Function.comp_apply]
    split <;> rfl
  · simp only [Database.claim, KeyedTable.deleteWhere_rows]
    rw [List.filter_comm]
    refine List.rel_filter ?_ h.anomalies
    intro a b hab
    simp only [hab.transactionId, hab.reasonCode]

theorem map_transactionId_eq {l l₀ : List AnomalyRecord} (h : List.Forall₂ SameAnomaly l l₀) :
    l.map AnomalyRecord.transactionId = l₀.map AnomalyRecord.transactionId := by
  induction h with
  | nil => rfl
  | cons hab _ ih => rw [List.map_cons, List.map_cons, hab.transactionId, ih]

/-- Whether a mirrored transaction has an anomaly is the same on both sides. -/
theorem Mirrors.hasKey_iff (h : Mirrors userId ids db db₀) {id : UUID} (hid : id ∈ ids) :
    db.anomalies.HasKey id ↔ db₀.anomalies.HasKey id := by
  rw [KeyedTable.hasKey_iff_mem_map (t := db₀.anomalies), ← map_transactionId_eq h.anomalies]
  simp only [List.mem_map, List.mem_filter, decide_eq_true_eq]
  refine ⟨?_, ?_⟩
  · rintro ⟨a, ha, rfl⟩
    exact ⟨a, ⟨ha, hid⟩, rfl⟩
  · rintro ⟨a, ⟨ha, -⟩, rfl⟩
    exact ⟨a, ha, rfl⟩

/-- One anomaly of a mirrored transaction: it is inserted on both sides or, where there is one
already, on neither. -/
theorem Mirrors.insertAnomaly (h : Mirrors userId ids db db₀) {a a₀ : AnomalyRecord}
    (ha : SameAnomaly a a₀) (hid : a.transactionId ∈ ids) :
    Mirrors userId ids ⟨db.transactions, db.anomalies.insertIgnore a⟩
      ⟨db₀.transactions, db₀.anomalies.insertIgnore a₀⟩ := by
  refine ⟨h.rows, ?_⟩
  have hkey := h.hasKey_iff hid
  by_cases hk : db.anomalies.HasKey a.transactionId
  · have hk₀ := hkey.mp hk
    rw [ha.transactionId] at hk₀
    simp only [KeyedTable.insertIgnore_of_hasKey hk, KeyedTable.insertIgnore_of_hasKey hk₀]
    exact h.anomalies
  · have hk₀ := mt hkey.mpr hk
    rw [ha.transactionId] at hk₀
    simp only [KeyedTable.insertIgnore_rows_of_not_hasKey hk,
      KeyedTable.insertIgnore_rows_of_not_hasKey hk₀, List.filter_append]
    apply List.rel_append h.anomalies
    rw [List.filter_cons_of_pos (by simp [hid]), List.filter_nil]
    exact .cons ha .nil

/-- The anomalies of a run, one after another: on both sides as many are inserted. -/
theorem Mirrors.insertAnomalies {anomalies anomalies₀ : List AnomalyRecord}
    (h : Mirrors userId ids db db₀) (ha : List.Forall₂ SameAnomaly anomalies anomalies₀)
    (hid : ∀ a ∈ anomalies, a.transactionId ∈ ids) :
    Mirrors userId ids ⟨db.transactions, anomalies.foldl KeyedTable.insertIgnore db.anomalies⟩
      ⟨db₀.transactions, anomalies₀.foldl KeyedTable.insertIgnore db₀.anomalies⟩ := by
  induction ha generalizing db db₀ with
  | nil => exact ⟨h.rows, h.anomalies⟩
  | cons hab _ ih =>
    exact ih (h.insertAnomaly hab (hid _ (List.mem_cons_self ..)))
      fun a' ha' => hid a' (List.mem_cons_of_mem _ ha')

/-- **The insert** of a row of the user and of its anomalies: the row comes last on both sides. -/
theorem Mirrors.persist (h : Mirrors userId ids db db₀) {row : Transaction}
    {anomalies anomalies₀ : List AnomalyRecord} (hu : row.userId = userId)
    (hf : ¬ db.Stored row.id) (ha : List.Forall₂ SameAnomaly anomalies anomalies₀)
    (hid : ∀ a ∈ anomalies, a.transactionId ∈ ids) :
    Mirrors userId ids (db.persist row anomalies) (db₀.persist row anomalies₀) := by
  have hrow : Mirrors userId ids ⟨db.transactions.insertIgnore row, db.anomalies⟩
      ⟨db₀.transactions.insertIgnore row, db₀.anomalies⟩ := by
    refine ⟨?_, h.anomalies⟩
    simp only [Database.rowsOf, KeyedTable.insertIgnore_rows_of_not_hasKey hf,
      KeyedTable.insertIgnore_rows_of_not_hasKey (h.not_stored hf), List.filter_append]
    rw [← h.rows, List.filter_cons_of_pos (by simp [hu]), List.filter_nil]
    rfl
  exact hrow.insertAnomalies ha hid

/-! ## Detection

The decision depends on the candidates as a set, and what is written depends on the decision. An
anomaly lists its candidates in the order they were found, hence the relation on results. -/

/-- The same result of detection, up to the order of the candidates in its anomalies. -/
structure SameResult (res res₀ : TransferResult) : Prop where
  specialCategory : res.specialCategory = res₀.specialCategory
  relatedTransactionId : res.relatedTransactionId = res₀.relatedTransactionId
  anomalies : List.Forall₂ SameAnomaly res.anomalies res₀.anomalies
  metadataBlock : res.metadataBlock = res₀.metadataBlock

theorem SameResult.refl (res : TransferResult) : SameResult res res :=
  ⟨rfl, rfl, List.forall₂_same.mpr fun a _ => .refl a, rfl⟩

/-- The decision is applied in the same way: a claimed row is the user's, and so it is on both
sides. -/
theorem Mirrors.applyDecision (h : Mirrors userId ids db db₀) {d d₀ : Decision} {block : Json}
    (hd : SameDecision d d₀) (hpartner : ∀ pid ev dd canary, d = .claim pid ev dd canary →
      ∃ r ∈ db₀.transactions, r.id = pid)
    {res : TransferResult} {db₁ : Database} (hok : applyDecision db tx d block = .ok (res, db₁)) :
    ∃ res₀ db₁₀, Grosh.applyDecision db₀ tx d₀ block = .ok (res₀, db₁₀) ∧ SameResult res res₀ ∧
      Mirrors userId ids db₁ db₁₀ := by
  cases hd with
  | skip =>
    obtain ⟨rfl, rfl⟩ := Prod.mk.inj (Except.ok.inj hok)
    exact ⟨_, _, rfl, .refl _, h⟩
  | anomaly hab =>
    obtain ⟨rfl, rfl⟩ := Prod.mk.inj (Except.ok.inj hok)
    exact ⟨_, _, rfl, ⟨rfl, rfl, .cons hab .nil, rfl⟩, h⟩
  | claim pid ev dd canary =>
    obtain ⟨r, hr₀, rfl⟩ := hpartner pid ev dd canary rfl
    have hr := (h.mem.mp hr₀).1
    simp only [Grosh.applyDecision, claimPair_of_mem hr] at hok
    simp only [Grosh.applyDecision, claimPair_of_mem hr₀]
    rcases hcm : claimMetadata r.metadata (buildPairBlock ev dd) with _ | metadata
    · simp only [hcm] at hok
      cases hok
    · simp only [hcm] at hok
      obtain ⟨rfl, rfl⟩ := Prod.mk.inj (Except.ok.inj hok)
      exact ⟨_, _, rfl, .refl _, h.claim r.id tx.id metadata⟩

/-- A candidate is a row of the user: every query for candidates asks for the user of the event. -/
theorem userId_of_matchesUniversal {r : Transaction} (h : matchesUniversal tx r = true) :
    r.userId = tx.userId := by
  simp only [matchesUniversal, Bool.and_eq_true, decide_eq_true_eq] at h
  exact h.1.1.1.1.1.1

/-- **Detection** of an event of the user gives the same result on both sides, and leaves them in
step. -/
theorem Mirrors.runTransferDetection (h : Mirrors userId ids db db₀) (hreads : SameReads env env₀)
    (hu : tx.userId = userId) (hf : ¬ db.Stored tx.id) {res : TransferResult} {db₁ : Database}
    (hok : runTransferDetection env db tx = .ok (res, db₁)) :
    ∃ res₀ db₁₀, Grosh.runTransferDetection env₀ db₀ tx = .ok (res₀, db₁₀) ∧ SameResult res res₀ ∧
      Mirrors userId ids db₁ db₁₀ := by
  simp only [Grosh.runTransferDetection] at hok ⊢
  by_cases hsrc : tx.source = "monobank"
  swap
  · rw [if_neg hsrc] at hok ⊢
    obtain ⟨rfl, rfl⟩ := Prod.mk.inj (Except.ok.inj hok)
    exact ⟨_, _, rfl, .refl _, h⟩
  rw [if_pos hsrc] at hok ⊢
  by_cases hm : tx.mcc = some wireTransfer
  swap
  · rw [detectAndPair, if_pos hm] at hok ⊢
    obtain ⟨rfl, rfl⟩ := Prod.mk.inj (Except.ok.inj hok)
    exact ⟨_, _, rfl, .refl _, h⟩
  by_cases hd : tx.direction = .zero
  · rw [detectAndPair, if_neg (by simp [hm]), if_pos (by simp [hd])] at hok ⊢
    obtain ⟨rfl, rfl⟩ := Prod.mk.inj (Except.ok.inj hok)
    exact ⟨_, _, rfl, .refl _, h⟩
  rw [detectAndPair_of_fresh hm hd hf] at hok
  rw [detectAndPair_of_fresh hm hd (h.not_stored hf), ← hreads.incomingFlags, ← hreads.rowBlock,
    ← hreads.getById]
  split at hok
  · next hun =>
    rw [if_pos hun]
    obtain ⟨rfl, rfl⟩ := Prod.mk.inj (Except.ok.inj hok)
    exact ⟨_, _, rfl, .refl _, h⟩
  next hun =>
  rw [if_neg hun]
  split at hok
  · cases hok
  next account haccount =>
  split at hok
  · cases hok
  next d hdec =>
  have hperm := h.scoredCandidates hreads hu
  -- the dictionary of the candidates' accounts does not depend on their order
  rw [hreads.getManyByIds (hperm.map fun c => c.1.accountId)] at hdec
  obtain ⟨d₀, hdec₀, hd⟩ := decideTransfer_perm hperm hdec
  rw [hdec₀]
  refine h.applyDecision hd (fun pid ev dd canary hclaim => ?_) hok
  obtain ⟨c, ev', dd', canary', hc, rfl, -⟩ | ⟨a, rfl, -⟩ | rfl := decideTransfer_cases hdec
  · obtain ⟨r, hr, hel, rfl, -⟩ := mem_scoredCandidates.mp hc
    cases hclaim
    refine ⟨r, h.mem.mpr ⟨hr, ?_⟩, rfl⟩
    exact (userId_of_matchesUniversal (Bool.and_eq_true_iff.mp hel).1).trans hu
  · cases hclaim
  · cases hclaim

/-! ## A unit of work

A unit of work that goes through on the whole database goes through on the mirror, provided the user
is there. -/

/-- **A unit of work** for an event of the user goes through on the mirror as well, and does the
same to it. -/
theorem Mirrors.run (h : Mirrors userId ids db db₀) (hreads : SameReads env env₀)
    (hu : tx.userId = userId) (hid : tx.id ∈ ids) (hf : ¬ db.Stored tx.id)
    (hu₀ : userId ∈ env₀.users) (hok : run env db tx = .ok db') :
    ∃ db₀', Grosh.run env₀ db₀ tx = .ok db₀' ∧ Mirrors userId ids db' db₀' := by
  obtain ⟨hst, -⟩ | ⟨account, source, conversion, res, db₁, he⟩ := run_cases hok
  · exact absurd hst hf
  obtain ⟨res₀, db₁₀, hdet₀, hres, h₁⟩ := h.runTransferDetection hreads hu hf he.returned
  have hd₀ := runTransferDetection_cases hdet₀
  have hrow : enrichedRow tx source account conversion res =
      enrichedRow tx source account conversion res₀ := by
    simp only [enrichedRow, hres.specialCategory, hres.relatedTransactionId, hres.metadataBlock]
  have henc := he.encodable
  rw [hrow] at henc
  have hf₁ : ¬ db₁.Stored tx.id := fun hst => hf (he.detection.stored_iff.mp hst)
  refine ⟨db₁₀.persist (enrichedRow tx source account conversion res₀) res₀.anomalies,
    run_eq_ok.mpr ⟨account, res₀, db₁₀, conversion, _, ?_, hdet₀, ?_,
      insertTransaction_ok he.source_eq henc ?_ ?_ (hu.symm ▸ hu₀),
      foldlM_recordAnomaly fun a ha => ?_⟩, ?_⟩
  · rw [← hreads.getById]
    exact he.account_eq
  · rw [← hreads.convert]
    exact he.conversion_eq
  · exact h₁.not_stored hf₁
  · exact h₁.not_dedupTaken fun hd => he.dedup_free (he.detection.dedupTaken_iff.mp hd)
  · rw [hd₀.anomaly_stamp ha]
    exact KeyedTable.hasKey_insertIgnore.mpr (Or.inr rfl)
  · rw [he.result, hrow]
    exact h₁.persist hu hf₁ hres.anomalies fun a ha => he.detection.anomaly_stamp ha ▸ hid

/-! ## The events of other users

The mirror is not touched by them: their rows and anomalies are not in it, unless an event of
another user takes one of the ids. -/

/-- The rows with these ids are the user's: nobody else has a transaction under one of them. -/
def Owned (userId : UUID) (ids : List UUID) (db : Database) : Prop :=
  ∀ id ∈ ids, ∀ u, db.Owns u id → u = userId

/-- The rows stay the user's, unless an event of another user takes a free id. No claim moves a row
to another user. -/
theorem Owned.consume (h : Owned userId ids db)
    (htx : tx.userId = userId ∨ tx.id ∉ ids ∨ db.Stored tx.id) :
    Owned userId ids (consume env db tx) := by
  intro id hid u hu
  obtain hu | ⟨hf, rfl, rfl⟩ := owns_of_owns_consume hu
  · exact h id hid u hu
  · obtain htx | htx | htx := htx
    · exact htx
    · exact absurd hid htx
    · exact absurd htx hf

/-- A claim of another user's row is not seen by the mirror. -/
theorem Mirrors.claim_other (h : Mirrors userId ids db db₀) {r : Transaction} {newId : UUID}
    {metadata : Json} (hr : r ∈ db.transactions) (hru : r.userId ≠ userId) (hrid : r.id ∉ ids)
    (hnew : newId ∉ ids) : Mirrors userId ids (db.claim r.id newId metadata) db₀ := by
  refine ⟨?_, ?_⟩
  · rw [← h.rows]
    simp only [Database.claim, Database.rowsOf, KeyedTable.updateWhere_rows, List.filter_map]
    have hsame : db.transactions.rows.filter ((fun q => decide (q.userId = userId)) ∘ fun q =>
        if decide (q.id = r.id) = true then q.claimed newId metadata else q) =
          db.transactions.rows.filter fun q => decide (q.userId = userId) := by
      apply List.filter_congr
      intro q _
      simp only [Function.comp_apply]
      split <;> rfl
    rw [hsame]
    refine (List.map_congr_left fun q hq => ?_).trans (List.map_id _)
    -- the claimed row is not the user's
    obtain ⟨hmem, hqu⟩ := List.mem_filter.mp hq
    refine if_neg fun hqr => hru ?_
    obtain rfl := KeyedTable.eq_of_key_eq hmem hr (of_decide_eq_true hqr)
    exact of_decide_eq_true hqu
  · simp only [Database.claim, KeyedTable.deleteWhere_rows, List.filter_filter]
    have hsame : (db.anomalies.rows.filter fun a => decide (a.transactionId ∈ ids) &&
        !(decide (a.transactionId ∈ [newId, r.id]) && a.reasonCode.isUnpaired)) =
          db.anomalies.rows.filter fun a => decide (a.transactionId ∈ ids) := by
      apply List.filter_congr
      intro a _
      by_cases ha : a.transactionId ∈ ids
      · have hnot : a.transactionId ∉ [newId, r.id] := by
          rintro hmem
          obtain heq | hmem := List.mem_cons.mp hmem
          · exact hnew (heq ▸ ha)
          · exact hrid (List.mem_singleton.mp hmem ▸ ha)
        rw [decide_eq_false hnot, Bool.false_and, Bool.not_false, Bool.and_true]
      · rw [decide_eq_false ha, Bool.false_and]
    rw [hsame]
    exact h.anomalies

theorem filter_insertAnomalies {anomalies : List AnomalyRecord}
    {t : KeyedTable AnomalyRecord.transactionId} (hid : ∀ a ∈ anomalies, a.transactionId ∉ ids) :
    ((anomalies.foldl KeyedTable.insertIgnore t).rows.filter fun a =>
      decide (a.transactionId ∈ ids)) = t.rows.filter fun a => decide (a.transactionId ∈ ids) := by
  induction anomalies generalizing t with
  | nil => rfl
  | cons a anomalies ih =>
    rw [List.foldl_cons, ih fun a' ha' => hid a' (List.mem_cons_of_mem _ ha')]
    by_cases hk : t.HasKey a.transactionId
    · rw [KeyedTable.insertIgnore_of_hasKey hk]
    · rw [KeyedTable.insertIgnore_rows_of_not_hasKey hk, List.filter_append,
        List.filter_cons_of_neg (by simp [hid a (List.mem_cons_self ..)]), List.filter_nil,
        List.append_nil]

/-- An insert of another user's row is not seen by the mirror. -/
theorem Mirrors.persist_other (h : Mirrors userId ids db db₀) {row : Transaction}
    {anomalies : List AnomalyRecord} (hu : row.userId ≠ userId) (hf : ¬ db.Stored row.id)
    (hid : ∀ a ∈ anomalies, a.transactionId ∉ ids) :
    Mirrors userId ids (db.persist row anomalies) db₀ := by
  refine ⟨?_, ?_⟩
  · rw [← h.rows]
    simp only [Database.persist, Database.rowsOf, KeyedTable.insertIgnore_rows_of_not_hasKey hf,
      List.filter_append]
    rw [List.filter_cons_of_neg (by simp [hu]), List.filter_nil, List.append_nil]
  · simp only [Database.persist, filter_insertAnomalies hid]
    exact h.anomalies

/-- **A unit of work of another user** that takes none of the ids leaves the mirror as it is. -/
theorem Mirrors.consume_other (h : Mirrors userId ids db db₀) (hown : Owned userId ids db)
    (hu : tx.userId ≠ userId) (hid : tx.id ∉ ids) :
    Mirrors userId ids (consume env db tx) db₀ := by
  obtain hdb | ⟨account, source, conversion, res, db₁, he⟩ := consume_cases env db tx
  · rw [hdb]
    exact h
  rw [he.result]
  have hf : ¬ db₁.Stored tx.id := fun hst => he.fresh (he.detection.stored_iff.mp hst)
  have h₁ : Mirrors userId ids db₁ db₀ := by
    cases he.detection with
    | skipped => exact h
    | unpaired => exact h
    | claimed r pair metadata canary hdet hfresh hlinked hr hel =>
      have hru : r.userId ≠ userId := fun heq =>
        hu ((userId_of_matchesUniversal (Bool.and_eq_true_iff.mp hel).1).symm.trans heq)
      exact h.claim_other hr hru (fun hm => hru (hown r.id hm r.userId ⟨r, hr, rfl, rfl⟩)) hid
  exact h₁.persist_other hu hf fun a ha => he.detection.anomaly_stamp ha ▸ hid

end Grosh
