import Grosh.Reprocess

/-!
# What a failed reprocess leaves

The restore re-inserts the snapshot rows whose id is absent. It neither overwrites what the
replay has already written nor brings anomalies back, and a row re-inserted with its old link
may meet a partner the replay wrote without one.

Both conditions are about the moment of the restore, and not about how the replay has come to it.
The first compares the tables then with those of the snapshot; the second asks of every link of
which one end is put back whether the other end is put back as well.

* `restore_same_iff` — after the restore the user's rows and anomalies are those of the
  snapshot exactly if the replay had not changed them when the restore ran;
* `symmetricFor_iff_restoreClosed` — the links of the user are symmetric exactly if no restore
  separates a link: re-inserts one of its ends and leaves the other.
-/

namespace Grosh

open Transition

variable {accounts : List AccountProps} {userId : UUID} {env : PipelineEnv}
  {db db' : Database} {tx : NormalizedTransaction}

/-! ## Foreign keys

The database keeps these in every committed state. They are assumptions on the state a run starts
in, and nothing has to be shown for them later. -/

/-- Every anomaly is about a stored transaction. -/
def AnomaliesExist (db : Database) : Prop := ∀ a ∈ db.anomalies, db.Stored a.transactionId

/-- Every link leads to a stored transaction. -/
def LinksExist (db : Database) : Prop :=
  ∀ r ∈ db.transactions, ∀ p, r.relatedTransactionId = some p → db.Stored p

theorem anomaliesExist_empty : AnomaliesExist .empty :=
  fun _ ha => absurd ha KeyedTable.not_mem_empty

theorem linksExist_empty : LinksExist .empty :=
  fun _ hr => absurd hr KeyedTable.not_mem_empty

theorem AnomaliesExist.consume (h : AnomaliesExist db) :
    AnomaliesExist (consume env db tx) := by
  intro a ha
  obtain ha | ⟨hid, hst⟩ := consume_anomaly_cases ha
  · exact consume_stored_mono (h a ha)
  · exact hid ▸ hst

theorem AnomaliesExist.deleteUser (h : AnomaliesExist db) :
    AnomaliesExist (db.deleteUser userId) := by
  intro a ha
  obtain ⟨ha, hdel⟩ := KeyedTable.mem_deleteWhere.mp ha
  apply stored_deleteUser (h a ha)
  intro r hr hid hu
  simp only [decide_eq_false_iff_not, not_exists, not_and] at hdel
  exact hdel r (Database.mem_rowsOf.mpr ⟨hr, hu⟩) hid.symm

theorem LinksExist.consume (h : LinksExist db) : LinksExist (consume env db tx) := by
  rcases consume_cases env db tx with hdb | ⟨account, source, conversion, res, db₁, he⟩
  · rw [hdb]
    exact h
  have hfresh : ¬ db.Stored (enrichedRow tx source account conversion res).id := he.fresh
  have hstored : ∀ id, (Grosh.consume env db tx).Stored id ↔ db.Stored id ∨ id = tx.id := by
    intro id
    rw [he.result, Database.stored_persist, he.detection.stored_iff]
    rfl
  have hdet := he.detection
  have hres := he.result
  intro r hr p hp
  rw [hres] at hr
  cases hdet with
  | skipped =>
    rcases (Database.mem_persist hfresh).mp hr with hr | rfl
    · exact (hstored p).mpr (Or.inl (h r hr p hp))
    · cases hp
  | unpaired =>
    rcases (Database.mem_persist hfresh).mp hr with hr | rfl
    · exact (hstored p).mpr (Or.inl (h r hr p hp))
    · cases hp
  | claimed r₀ _ _ _ _ _ _ hr₀ =>
    rcases (Database.mem_claim_persist hr₀ hfresh).mp hr with rfl | rfl | ⟨hr, -⟩
    · obtain rfl := Option.some.inj hp
      exact (hstored _).mpr (Or.inl (KeyedTable.hasKey_of_mem hr₀))
    · obtain rfl := Option.some.inj hp
      exact (hstored _).mpr (Or.inr rfl)
    · exact (hstored p).mpr (Or.inl (h r hr p hp))

theorem LinksExist.deleteUser (h : LinksExist db) : LinksExist (db.deleteUser userId) := by
  intro r hr p hp
  obtain ⟨r₀, hr₀, -, rfl⟩ := mem_deleteUser.mp hr
  simp only [Transaction.unlinked] at hp
  split at hp
  · cases hp
  next hkeep =>
  apply stored_deleteUser (h r₀ hr₀ p hp)
  intro q hq hid hu
  exact hkeep ⟨q, Database.mem_rowsOf.mpr ⟨hq, hu⟩, by rw [hp, hid]⟩

theorem anomaliesExist_sample (events : List NormalizedTransaction) :
    AnomaliesExist (sampleReprocess events).db :=
  consumeAll_induction (fun _ _ _ h => h.consume) anomaliesExist_empty

theorem linksExist_sample (events : List NormalizedTransaction) :
    LinksExist (sampleReprocess events).db :=
  consumeAll_induction (fun _ _ _ h => h.consume) linksExist_empty

/-! ## A failed reprocess is atomic only if the replay changed nothing

The restore starts from whatever the replay has left. Where it has left nothing of the user, what
comes back is the snapshot, but the anomalies that were deleted with the rows are not in it. -/

/-- An anomaly about a row of the user. -/
def AnomalyOf (db : Database) (userId : UUID) (a : AnomalyRecord) : Prop :=
  a ∈ db.anomalies ∧ ∃ r ∈ db.transactions, r.id = a.transactionId ∧ r.userId = userId

/-- The user's rows, with every column, and the user's anomalies are the same. This is what a failed
reprocess is meant to leave. -/
structure SameFor (userId : UUID) (db db' : Database) : Prop where
  rows : ∀ r : Transaction, r.userId = userId → (r ∈ db.transactions ↔ r ∈ db'.transactions)
  anomalies : ∀ a, AnomalyOf db userId a ↔ AnomalyOf db' userId a

/-- What the tables hold of the user, or under an id of the snapshot, is the snapshot's, and the
anomalies are all there. It speaks of the state before the restore, and not of what the restore
does. -/
structure ReplayIntact (userId : UUID) (snapshot db : Database) : Prop where
  rows : ∀ r ∈ db.transactions,
    r.userId = userId ∨ (∃ q ∈ snapshot.rowsOf userId, q.id = r.id) → r ∈ snapshot.transactions
  anomalies : ∀ a, AnomalyOf snapshot userId a ↔ AnomalyOf db userId a

/-- The restore of a snapshot, seen from the state before it. -/
theorem sameFor_restore_iff {snapshot : Database} (hfk : AnomaliesExist db)
    (h : restoreRows db ((snapshot.rowsOf userId).insertionSort replayOrder) = some db') :
    SameFor userId snapshot db' ↔ ReplayIntact userId snapshot db := by
  obtain ⟨hmem, hanom, -⟩ := restoreRows_spec snapshotRows_nodup h
  have hkeep : ∀ r ∈ db.transactions, r ∈ db'.transactions := fun r hr => (hmem r).mpr (Or.inl hr)
  have hof : ∀ a, AnomalyOf db' userId a ↔ AnomalyOf db userId a := by
    intro a
    refine ⟨?_, ?_⟩
    · rintro ⟨ha, r, hr, hid, hu⟩
      rw [hanom] at ha
      obtain ⟨q, hq, hqid⟩ := hfk a ha
      obtain rfl := KeyedTable.eq_of_key_eq (hkeep q hq) hr (hqid.trans hid.symm)
      exact ⟨ha, q, hq, hid, hu⟩
    · rintro ⟨ha, r, hr, hid, hu⟩
      exact ⟨hanom ▸ ha, r, hkeep r hr, hid, hu⟩
  refine ⟨?_, ?_⟩
  · intro hsame
    refine ⟨fun r hr hru => ?_, fun a => (hsame.anomalies a).trans (hof a)⟩
    rcases hru with hru | ⟨q, hq, hid⟩
    · exact (hsame.rows r hru).mpr (hkeep r hr)
    · obtain ⟨hq, hqu⟩ := Database.mem_rowsOf.mp hq
      obtain rfl := KeyedTable.eq_of_key_eq ((hsame.rows q hqu).mp hq) (hkeep r hr) hid
      exact hq
  · intro hintact
    refine ⟨fun r hru => ⟨fun hr => ?_, fun hr => ?_⟩,
      fun a => (hintact.anomalies a).trans (hof a).symm⟩
    · by_cases hst : db.Stored r.id
      · obtain ⟨q, hq, hid⟩ := hst
        have hqs := hintact.rows q hq
          (Or.inr ⟨r, Database.mem_rowsOf.mpr ⟨hr, hru⟩, hid.symm⟩)
        obtain rfl := KeyedTable.eq_of_key_eq hqs hr hid
        exact hkeep q hq
      · exact (hmem r).mpr (Or.inr ⟨mem_snapshotRows.mpr ⟨hr, hru⟩, hst⟩)
    · rcases (hmem r).mp hr with hr | ⟨hr, -⟩
      · exact hintact.rows r hr (Or.inl hru)
      · exact (mem_snapshotRows.mp hr).1

/-- When nothing of the user is in the tables, the restore is exact unless the user had
anomalies. -/
theorem replayIntact_of_absent {snapshot : Database}
    (hrows : ∀ r ∈ db.transactions,
      r.userId ≠ userId ∧ ∀ q ∈ snapshot.rowsOf userId, q.id ≠ r.id) :
    ReplayIntact userId snapshot db ↔ ∀ a, ¬ AnomalyOf snapshot userId a := by
  have hnone : ∀ a, ¬ AnomalyOf db userId a := by
    rintro a ⟨-, r, hr, -, hu⟩
    exact (hrows r hr).1 hu
  refine ⟨?_, ?_⟩
  · intro h a ha
    exact hnone a ((h.anomalies a).mp ha)
  · intro h
    refine ⟨fun r hr hru => ?_, fun a => iff_of_false (h a) (hnone a)⟩
    rcases hru with hru | ⟨q, hq, hid⟩
    · exact absurd hru (hrows r hr).1
    · exact absurd hid ((hrows r hr).2 q hq)

namespace ReprocessState

variable {s s' s₁ s₂ : ReprocessState} {l : ReprocessLabel} {labels : List ReprocessLabel}

theorem anomaliesExist_step (h : AnomaliesExist s.db)
    (hs : step accounts userId s l = some s') (hsnap : HoldsSnapshot
      (fun rows => (rows.map Transaction.id).Nodup) s) : AnomaliesExist s'.db := by
  rcases step_db hs with hdb | ⟨_, _, -, -, hdb⟩ | ⟨ids, rows, rest, -, hj, hb, hr⟩ |
    ⟨env, tx, -, -, -, hdb⟩
  · exact hdb ▸ h
  · exact hdb ▸ h.deleteUser
  · obtain ⟨rows', rest', hb', -, hnd⟩ := hsnap.backedUp ids (by rw [hj]; rfl)
    obtain ⟨rfl, -⟩ := List.cons.inj (hb.symm.trans hb')
    obtain ⟨hmem, hanom, -⟩ := restoreRows_spec hnd hr
    intro a ha
    obtain ⟨r, hr, hid⟩ := h a (hanom ▸ ha)
    exact ⟨r, (hmem r).mpr (Or.inl hr), hid⟩
  · exact hdb ▸ h.consume

/-- From the snapshot on, the job works with exactly its rows. -/
theorem holdsSnapshot_of_taken {db₀ : Database} (hjob : s.job = .snapshot) (hdb : s.db = db₀)
    (h₁ : step accounts userId s .job = some s₁)
    (he : exec (step accounts userId) s₁ labels = some s₂) :
    HoldsSnapshot (fun rows => rows = (db₀.rowsOf userId).insertionSort replayOrder) s₂ := by
  have hstart : HoldsSnapshot
      (fun rows => rows = (db₀.rowsOf userId).insertionSort replayOrder) s :=
    holdsSnapshot_of_not_begun (by rw [hjob]; exact id)
  have hbegun : s₁.job.Begun := by
    simp only [step, jobStep, hjob] at h₁
    obtain rfl := Option.some.inj h₁
    exact trivial
  have hinv : ∀ (t : ReprocessState) (l : ReprocessLabel) (t' : ReprocessState),
      (t.job.Begun ∧ HoldsSnapshot
        (fun rows => rows = (db₀.rowsOf userId).insertionSort replayOrder) t) →
      step accounts userId t l = some t' → t'.job.Begun ∧ HoldsSnapshot
        (fun rows => rows = (db₀.rowsOf userId).insertionSort replayOrder) t' := by
    rintro t l t' ⟨htb, ht⟩ hs
    refine ⟨begun_step htb hs, ht.step (fun _ hj => ?_) hs⟩
    rw [hj] at htb
    exact htb.elim
  exact (exec_invariant hinv ⟨hbegun, hstart.step (fun _ _ => by rw [hdb]) h₁⟩ he).2

/-- **A failed reprocess is atomic, exactly when**: a run that takes its snapshot in `s` and
restores in `s₂`, the restore going through, leaves the user's rows and anomalies as they were in
`s` if and only if in `s₂` the replay had left them intact. Any steps of the consumer may lie in
between. -/
theorem restore_same_iff {s₃ : ReprocessState} {ids : List UUID}
    (hfk : AnomaliesExist s.db) (hjob : s.job = .snapshot)
    (he : exec (step accounts userId) s (.job :: labels) = some s₂)
    (hrestore : s₂.job = .restore ids) (hs : step accounts userId s₂ .job = some s₃)
    (hdone : ¬ s₃.job.Exited) :
    SameFor userId s.db s₃.db ↔ ReplayIntact userId s.db s₂.db := by
  obtain ⟨s₁, h₁, he₁⟩ := exec_cons_eq_some he
  obtain ⟨rows, rest, hb, -, rfl⟩ :=
    (holdsSnapshot_of_taken hjob rfl h₁ he₁).backedUp ids (by rw [hrestore]; rfl)
  have hfk₂ : AnomaliesExist s₂.db := by
    have hinv : ∀ (t : ReprocessState) (l : ReprocessLabel) (t' : ReprocessState),
        (AnomaliesExist t.db ∧ HoldsSnapshot
          (fun rows => (rows.map Transaction.id).Nodup) t) →
        step accounts userId t l = some t' → AnomaliesExist t'.db ∧ HoldsSnapshot
          (fun rows => (rows.map Transaction.id).Nodup) t' := by
      rintro t l t' ⟨hta, hts⟩ hst
      exact ⟨anomaliesExist_step hta hst hts, hts.step (fun _ _ => snapshotRows_nodup) hst⟩
    have hsnap : HoldsSnapshot (fun rows => (rows.map Transaction.id).Nodup) s :=
      holdsSnapshot_of_not_begun (by rw [hjob]; exact id)
    exact (exec_invariant hinv ⟨hfk, hsnap⟩ he).1
  simp only [step, jobStep, hrestore, hb] at hs
  split at hs
  · obtain rfl := Option.some.inj hs
    exact absurd trivial hdone
  · next db' hr =>
    obtain rfl := Option.some.inj hs
    exact sameFor_restore_iff hfk₂ hr

/-- The job of the sample user about to take its snapshot. -/
def sampleSnapshot (events : List NormalizedTransaction) : ReprocessState :=
  { sampleReprocess events with job := .snapshot }

/-- The statements after the snapshot, up to a first `produce` that raises. -/
def upToRaise : List ReprocessLabel := [.job, .job, .job, .raises]

/-- A leg without anomalies comes back as it was. -/
theorem restore_same_iff_sampleExpense :
    ∃ s₂ s₃, exec (step sampleEnv.accounts 1) (sampleSnapshot [sampleExpense])
        (.job :: upToRaise) = some s₂ ∧
      step sampleEnv.accounts 1 s₂ .job = some s₃ ∧
      (SameFor 1 (sampleSnapshot [sampleExpense]).db s₃.db ↔
        ReplayIntact 1 (sampleSnapshot [sampleExpense]).db s₂.db) := by
  have hrun : (exec (step sampleEnv.accounts 1) (sampleSnapshot [sampleExpense])
      ((.job :: upToRaise) ++ [.job])).map (fun s₃ => decide (¬ s₃.job.Exited)) =
        some true := by decide
  have hfk : AnomaliesExist (sampleSnapshot [sampleExpense]).db := anomaliesExist_sample _
  have hjob : (sampleSnapshot [sampleExpense]).job = .snapshot := rfl
  have hlabels : ReprocessLabel.job :: upToRaise =
      [.job, .job, .job, .job] ++ [.raises] := rfl
  obtain ⟨s₃, he, hdone⟩ := Option.map_eq_some_iff.mp hrun
  obtain ⟨s₂, he₂, hs⟩ := exec_concat_eq_some he
  obtain ⟨s₁, -, hraise⟩ := exec_concat_eq_some (hlabels ▸ he₂)
  obtain ⟨job, hj, rfl⟩ := Option.map_eq_some_iff.mp hraise
  rcases JobState.raise_cases hj with ⟨ids, -, rfl⟩ | ⟨b, rfl⟩
  · exact ⟨_, s₃, he₂, hs, restore_same_iff hfk hjob he₂ rfl hs (of_decide_eq_true hdone)⟩
  · -- a job that has raised makes no step
    cases hs

/-- A leg whose description announces a partner that has not come: it has an anomaly, which the
delete of the job takes with it. -/
def sampleUnpaired : NormalizedTransaction :=
  { sampleExpense with description := some "На чорну картку" }

/-- The restore brings the leg back without its anomaly. -/
theorem anomaly_lost_in_restore :
    ∃ s₃, exec (step sampleEnv.accounts 1) (sampleSnapshot [sampleUnpaired])
        ((.job :: upToRaise) ++ [.job]) = some s₃ ∧
      ¬ s₃.job.Exited ∧ ¬ SameFor 1 (sampleSnapshot [sampleUnpaired]).db s₃.db := by
  have hrun : (exec (step sampleEnv.accounts 1) (sampleSnapshot [sampleUnpaired])
      ((.job :: upToRaise) ++ [.job])).map (fun s₃ =>
        decide (¬ s₃.job.Exited ∧ s₃.db.anomalies.rows = [])) = some true := by decide
  have hanom : ∃ a ∈ (sampleSnapshot [sampleUnpaired]).db.anomalies.rows,
      ∃ r ∈ (sampleSnapshot [sampleUnpaired]).db.transactions.rows,
        r.id = a.transactionId ∧ r.userId = 1 := by decide
  obtain ⟨s₃, he, h⟩ := Option.map_eq_some_iff.mp hrun
  obtain ⟨hdone, hnone⟩ := of_decide_eq_true h
  refine ⟨s₃, he, hdone, fun hsame => ?_⟩
  obtain ⟨a, ha, hr⟩ := hanom
  have hlost := ((hsame.anomalies a).mp ⟨ha, hr⟩).1
  rw [KeyedTable.mem_def, hnone] at hlost
  cases hlost

end ReprocessState

/-! ## Links survive unless a restore separates one

A replay writes the two legs of a pair one after the other. If it fails in between, one of them is
there without a partner, and the restore puts the other back with the link it had. -/

/-- The links of the user's rows lead back. -/
def SymmetricFor (userId : UUID) (db : Database) : Prop :=
  ∀ a ∈ db.transactions, a.userId = userId → LinksBack db a

instance (userId : UUID) (db : Database) : Decidable (SymmetricFor userId db) :=
  inferInstanceAs (Decidable (∀ a ∈ db.transactions.rows, _ → LinksBack db a))

theorem SymmetricFor.consume (h : SymmetricFor userId db) :
    SymmetricFor userId (consume env db tx) :=
  fun a ha hu => linksBack_consume ha fun hold => h a hold hu

theorem symmetricFor_deleteUser : SymmetricFor userId (db.deleteUser userId) := by
  intro a ha hu
  obtain ⟨r, -, hne, rfl⟩ := mem_deleteUser.mp ha
  rw [r.unlinked_userId] at hu
  exact absurd hu hne

/-- Rows of the user, each once, whose links among themselves are symmetric. -/
structure LinkedRows (userId : UUID) (rows : List Transaction) : Prop where
  user : ∀ a ∈ rows, a.userId = userId
  nodup : (rows.map Transaction.id).Nodup
  symm : ∀ a ∈ rows, ∀ b ∈ rows, a.relatedTransactionId = some b.id →
    b.relatedTransactionId = some a.id

theorem SymmetricFor.linkedRows (h : SymmetricFor userId db) :
    LinkedRows userId ((db.rowsOf userId).insertionSort replayOrder) where
  user := fun _ ha => (mem_snapshotRows.mp ha).2
  nodup := snapshotRows_nodup
  symm := by
    intro a ha b hb hab
    obtain ⟨hadb, hau⟩ := mem_snapshotRows.mp ha
    obtain ⟨c, hc, hcid, hca⟩ := h a hadb hau b.id hab
    rwa [KeyedTable.eq_of_key_eq hc (mem_snapshotRows.mp hb).1 hcid] at hca

/-- The rows a restore brings back are closed under their links: no leg comes back whose partner has
already been written by the replay. -/
def ClosedUnderLinks (db : Database) (rows : List Transaction) : Prop :=
  ∀ a ∈ rows, ¬ db.Stored a.id → ∀ p, a.relatedTransactionId = some p →
    ∃ b ∈ rows, b.id = p ∧ ¬ db.Stored b.id

theorem SymmetricFor.restoreRows {rows : List Transaction} (h : SymmetricFor userId db)
    (hrows : LinkedRows userId rows) (hclosed : ClosedUnderLinks db rows)
    (hr : restoreRows db rows = some db') : SymmetricFor userId db' := by
  obtain ⟨hmem, -, -⟩ := restoreRows_spec hrows.nodup hr
  intro a ha hu p hp
  rcases (hmem a).mp ha with ha | ⟨ha, hna⟩
  · obtain ⟨b, hb, hbp, hba⟩ := h a ha hu p hp
    exact ⟨b, (hmem b).mpr (Or.inl hb), hbp, hba⟩
  · obtain ⟨b, hb, rfl, hnb⟩ := hclosed a ha hna p hp
    exact ⟨b, (hmem b).mpr (Or.inr ⟨hb, hnb⟩), rfl, hrows.symm a ha b hb hp⟩

/-- A linked row whose partner is there and does not point back. No later event repairs this: a
linked row is not a candidate. -/
def Separated (userId : UUID) (db : Database) : Prop :=
  ∃ a ∈ db.transactions, a.userId = userId ∧ ∃ p, a.relatedTransactionId = some p ∧
    db.Stored p ∧ ∀ b ∈ db.transactions, b.id = p → b.relatedTransactionId ≠ some a.id

theorem Separated.not_symmetricFor (h : Separated userId db) : ¬ SymmetricFor userId db := by
  obtain ⟨a, ha, hu, p, hp, -, hno⟩ := h
  intro hsym
  obtain ⟨b, hb, hbp, hba⟩ := hsym a ha hu p hp
  exact hno b hb hbp hba

/-- A restore that is not closed under links separates one. -/
theorem separated_of_restore {rows : List Transaction} (hlinks : LinksExist db)
    (hrows : LinkedRows userId rows) (hopen : ¬ ClosedUnderLinks db rows)
    (hr : restoreRows db rows = some db') : Separated userId db' := by
  obtain ⟨hmem, -, hfk⟩ := restoreRows_spec hrows.nodup hr
  simp only [ClosedUnderLinks, not_forall, not_exists, not_and] at hopen
  obtain ⟨a, ha, hna, p, hp, hno⟩ := hopen
  refine ⟨a, (hmem a).mpr (Or.inr ⟨ha, hna⟩), hrows.user a ha, p, hp, hfk a ha hna p hp, ?_⟩
  intro b hb hbp hba
  rcases (hmem b).mp hb with hb | ⟨hb, hnb⟩
  · -- a row that was there cannot point to one that was not
    exact hna (hlinks b hb a.id hba)
  · exact hno b hb hbp hnb

/-- A linked row is never touched by a unit of work. -/
theorem mem_consume_of_linked {r : Transaction} (hr : r ∈ db.transactions)
    (hl : r.relatedTransactionId ≠ none) : r ∈ (consume env db tx).transactions := by
  rcases consume_cases env db tx with hdb | ⟨account, source, conversion, res, db₁, he⟩
  · rw [hdb]
    exact hr
  have hfresh : ¬ db.Stored (enrichedRow tx source account conversion res).id := he.fresh
  obtain ⟨-, -, -, -, -, -, -, -, hdet, hres⟩ := he
  rw [hres]
  cases hdet with
  | skipped => exact (Database.mem_persist hfresh).mpr (Or.inl hr)
  | unpaired => exact (Database.mem_persist hfresh).mpr (Or.inl hr)
  | claimed r₀ _ _ _ _ _ _ hr₀ hel =>
    refine (Database.mem_claim_persist hr₀ hfresh).mpr (Or.inr (Or.inr ⟨hr, fun hid => ?_⟩))
    rw [KeyedTable.eq_of_key_eq hr hr₀ hid] at hl
    exact hl (eligible_free hel)

/-- What a restore has separated, enrichment never joins again. -/
theorem Separated.consume (h : Separated userId db) :
    Separated userId (consume env db tx) := by
  obtain ⟨a, ha, hu, p, hp, hst, hno⟩ := h
  refine ⟨a, mem_consume_of_linked ha (by rw [hp]; exact Option.some_ne_none p), hu, p, hp,
    consume_stored_mono hst, fun b hb hbp hba => ?_⟩
  rcases consume_row_cases hb with hb | ⟨_, _, _, _, _, _, he, rfl⟩ |
    ⟨hfresh, r₀, hr₀, -, _, _, -, rfl⟩
  · exact hno b hb hbp hba
  · have hid : tx.id = p := hbp
    exact he.fresh (hid ▸ hst)
  · have hid : tx.id = a.id := Option.some.inj hba
    exact hfresh (hid ▸ KeyedTable.hasKey_of_mem ha)

namespace ReprocessState

variable {s s' : ReprocessState} {l : ReprocessLabel} {labels : List ReprocessLabel}

/-- The condition on a step: a restore brings both ends of a link back, or neither. -/
def RestoreClosed (s : ReprocessState) (l : ReprocessLabel) : Prop :=
  l = .job → ∀ ids rows rest, s.job = .restore ids → s.backups = rows :: rest →
    (restoreRows s.db rows).isSome → ClosedUnderLinks s.db rows

/-- What a run keeps as long as its restores are closed: the links of the user are symmetric, and so
are those of the snapshot the job holds. -/
structure LinkSound (userId : UUID) (s : ReprocessState) : Prop where
  symmetric : SymmetricFor userId s.db
  links : LinksExist s.db
  snapshot : HoldsSnapshot (LinkedRows userId) s

theorem LinkSound.step (h : LinkSound userId s) (hC : RestoreClosed s l)
    (hs : step accounts userId s l = some s') : LinkSound userId s' := by
  have hsnap := h.snapshot.step (fun _ _ => h.symmetric.linkedRows) hs
  rcases step_db hs with hdb | ⟨_, _, -, -, hdb⟩ | ⟨ids, rows, rest, hl, hj, hb, hr⟩ |
    ⟨env, tx, -, -, -, hdb⟩
  · exact ⟨hdb ▸ h.symmetric, hdb ▸ h.links, hsnap⟩
  · exact ⟨hdb ▸ symmetricFor_deleteUser, hdb ▸ h.links.deleteUser, hsnap⟩
  · obtain ⟨rows', rest', hb', -, hrows⟩ := h.snapshot.backedUp ids (by rw [hj]; rfl)
    obtain ⟨rfl, -⟩ := List.cons.inj (hb.symm.trans hb')
    have hclosed := hC hl ids rows rest hj hb (by rw [hr]; rfl)
    obtain ⟨hmem, -, hfk⟩ := restoreRows_spec hrows.nodup hr
    refine ⟨h.symmetric.restoreRows hrows hclosed hr, fun r hrm p hp => ?_, hsnap⟩
    rcases (hmem r).mp hrm with hrm | ⟨hrm, hns⟩
    · obtain ⟨q, hq, hid⟩ := h.links r hrm p hp
      exact ⟨q, (hmem q).mpr (Or.inl hq), hid⟩
    · exact hfk r hrm hns p hp
  · exact ⟨hdb ▸ h.symmetric.consume, hdb ▸ h.links.consume, hsnap⟩

/-- The job has restored, and a link is separated. -/
def Broken (userId : UUID) (s : ReprocessState) : Prop :=
  (s.job = .releaseRestored ∨ s.job = .raised true) ∧ Separated userId s.db

theorem broken_of_open (h : LinkSound userId s) (hC : ¬ RestoreClosed s l)
    (hs : step accounts userId s l = some s') : Broken userId s' := by
  simp only [RestoreClosed, Classical.not_imp, not_forall] at hC
  obtain ⟨rfl, ids, rows, rest, hj, hb, hok, hopen⟩ := hC
  obtain ⟨rows', rest', hb', -, hrows⟩ := h.snapshot.backedUp ids (by rw [hj]; rfl)
  obtain ⟨rfl, -⟩ := List.cons.inj (hb.symm.trans hb')
  obtain ⟨db', hr⟩ := Option.isSome_iff_exists.mp hok
  simp only [ReprocessState.step, jobStep, hj, hb, hr] at hs
  obtain rfl := Option.some.inj hs
  exact ⟨Or.inl rfl, separated_of_restore h.links hrows hopen hr⟩

theorem Broken.step (h : Broken userId s) (hs : step accounts userId s l = some s') :
    Broken userId s' := by
  obtain ⟨hj, hsep⟩ := h
  have hj' : s'.job = .releaseRestored ∨ s'.job = .raised true := by
    by_cases hr : l = .raises
    · subst hr
      obtain ⟨j, hjr, rfl⟩ := Option.map_eq_some_iff.mp hs
      rcases hj with hj | hj <;> rw [hj] at hjr
      · exact Or.inr (Option.some.inj hjr).symm
      · cases hjr
    by_cases hl : l = .job
    · subst hl
      simp only [ReprocessState.step, jobStep] at hs
      rcases hj with hj | hj <;> rw [hj] at hs
      · obtain rfl := Option.some.inj hs
        exact Or.inr rfl
      · cases hs
    · rw [(step_job_of_other hs hl hr).1]
      exact hj
  refine ⟨hj', ?_⟩
  rcases step_db hs with hdb | ⟨_, _, -, hd, -⟩ | ⟨_, _, _, -, hd, -, -⟩ | ⟨env, tx, -, -, -, hdb⟩
  · exact hdb ▸ hsep
  · rw [hd] at hj
    rcases hj with hj | hj <;> cases hj
  · rw [hd] at hj
    rcases hj with hj | hj <;> cases hj
  · exact hdb ▸ hsep.consume

/-- **Pair symmetry survives reprocessing, exactly when**: in every state a run of the job and the
consumer reaches from symmetric links, the user's links are symmetric if and only if every restore
so far was closed under links. A restore that is not leaves a link separated for good. -/
theorem symmetricFor_iff_restoreClosed (hstart : s.job = .start)
    (hsym : SymmetricFor userId s.db) (hlinks : LinksExist s.db)
    (he : exec (step accounts userId) s labels = some s') :
    SymmetricFor userId s'.db ↔ Along (step accounts userId) RestoreClosed s labels := by
  have hsound : LinkSound userId s :=
    ⟨hsym, hlinks, holdsSnapshot_of_not_begun (by rw [hstart]; exact id)⟩
  refine ⟨?_, ?_⟩
  · intro hend
    exact along_of_not_broken (fun _ _ _ h hC hs => h.step hC hs)
      (fun _ _ _ h hC hs => broken_of_open h hC hs) (fun _ _ _ h hs => h.step hs) hsound he
      fun hbroken => hbroken.2.not_symmetricFor hend
  · intro hC
    have hend := exec_invariant_along (fun _ _ _ h hC hs => LinkSound.step h hC hs) hsound hC he
    exact hend.symmetric

/-- A pair of which nothing has been replayed: both legs come back. -/
theorem symmetricFor_iff_restoreClosed_both_legs :
    ∃ s', exec (step sampleEnv.accounts 1) (sampleReprocess [sampleExpense, sampleIncome])
        (upToPublish ++ [.raises, .job, .job]) = some s' ∧
      s'.job.Exited ∧ (SymmetricFor 1 s'.db ↔
        Along (step sampleEnv.accounts 1) RestoreClosed
          (sampleReprocess [sampleExpense, sampleIncome])
          (upToPublish ++ [.raises, .job, .job])) := by
  have hrun : (exec (step sampleEnv.accounts 1) (sampleReprocess [sampleExpense, sampleIncome])
      (upToPublish ++ [.raises, .job, .job])).map
      (fun s' => decide s'.job.Exited) = some true := by decide
  have hsym : SymmetricFor 1 (sampleReprocess [sampleExpense, sampleIncome]).db := by decide
  obtain ⟨s', hs', h⟩ := Option.map_eq_some_iff.mp hrun
  exact ⟨s', hs', of_decide_eq_true h, symmetricFor_iff_restoreClosed rfl hsym
    (linksExist_sample _) hs'⟩

/-- A pair whose first leg has been replayed when a `produce` raises: the second comes
back with its old link, to a row that has none. -/
theorem symmetry_lost_in_restore :
    SymmetricFor 1 (sampleReprocess [sampleExpense, sampleIncome]).db ∧
    ∃ s', exec (step sampleEnv.accounts 1) (sampleReprocess [sampleExpense, sampleIncome])
        (upToPublish ++ [.job, .acknowledge, .enrich sampleEnv, .commitOffset, .raises,
          .job, .job]) = some s' ∧
      s'.job.Exited ∧ s'.queue.isEmpty ∧ s'.topic.isEmpty ∧ ¬ SymmetricFor 1 s'.db := by
  have hrun : (exec (step sampleEnv.accounts 1) (sampleReprocess [sampleExpense, sampleIncome])
      (upToPublish ++ [.job, .acknowledge, .enrich sampleEnv, .commitOffset, .raises,
        .job, .job])).map (fun s' => decide (s'.job.Exited ∧ s'.queue.isEmpty ∧
          s'.topic.isEmpty ∧ ¬ SymmetricFor 1 s'.db)) = some true := by decide
  obtain ⟨s', hs', h⟩ := Option.map_eq_some_iff.mp hrun
  exact ⟨by decide, s', hs', of_decide_eq_true h⟩

end ReprocessState

end Grosh
