import Grosh.CatchUp
import Grosh.ReplayLedger
import Grosh.ReplayRoundTrip
import Grosh.UserMirror

/-!
# A reprocess converges

`to_normalized` drops what is derived, the delete removes every derived row, and the replay derives
everything again. What a successful job leaves of its user is therefore what the enrichment of the
events alone, in empty tables and in the order they are read, leaves (`replayAlone`): it depends on
the preserved fields, and on nothing else.

* `Rebuilt` — the user's part of the tables is what some events leave;
* `Phase` — from the delete on, that is so of the events processed so far, and these, with those
  still to come, are events the job has read, in that order;
* `reprocess_converges` — two successful jobs that read the same events leave the same, and the
  next one changes nothing.
-/

namespace Grosh

open Transition

variable {accounts : List AccountProps} {userId : UUID} {env env₀ : PipelineEnv}
  {db db₁ db₂ : Database}
  {convert : NormalizedTransaction → String → Except ConversionError ConversionResult}
  {e tx : NormalizedTransaction} {events done : List NormalizedTransaction} {ids : List UUID}

/-! ## The events of a replay

What the job publishes is read from the rows, and what it reads depends on no derived column: a row
that is derived anew reads back as the same event. -/

/-- What the job reads of its user, in the order of its query. -/
def replayEvents (db : Database) (userId : UUID) : List NormalizedTransaction :=
  (selectForUser db userId).map TransactionRow.toNormalized

theorem mem_replayEvents : e ∈ replayEvents db userId ↔
    ∃ r ∈ db.transactions, r.userId = userId ∧ (TransactionRow.ofRow r).toNormalized = e := by
  simp only [replayEvents, List.mem_map, mem_selectForUser]
  refine ⟨?_, ?_⟩
  · rintro ⟨_, ⟨r, hr, hu, rfl⟩, rfl⟩
    exact ⟨r, hr, hu, rfl⟩
  · rintro ⟨r, hr, hu, rfl⟩
    exact ⟨_, ⟨r, hr, hu, rfl⟩, rfl⟩

/-- An event of the user, with nothing derived: reading it back from a row changes nothing. -/
structure ReplayEvent (userId : UUID) (e : NormalizedTransaction) : Prop where
  userId_eq : e.userId = userId
  replayed_eq : e.replayed = e

theorem replayEvent_of_mem (h : e ∈ replayEvents db userId) : ReplayEvent userId e := by
  obtain ⟨r, -, rfl, rfl⟩ := mem_replayEvents.mp h
  refine ⟨rfl, ?_⟩
  simp only [NormalizedTransaction.replayed, NormalizedTransaction.sourceBlock,
    TransactionRow.toNormalized, Option.getD_some]
  rfl

theorem ids_replayEvents : (replayEvents db userId).map NormalizedTransaction.id =
    ((db.rowsOf userId).insertionSort replayOrder).map Transaction.id := by
  simp only [replayEvents, selectForUser, List.map_map]
  rfl

theorem nodup_replayEvents : ((replayEvents db userId).map NormalizedTransaction.id).Nodup :=
  ids_replayEvents ▸ snapshotRows_nodup

theorem mem_ids_replayEvents {id : UUID} :
    id ∈ (replayEvents db userId).map NormalizedTransaction.id ↔ db.Owns userId id := by
  simp only [ids_replayEvents, List.mem_map, mem_snapshotRows, Database.Owns, and_assoc]

instance : Std.Total replayOrder where
  total a b := by
    simp only [replayOrder]
    grind

instance : IsTrans Transaction replayOrder where
  trans a b c := by
    simp only [replayOrder]
    grind

/-- The events are in the order of their time, then of their id: which rows there are decides the
order, not where they stand. -/
theorem pairwise_replayEvents : (replayEvents db userId).Pairwise fun a b =>
    a.time < b.time ∨ a.time = b.time ∧ a.id ≤ b.id := by
  simp only [replayEvents, selectForUser, List.map_map, List.pairwise_map]
  exact List.pairwise_insertionSort replayOrder _

theorem replayEvents_ext (h : ∀ e, e ∈ replayEvents db₁ userId ↔ e ∈ replayEvents db₂ userId) :
    replayEvents db₁ userId = replayEvents db₂ userId := by
  have hperm : (replayEvents db₁ userId).Perm (replayEvents db₂ userId) :=
    (List.perm_ext_iff_of_nodup nodup_replayEvents.of_map nodup_replayEvents.of_map).mpr h
  refine hperm.eq_of_pairwise (fun a b ha hb hab hba => ?_) pairwise_replayEvents
    pairwise_replayEvents
  have hid : a.id = b.id := by grind
  exact List.inj_on_of_nodup_map nodup_replayEvents ((h a).mp ha) hb hid

/-! ## The tables a replay leaves

The user's part of the tables is compared with what the events alone leave in empty tables.
Everything that another user does is invisible to that comparison. -/

/-- The pipeline of the user alone: no other user is there, and rows come in the order of the
table. -/
def replayEnv (accounts : List AccountProps)
    (convert : NormalizedTransaction → String → Except ConversionError ConversionResult)
    (userId : UUID) : PipelineEnv where
  users := [userId]
  accounts := accounts
  convert := convert
  scan := id
  scan_perm := scan_id_perm

/-- What the events alone leave in empty tables, processed once each and in their order. -/
def replayAlone (accounts : List AccountProps)
    (convert : NormalizedTransaction → String → Except ConversionError ConversionResult)
    (userId : UUID) (events : List NormalizedTransaction) : Database :=
  consumeAll (replayEnv accounts convert userId) .empty events

/-- **The user's part of the tables** is what the done events leave alone, and there is nothing yet
about the rest of the ids. It is the invariant of the replay, from the delete to the
verification. -/
structure Rebuilt (accounts : List AccountProps)
    (convert : NormalizedTransaction → String → Except ConversionError ConversionResult)
    (userId : UUID) (ids : List UUID) (done : List NormalizedTransaction) (db : Database) :
    Prop where
  mirrors : Mirrors userId (done.map NormalizedTransaction.id) db
    (replayAlone accounts convert userId done)
  stored : ∀ e ∈ done, StoredAs db e
  only : ∀ id, db.Owns userId id → id ∈ done.map NormalizedTransaction.id
  anomalies : ∀ a ∈ db.anomalies, a.transactionId ∈ ids → db.Stored a.transactionId

theorem not_owns_deleteUser {id : UUID} : ¬ (db.deleteUser userId).Owns userId id := by
  rintro ⟨r, hr, hu, -⟩
  obtain ⟨r₀, -, hne, rfl⟩ := mem_deleteUser.mp hr
  exact hne ((r₀.unlinked_userId db userId).symm.trans hu)

/-- The delete clears the user's part: no event is done, and nothing of the user is left. -/
theorem rebuilt_deleteUser (hids : ∀ id ∈ ids, db.Owns userId id) :
    Rebuilt accounts convert userId ids [] (db.deleteUser userId) where
  mirrors := by
    refine ⟨List.eq_nil_iff_forall_not_mem.mpr fun r hr => ?_, ?_⟩
    · obtain ⟨hr, hu⟩ := Database.mem_rowsOf.mp hr
      exact not_owns_deleteUser ⟨r, hr, hu, rfl⟩
    · rw [List.filter_eq_nil_iff.mpr fun a _ => by simp]
      exact .nil
  stored := fun e he => by cases he
  only := fun id hid => absurd hid not_owns_deleteUser
  anomalies := by
    intro a ha hid
    obtain ⟨r, hr, hu, hrid⟩ := hids _ hid
    obtain ⟨-, hkeep⟩ := KeyedTable.mem_deleteWhere.mp ha
    simp only [decide_eq_false_iff_not, not_exists, not_and] at hkeep
    exact absurd hrid.symm (hkeep r (Database.mem_rowsOf.mpr ⟨hr, hu⟩))

/-- A new row reads back as its event, whichever layers the unit of work has added. -/
theorem storedAs_consume_self (hrun : run env db tx = .ok (consume env db tx))
    (hf : ¬ db.Stored tx.id) : StoredAs (consume env db tx) tx := by
  obtain ⟨hst, -⟩ | ⟨account, source, conversion, res, db₁, he⟩ := run_cases hrun
  · exact absurd hst hf
  have hnew : ¬ db₁.Stored (enrichedRow tx source account conversion res).id :=
    fun hst => hf (he.detection.stored_iff.mp hst)
  rw [he.result]
  refine ⟨_, (Database.mem_persist hnew).mpr (Or.inr rfl), rfl, rfl, ?_⟩
  exact readsAs_toRow he.source_eq (buildMetadata_source (buildMetadata_eq ..))

/-- One more event is mirrored, if there are no anomalies of it: that holds of every id the delete
has removed. -/
theorem Mirrors.concat {db₀ : Database} {id : UUID} (h : Mirrors userId ids db db₀)
    (hno : ∀ a ∈ db.anomalies, a.transactionId ≠ id) : Mirrors userId (ids ++ [id]) db db₀ := by
  refine ⟨h.rows, ?_⟩
  have hsame : (db.anomalies.rows.filter fun a => decide (a.transactionId ∈ ids ++ [id])) =
      db.anomalies.rows.filter fun a => decide (a.transactionId ∈ ids) := by
    apply List.filter_congr
    intro a ha
    simp only [List.mem_append, List.mem_singleton, hno a ha, or_false]
  rw [hsame]
  exact h.anomalies

/-- **An event of the replay is processed**: its unit of work does the same as it does alone, after
those that are done. -/
theorem Rebuilt.consume_own (h : Rebuilt accounts convert userId ids done db)
    (hacc : env.accounts = accounts) (hrates : env.convert = convert)
    (he : ReplayEvent userId e) (hid : e.id ∈ ids) (hf : ¬ db.Stored e.id)
    (hrun : run env db e = .ok (consume env db e)) :
    Rebuilt accounts convert userId ids (done ++ [e]) (consume env db e) where
  mirrors := by
    have hno : ∀ a ∈ db.anomalies, a.transactionId ≠ e.id := fun a ha heq =>
      hf (heq ▸ h.anomalies a ha (heq ▸ hid))
    have hreads : SameReads env (replayEnv accounts convert userId) := ⟨hacc, hrates⟩
    obtain ⟨db₀, hrun₀, hmirrors⟩ := (h.mirrors.concat hno).run hreads he.userId_eq
      (List.mem_append_right _ (List.mem_singleton.mpr rfl)) hf (List.mem_singleton.mpr rfl) hrun
    have halone : replayAlone accounts convert userId (done ++ [e]) = db₀ := by
      rw [replayAlone, consumeAll, List.foldl_append]
      simp only [List.foldl_cons, List.foldl_nil]
      exact consume_of_run hrun₀
    rw [halone, List.map_append]
    exact hmirrors
  stored := by
    intro e' he'
    obtain he' | he' := List.mem_append.mp he'
    · exact (h.stored e' he').consume
    · obtain rfl := List.mem_singleton.mp he'
      exact storedAs_consume_self hrun hf
  only := by
    intro id hown
    rw [List.map_append, List.mem_append]
    obtain hown | ⟨-, -, rfl⟩ := owns_of_owns_consume hown
    · exact Or.inl (h.only id hown)
    · exact Or.inr (List.mem_singleton.mpr rfl)
  anomalies := by
    intro a ha hin
    obtain ha | ⟨heq, hst⟩ := consume_anomaly_cases ha
    · exact consume_stored_mono (h.anomalies a ha hin)
    · exact heq ▸ hst

/-- The rows of the done events are the user's: nobody else has taken one of their ids. -/
theorem Rebuilt.owned (h : Rebuilt accounts convert userId ids done db)
    (hev : ∀ e ∈ done, e.userId = userId) :
    Owned userId (done.map NormalizedTransaction.id) db := by
  rintro id hid u ⟨r, hr, rfl, rfl⟩
  obtain ⟨e, he, heid⟩ := List.mem_map.mp hid
  obtain ⟨r', hr', hid', hu', -⟩ := h.stored e he
  obtain rfl := KeyedTable.eq_of_key_eq hr hr' (heid.symm.trans hid'.symm)
  exact hu'.trans (hev e he)

/-- **An event of another user is processed**: nothing of it is seen in the user's part. -/
theorem Rebuilt.consume_other (h : Rebuilt accounts convert userId ids done db)
    (hev : ∀ e ∈ done, e.userId = userId) (hu : tx.userId ≠ userId) :
    Rebuilt accounts convert userId ids done (consume env db tx) := by
  by_cases hst : db.Stored tx.id
  · rw [consume_of_stored hst]
    exact h
  refine ⟨?_, fun e he => (h.stored e he).consume, fun id hown => ?_, fun a ha hin => ?_⟩
  · refine h.mirrors.consume_other (h.owned hev) hu fun hin => hst ?_
    obtain ⟨e, he, heid⟩ := List.mem_map.mp hin
    obtain ⟨r, hr, hrid, -, -⟩ := h.stored e he
    exact ⟨r, hr, hrid.trans heid⟩
  · obtain hown | ⟨-, htx, -⟩ := owns_of_owns_consume hown
    · exact h.only id hown
    · exact absurd htx hu
  · obtain ha | ⟨heq, hst'⟩ := consume_anomaly_cases ha
    · exact consume_stored_mono (h.anomalies a ha hin)
    · exact heq ▸ hst'

/-! ## The phases of a job

A job that returns has gone through two phases, up to the delete and after it. In the second the
partition holds the rest of the events in their order, with redeliveries in between. -/

/-- Up to the delete the job holds what the replay needs: the ids of its snapshot, and then the
events, are those of the rows. -/
def JobState.Prepares (events : List NormalizedTransaction) : JobState → Prop
  | .start | .advisoryLock | .snapshot => True
  | .backup rows => rows.map Transaction.id = events.map NormalizedTransaction.id
  | .read ids => ids = events.map NormalizedTransaction.id
  | .delete ids events' => ids = events.map NormalizedTransaction.id ∧ events' = events
  | _ => False

/-- From the delete on it holds the ids it will verify; once it has verified them, they are the
user's. -/
def JobState.Replays (ids : List UUID) (db : Database) (userId : UUID) : JobState → Prop
  | .publish ids' _ _ | .catchUp ids' _ _ | .verify ids' => ids' = ids
  | .release | .returned true => ∀ id ∈ ids, db.Owns userId id
  | _ => False

/-- The job will not return successfully any more: it restores, raises, or has found no lock row. -/
def JobState.Fails : JobState → Prop
  | .restore _ | .releaseRestored | .raised _ | .returned false => True
  | _ => False

theorem JobState.fails_of_raise {j j' : JobState} (h : j.raise = some j') : j'.Fails := by
  obtain ⟨ids, -, rfl⟩ | ⟨b, rfl⟩ := JobState.raise_cases h
  · trivial
  · trivial

/-- What the job has returned: whether it has proceeded, or nothing yet. -/
def JobState.returned? : JobState → Option Bool
  | .returned proceeded => some proceeded
  | _ => none

theorem JobState.of_returned {j : JobState} {proceeded : Bool} (h : j.returned? = some proceeded) :
    j = .returned proceeded := by
  cases j with
  | returned =>
    obtain rfl := Option.some.inj h
    rfl
  | _ => cases h

theorem JobState.Replays.of_owns {j : JobState} (h : j.Replays ids db₁ userId)
    (howns : ∀ id, db₁.Owns userId id → db₂.Owns userId id) : j.Replays ids db₂ userId := by
  cases j with
  | publish => exact h
  | catchUp => exact h
  | verify => exact h
  | release => exact fun id hid => howns id (h id hid)
  | returned proceeded =>
    cases proceeded with
    | false => cases h
    | true => exact fun id hid => howns id (h id hid)
  | _ => cases h

namespace ReprocessState

variable {s s' : ReprocessState} {g g' : Ledger} {l : ReprocessLabel}

/-- The consumer processes no event of the user but those of the job. Events of other users come and
go. -/
def OwnEvents (userId : UUID) (s : ReprocessState × Ledger) : ReprocessLabel → Prop
  | .enrich _ => ∀ m ∈ s.2.topic.head?, m.1.userId = userId → m.2 = true
  | _ => True

instance {s : ReprocessState × Ledger} : ∀ l, Decidable (OwnEvents userId s l)
  | .enrich _ =>
    inferInstanceAs (Decidable (∀ m ∈ s.2.topic.head?, m.1.userId = userId → m.2 = true))
  | .job | .raises | .acknowledge | .deliveryFails | .arrive _ | .commitOffset | .restart =>
    .isTrue trivial

/-- The done events and those still to come, without the redeliveries, are events the job has read,
in the order it has read them. -/
def InOrder (events done pending : List NormalizedTransaction) : Prop :=
  (done ++ pending.filter fun e => decide (e.id ∉ done.map NormalizedTransaction.id)).Sublist events

/-- **Where a job is** that is to replay the events: before the delete, with all of them in the
tables; after it, with some of them done; or failed. The ledger says which messages are the
job's. -/
inductive Phase (accounts : List AccountProps)
    (convert : NormalizedTransaction → String → Except ConversionError ConversionResult)
    (userId : UUID) (events : List NormalizedTransaction) (s : ReprocessState) (g : Ledger) : Prop
  | preparing (hj : s.job.Prepares events) (hrows : replayEvents s.db userId = events)
      (hsent : g.sent = [])
  | replaying (done : List NormalizedTransaction)
      (hj : s.job.Replays (events.map NormalizedTransaction.id) s.db userId)
      (hdone : Rebuilt accounts convert userId (events.map NormalizedTransaction.id) done s.db)
      (horder : InOrder events done (pending s g))
  | failed (hj : s.job.Fails)

theorem InOrder.sublist {pending pending' : List NormalizedTransaction}
    (h : InOrder events done pending) (hs : pending'.Sublist pending) :
    InOrder events done pending' :=
  (List.Sublist.append_left (hs.filter _) done).trans h

theorem InOrder.mem_done {pending : List NormalizedTransaction} (h : InOrder events done pending)
    (he : e ∈ done) : e ∈ events :=
  h.subset (List.mem_append_left _ he)

/-- The next event is one of those read, and may be done. -/
theorem InOrder.next {rest : List NormalizedTransaction} (h : InOrder events done (e :: rest))
    (hnew : e.id ∉ done.map NormalizedTransaction.id) :
    e ∈ events ∧ InOrder events (done ++ [e]) (e :: rest) := by
  rw [InOrder, List.filter_cons_of_pos (by simpa using hnew)] at h
  refine ⟨h.subset (List.mem_append_right _ (List.mem_cons_self ..)), ?_⟩
  rw [InOrder, List.filter_cons_of_neg (by simp), List.append_assoc]
  refine (List.Sublist.append_left (List.Sublist.cons_cons e ?_) done).trans h
  apply List.monotone_filter_right rest
  intro e' he'
  simp only [List.map_append, List.mem_append, not_or, decide_eq_true_eq] at he' ⊢
  exact he'.1

/-- With every id done, every event is: they have no two with one id, and none is out of its
place. -/
theorem InOrder.done_eq {pending : List NormalizedTransaction} (h : InOrder events done pending)
    (hnd : (events.map NormalizedTransaction.id).Nodup)
    (hall : ∀ id ∈ events.map NormalizedTransaction.id,
      id ∈ done.map NormalizedTransaction.id) : done = events := by
  have hsub : done.Sublist events := (List.sublist_append_left done _).trans h
  apply hsub.eq_of_length_le
  have hle := (List.subperm_of_subset hnd hall).length_le
  rwa [List.length_map, List.length_map] at hle

theorem Aligned.exists_head {topic : List NormalizedTransaction} (h : Aligned s g)
    (ht : s.topic = tx :: topic) : ∃ own rest, g.topic = (tx, own) :: rest := by
  have htopic := h.topic.trans ht
  rcases hg : g.topic with _ | ⟨⟨tx', own⟩, rest⟩
  · rw [hg] at htopic
    cases htopic
  · rw [hg] at htopic
    obtain ⟨rfl, -⟩ := List.cons.inj htopic
    exact ⟨own, rest, rfl⟩

/-! ## The steps

From one phase to the next: a statement of the job, a message that moves, or a unit of work of the
consumer. -/

/-- A job that has failed stays so: no statement leads back. -/
theorem fails_jobMove (hj : s.job.Fails) (hm : JobMove userId s s') : s'.job.Fails := by
  cases hm with
  | restored => trivial
  | notRestored => trivial
  | releasedRestored => trivial
  | _ =>
    rw [‹s.job = _›] at hj
    cases hj

/-- The statements up to the delete, which is the step from the first phase to the second. -/
theorem phase_of_prepares (hj : s.job.Prepares events) (hrows : replayEvents s.db userId = events)
    (hsent : g.sent = []) (hm : JobMove userId s s') :
    Phase accounts convert userId events s' (Ledger.record s g .job) := by
  have hsent' : (Ledger.record s g .job).sent = s.job.produces := by
    rw [Ledger.sent_record_job, hsent, List.nil_append]
  cases hm with
  | unlocked => exact .failed trivial
  | locked hj' => exact .preparing trivial hrows (by rw [hsent', hj']; rfl)
  | advisoryLock hj' => exact .preparing trivial hrows (by rw [hsent', hj']; rfl)
  | snapshot hj' =>
    refine .preparing ?_ hrows (by rw [hsent', hj']; rfl)
    rw [← hrows]
    exact ids_replayEvents.symm
  | backup rows hj' =>
    rw [hj'] at hj
    exact .preparing hj hrows (by rw [hsent', hj']; rfl)
  | read ids hj' =>
    rw [hj'] at hj
    exact .preparing ⟨hj, hrows⟩ hrows (by rw [hsent', hj']; rfl)
  | delete ids events' hj' =>
    -- nothing is done yet, and everything is still to be produced
    rw [hj'] at hj hsent'
    obtain ⟨rfl, rfl⟩ := hj
    refine .replaying [] rfl (rebuilt_deleteUser fun id hid => ?_) ?_
    · exact mem_ids_replayEvents.mp (hrows ▸ hid)
    · rw [InOrder, pending, hsent']
      exact List.filter_sublist
  | _ =>
    rw [‹s.job = _›] at hj
    cases hj

/-- The statements from the delete on do not touch the tables, unless they fail. -/
theorem replays_jobMove (hj : s.job.Replays ids s.db userId) (hm : JobMove userId s s') :
    s'.job.Replays ids s'.db userId ∧ s'.db = s.db ∨ s'.job.Fails := by
  cases hm with
  | timedOut => exact Or.inr trivial
  | missing => exact Or.inr trivial
  | verified ids' hj' hids =>
    rw [hj'] at hj
    obtain rfl := hj
    exact Or.inl ⟨verifySnapshot_eq_nil.mp hids, rfl⟩
  | enqueue ids' published event remaining hj' =>
    rw [hj'] at hj
    exact Or.inl ⟨hj, rfl⟩
  | flush ids' published hj' =>
    rw [hj'] at hj
    exact Or.inl ⟨hj, rfl⟩
  | polled ids' expected polls hj' =>
    rw [hj'] at hj
    exact Or.inl ⟨hj, rfl⟩
  | caughtUp ids' expected polls hj' =>
    rw [hj'] at hj
    exact Or.inl ⟨hj, rfl⟩
  | released hj' =>
    rw [hj'] at hj
    exact Or.inl ⟨hj, rfl⟩
  | _ =>
    rw [‹s.job = _›] at hj
    cases hj

theorem ne_read_of_replays (hj : s.job.Replays ids db userId) (ids' : List UUID) :
    s.job ≠ .read ids' := by
  intro heq
  rw [heq] at hj
  cases hj

/-- A statement of the job keeps it in one of its phases. -/
theorem Phase.jobStep (h : Phase accounts convert userId events s g)
    (hs : step accounts userId s .job = some s') :
    Phase accounts convert userId events s' (Ledger.record s g .job) := by
  have hm : JobMove userId s s' := jobStep_cases hs
  cases h with
  | preparing hj hrows hsent => exact phase_of_prepares hj hrows hsent hm
  | replaying done hj hdone horder =>
    obtain ⟨hj', hdb⟩ | hfails := replays_jobMove hj hm
    · exact .replaying done hj' (hdb ▸ hdone)
        (horder.sublist (pending_sublist hs (ne_read_of_replays hj)))
    · exact .failed hfails
  | failed hj => exact .failed (fails_jobMove hj hm)

/-- A step that moves messages only: it changes neither the tables nor the job, and no order among
the job's events. -/
theorem Phase.of_message (h : Phase accounts convert userId events s g)
    (hs : step accounts userId s l = some s') (hl : l ≠ .job) (hdb : s'.db = s.db)
    (hjob : s'.job = s.job) : Phase accounts convert userId events s' (Ledger.record s g l) := by
  cases h with
  | preparing hj hrows hsent =>
    refine .preparing (hjob ▸ hj) (hdb ▸ hrows) (List.sublist_nil.mp ?_)
    rw [← hsent]
    exact Ledger.sent_record_sublist hl
  | replaying done hj hdone horder =>
    refine .replaying done ?_ (hdb ▸ hdone)
      (horder.sublist (pending_sublist hs (ne_read_of_replays hj)))
    rw [hdb, hjob]
    exact hj
  | failed hj => exact .failed (hjob ▸ hj)

/-- A unit of work of another user changes none of the user's rows: it claims rows of its own user
only. -/
theorem rowsOf_consume_other (hu : tx.userId ≠ userId) :
    (consume env db tx).rowsOf userId = db.rowsOf userId := by
  have hmirrors : Mirrors userId [] db
      ⟨⟨db.rowsOf userId, rowsOf_nodup⟩, .empty⟩ := by
    refine ⟨rfl, ?_⟩
    rw [List.filter_eq_nil_iff.mpr fun a _ => by simp]
    exact .nil
  exact (hmirrors.consume_other (fun id hid => by cases hid) hu List.not_mem_nil).rows

/-- A unit of work of the consumer: the next event of the job, one that has been done already, or
one of another user. -/
theorem Phase.enriched {topic : List NormalizedTransaction}
    (h : Phase accounts convert userId events s g) (hg : Aligned s g)
    (hev : ∀ e ∈ events, ReplayEvent userId e) (hC : OwnEvents userId (s, g) (.enrich env))
    (hacc : env.accounts = accounts) (hrates : env.convert = convert) (ht : s.topic = tx :: topic)
    (hrun : run env s.db tx = .ok (consume env s.db tx)) :
    Phase accounts convert userId events
      { s with db := consume env s.db tx, processed := true } g := by
  obtain ⟨own, rest, hhead⟩ := hg.exists_head ht
  have hown : tx.userId = userId → own = true := hC (tx, own) (by rw [hhead]; rfl)
  cases h with
  | preparing hj hrows hsent =>
    -- nothing of the job is on its way yet
    have hu : tx.userId ≠ userId := by
      intro hu
      obtain rfl := hown hu
      obtain ⟨events', hcons, -⟩ := pending_eq_cons (s := s) hhead
      rw [hsent] at hcons
      cases hcons
    refine .preparing hj ?_ hsent
    rw [replayEvents, selectForUser, rowsOf_consume_other hu]
    exact hrows
  | replaying done hj hdone horder =>
    have hj' : s.job.Replays (events.map NormalizedTransaction.id) (consume env s.db tx) userId :=
      hj.of_owns fun id => owns_consume_of_owns
    by_cases hu : tx.userId = userId
    swap
    · exact .replaying done hj' (hdone.consume_other
        (fun e he => (hev e (horder.mem_done he)).userId_eq) hu) horder
    by_cases hst : s.db.Stored tx.id
    · refine .replaying done hj' ?_ horder
      rw [consume_of_stored hst]
      exact hdone
    obtain rfl := hown hu
    obtain ⟨events', -, hpending⟩ := pending_eq_cons (s := s) hhead
    have hnew : tx.id ∉ done.map NormalizedTransaction.id := by
      intro hin
      obtain ⟨e, he, heid⟩ := List.mem_map.mp hin
      obtain ⟨r, hr, hrid, -, -⟩ := hdone.stored e he
      exact hst ⟨r, hr, hrid.trans heid⟩
    rw [hpending] at horder
    obtain ⟨hmem, hnext⟩ := horder.next hnew
    refine .replaying (done ++ [tx]) hj' ?_ (hpending ▸ hnext)
    exact hdone.consume_own hacc hrates (hev tx hmem) (List.mem_map_of_mem hmem) hst hrun
  | failed hj => exact .failed hj

/-- **A step of the system** keeps the job in one of its phases. -/
theorem Phase.step (h : Phase accounts convert userId events s g) (hg : Aligned s g)
    (hev : ∀ e ∈ events, ReplayEvent userId e) (hC : OwnEvents userId (s, g) l)
    (hrates : ∀ env, l = .enrich env → env.convert = convert)
    (hs : step accounts userId s l = some s') :
    Phase accounts convert userId events s' (Ledger.record s g l) := by
  obtain ⟨rfl, -⟩ | hm := step_cases hs
  · exact h.jobStep hs
  have hl : l ≠ .job := by
    rintro rfl
    cases hm
  cases hm with
  | raises j hj => exact .failed (JobState.fails_of_raise hj)
  | enriched env tx topic hacc hp ht hrun =>
    exact h.enriched hg hev hC hacc (hrates env rfl) ht hrun
  | _ => exact h.of_message hs hl rfl rfl

/-! ## Two jobs

Two runs are compared through what the events alone leave, which is the same for both. Nothing is
asked of how the runs are interleaved. -/

/-- **A successful `reprocess_user`**: a run from its start that has it return, the rates the same
throughout, in which the consumer processes no other event of the user. -/
structure Reprocesses (accounts : List AccountProps)
    (convert : NormalizedTransaction → String → Except ConversionError ConversionResult)
    (userId : UUID) (s : ReprocessState) (labels : List ReprocessLabel) (s' : ReprocessState) :
    Prop where
  start : s.job = .start
  run : exec (ReprocessState.step accounts userId) s labels = some s'
  returned : s'.job = .returned true
  rates : ∀ env, ReprocessLabel.enrich env ∈ labels → env.convert = convert
  undisturbed : Along (ledgerStep accounts userId) (OwnEvents userId) (s, Ledger.start s) labels

/-- **What a successful job leaves** depends on the events it reads alone, and it leaves what reads
back as them. -/
theorem Reprocesses.rebuilt {labels : List ReprocessLabel}
    (h : Reprocesses accounts convert userId s labels s') :
    Rebuilt accounts convert userId ((replayEvents s.db userId).map NormalizedTransaction.id)
      (replayEvents s.db userId) s'.db := by
  have hstart : Aligned s (Ledger.start s) ∧
      Phase accounts convert userId (replayEvents s.db userId) s (Ledger.start s) := by
    refine ⟨aligned_start, .preparing ?_ rfl (Ledger.sent_start s)⟩
    rw [h.start]
    trivial
  have hstep : ∀ (t : ReprocessState × Ledger) (l : ReprocessLabel) (t' : ReprocessState × Ledger),
      (Aligned t.1 t.2 ∧ Phase accounts convert userId (replayEvents s.db userId) t.1 t.2) →
      (OwnEvents userId t l ∧ ∀ env, l = .enrich env → env.convert = convert) →
      ledgerStep accounts userId t l = some t' →
      Aligned t'.1 t'.2 ∧ Phase accounts convert userId (replayEvents s.db userId) t'.1 t'.2 := by
    rintro t l t' ⟨hg, hphase⟩ ⟨hC, hrates⟩ hs
    obtain ⟨hs, hrec⟩ := traced_eq_some hs
    rw [hrec]
    exact ⟨hg.step hs, hphase.step hg (fun e he => replayEvent_of_mem he) hC hrates hs⟩
  obtain ⟨g', hexec⟩ : ∃ g', exec (ledgerStep accounts userId) (s, Ledger.start s) labels =
      some (s', g') := exec_traced _ h.run
  have halong := h.undisturbed.and_label (D := fun l => ∀ env, l = .enrich env →
    env.convert = convert) fun l hl env heq => h.rates env (heq ▸ hl)
  obtain ⟨-, hphase⟩ := exec_invariant_along hstep hstart halong hexec
  cases hphase with
  | preparing hj =>
    rw [h.returned] at hj
    cases hj
  | replaying done hj hdone horder =>
    rw [h.returned] at hj
    obtain rfl := horder.done_eq nodup_replayEvents fun id hid => hdone.only id (hj id hid)
    exact hdone
  | failed hj =>
    rw [h.returned] at hj
    cases hj

/-- The next job reads the same events: what it finds reads back as what was published. -/
theorem Reprocesses.replayEvents_eq {labels : List ReprocessLabel}
    (h : Reprocesses accounts convert userId s labels s') :
    replayEvents s'.db userId = replayEvents s.db userId := by
  have hdone := h.rebuilt
  have hstored : ∀ e ∈ replayEvents s.db userId, ∃ r ∈ s'.db.transactions, r.userId = userId ∧
      r.id = e.id ∧ (TransactionRow.ofRow r).toNormalized = e := by
    intro e he
    obtain ⟨hu, hreplayed⟩ := replayEvent_of_mem he
    obtain ⟨r, hr, hid, hru, hreads⟩ := hdone.stored e he
    exact ⟨r, hr, hru.trans hu, hid, hreads.event.trans hreplayed⟩
  refine replayEvents_ext fun e => ⟨fun he => ?_, fun he => ?_⟩
  · obtain ⟨r, hr, hu, rfl⟩ := mem_replayEvents.mp he
    obtain ⟨e, he, hid⟩ := List.mem_map.mp (hdone.only r.id ⟨r, hr, hu, rfl⟩)
    obtain ⟨r', hr', -, hid', rfl⟩ := hstored e he
    obtain rfl := KeyedTable.eq_of_key_eq hr hr' (hid.symm.trans hid'.symm)
    exact he
  · obtain ⟨r, hr, hu, -, hreads⟩ := hstored e he
    exact mem_replayEvents.mpr ⟨r, hr, hu, hreads⟩

/-- The anomalies of the user's transactions, in the order of the table. -/
def anomaliesOf (db : Database) (userId : UUID) : List AnomalyRecord :=
  db.anomalies.rows.filter fun a => decide (a.transactionId ∈ (db.rowsOf userId).map Transaction.id)

/-- **The same of the user**: the rows with every column, and the anomalies up to the order of
their candidates. -/
structure SameOf (userId : UUID) (db₁ db₂ : Database) : Prop where
  rows : db₁.rowsOf userId = db₂.rowsOf userId
  anomalies : List.Forall₂ SameAnomaly (anomaliesOf db₁ userId) (anomaliesOf db₂ userId)

/-- What a job leaves is what the events alone leave: the rows in the same order, and as many
anomalies. -/
theorem Reprocesses.mirrors {labels : List ReprocessLabel}
    (h : Reprocesses accounts convert userId s labels s') :
    s'.db.rowsOf userId = (replayAlone accounts convert userId
        (replayEvents s.db userId)).transactions.rows ∧
      List.Forall₂ SameAnomaly (anomaliesOf s'.db userId)
        (replayAlone accounts convert userId (replayEvents s.db userId)).anomalies.rows := by
  have hmirrors := h.rebuilt.mirrors
  refine ⟨hmirrors.rows, ?_⟩
  have hsame : anomaliesOf s'.db userId = s'.db.anomalies.rows.filter fun a =>
      decide (a.transactionId ∈ (replayEvents s.db userId).map NormalizedTransaction.id) := by
    refine List.filter_congr fun a _ => decide_eq_decide.mpr ?_
    rw [← h.replayEvents_eq, mem_ids_replayEvents]
    simp only [List.mem_map, Database.mem_rowsOf, Database.Owns, and_assoc]
  rw [hsame]
  exact hmirrors.anomalies

/-- Two lists of anomalies that are the same as a third are the same as each other. -/
theorem forall₂_sameAnomaly_of_common {l₁ l₂ l : List AnomalyRecord}
    (h₁ : List.Forall₂ SameAnomaly l₁ l) (h₂ : List.Forall₂ SameAnomaly l₂ l) :
    List.Forall₂ SameAnomaly l₁ l₂ := by
  induction h₁ generalizing l₂ with
  | nil =>
    obtain rfl := List.forall₂_nil_right_iff.mp h₂
    exact .nil
  | cons hab _ ih =>
    cases h₂ with
    | cons hcb h₂ => exact .cons (hab.trans hcb.symm) (ih h₂)

/-- Jobs that read the same events leave the same, whatever else was in the tables. -/
theorem Reprocesses.sameOf {s₁ s₂ s₁' s₂' : ReprocessState} {labels₁ labels₂ : List ReprocessLabel}
    (h₁ : Reprocesses accounts convert userId s₁ labels₁ s₁')
    (h₂ : Reprocesses accounts convert userId s₂ labels₂ s₂')
    (heq : replayEvents s₁.db userId = replayEvents s₂.db userId) :
    SameOf userId s₁'.db s₂'.db := by
  obtain ⟨hrows₁, hanomalies₁⟩ := h₁.mirrors
  obtain ⟨hrows₂, hanomalies₂⟩ := h₂.mirrors
  rw [heq] at hrows₁ hanomalies₁
  exact ⟨hrows₁.trans hrows₂.symm, forall₂_sameAnomaly_of_common hanomalies₁ hanomalies₂⟩

/-- **A reprocess converges**: successful jobs on any two states whose preserved fields of the user
are the same leave the same rows and anomalies of the user, whatever the derived fields were,
whatever else moves and in whatever order the candidates are fetched; and a successful job right
after one changes nothing. -/
theorem reprocess_converges {s₁ s₂ s₁' s₂' : ReprocessState}
    {labels₁ labels₂ : List ReprocessLabel}
    (h₁ : Reprocesses accounts convert userId s₁ labels₁ s₁')
    (h₂ : Reprocesses accounts convert userId s₂ labels₂ s₂')
    (hsame : ∀ e, e ∈ replayEvents s₁.db userId ↔ e ∈ replayEvents s₂.db userId) :
    SameOf userId s₁'.db s₂'.db ∧
      ∀ (t t' : ReprocessState) (labels : List ReprocessLabel), t.db = s₁'.db →
        Reprocesses accounts convert userId t labels t' → SameOf userId t.db t'.db := by
  refine ⟨h₁.sameOf h₂ (replayEvents_ext hsame), fun t t' labels hdb ht => ?_⟩
  rw [hdb]
  apply h₁.sameOf ht
  rw [hdb, h₁.replayEvents_eq]

/-- The sample tables, the candidates fetched the other way round: nothing that is left may depend
on it. -/
def sampleEnvReversed : PipelineEnv :=
  { sampleEnv with scan := List.reverse, scan_perm := List.reverse_perm }

/-- An expense, claimed by the first of two incomes. -/
def samplePaired : ReprocessState := sampleReprocess [sampleExpense, sampleIncome, sampleIncome']

/-- The same, claimed by the other. -/
def samplePaired' : ReprocessState := sampleReprocess [sampleIncome', sampleExpense, sampleIncome]

/-- The statements of a job that replays three events, each processed as it arrives. -/
def replayThree (env : PipelineEnv) : List ReprocessLabel :=
  upToPublish ++ List.replicate 3 .job ++
    (List.replicate 3 [.acknowledge, .enrich env, .commitOffset]).flatten ++ List.replicate 4 .job

theorem mem_replayThree (h : .enrich env ∈ replayThree env₀) : env = env₀ := by
  simpa [replayThree, upToPublish] using h

/-- A run of it from a sample state, if it returns. -/
theorem reprocesses_sample (hs : s.job = .start)
    (hrun : (exec (ReprocessState.step sampleEnv.accounts 1) s (replayThree env)).bind
      (fun s' => s'.job.returned?) = some true) (henv : env.convert = sampleEnv.convert)
    (halong : Along (ledgerStep sampleEnv.accounts 1) (OwnEvents 1) (s, Ledger.start s)
      (replayThree env)) :
    ∃ s', Reprocesses sampleEnv.accounts sampleEnv.convert 1 s (replayThree env) s' := by
  obtain ⟨s', he, hret⟩ := Option.bind_eq_some_iff.mp hrun
  refine ⟨s', hs, he, JobState.of_returned hret, fun env' hmem => ?_, halong⟩
  rw [mem_replayThree hmem]
  exact henv

/-- The expense had been paired with one income or the other; after a reprocess it is paired with
the same. -/
theorem reprocess_converges_samplePaired :
    ∃ s₁' s₂', exec (ReprocessState.step sampleEnv.accounts 1) samplePaired
        (replayThree sampleEnv) = some s₁' ∧
      exec (ReprocessState.step sampleEnv.accounts 1) samplePaired'
        (replayThree sampleEnvReversed) = some s₂' ∧ SameOf 1 s₁'.db s₂'.db := by
  obtain ⟨s₁', h₁⟩ : ∃ s', Reprocesses sampleEnv.accounts sampleEnv.convert 1 samplePaired
      (replayThree sampleEnv) s' :=
    reprocesses_sample rfl (by decide +kernel) rfl (by decide +kernel)
  obtain ⟨s₂', h₂⟩ : ∃ s', Reprocesses sampleEnv.accounts sampleEnv.convert 1 samplePaired'
      (replayThree sampleEnvReversed) s' :=
    reprocesses_sample rfl (by decide +kernel) rfl (by decide +kernel)
  have heq : replayEvents samplePaired.db 1 = replayEvents samplePaired'.db 1 := rfl
  exact ⟨s₁', s₂', h₁.run, h₂.run, (reprocess_converges h₁ h₂ fun e => by rw [heq]).1⟩

end ReprocessState

end Grosh
