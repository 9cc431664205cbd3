import Grosh.Reprocess
import Grosh.StoredRows

/-!
# What a reprocess may lose

A transaction committed while the job runs is safe in one of three places: the snapshot,
which the job verifies or restores; the rows it has read and publishes again; the part of the
topic the consumer has not processed. The delete removes every row of the user, also one that
is in none of them.

* `Held` — a place keeps the id;
* `Lossless` — the condition on a step: what the delete removes, what the producer drops, and
  the snapshot of a job that ends without restoring it, is kept elsewhere;
* `stored_or_unconsumed` — in a run of such steps every id ever committed is in the table, or
  its event unconsumed, once the job has returned or raised.
-/

namespace Grosh

open Transition

/-- The events the job has read and not handed to its producer. They are in the memory of the job
alone, and are lost with an exception. -/
def JobState.unpublished : JobState → List NormalizedTransaction
  | .delete _ events => events
  | .publish _ _ remaining => remaining
  | _ => []

namespace ReprocessState

variable {accounts : List AccountProps} {userId : UUID} {s s' s₁ s₂ : ReprocessState}
  {l : ReprocessLabel} {labels labels₁ labels₂ : List ReprocessLabel} {txId : UUID}

/-! ## Where an id is kept

Five places keep an id from being lost: the table, the topic, the snapshot, the job's memory, and
the queue of its producer. The last two need the job to go on. -/

/-- The events the consumer has still to process. One that has been processed is at the head of the
topic until its offset is committed. -/
def ahead (s : ReprocessState) : List NormalizedTransaction :=
  if s.processed then s.topic.tail else s.topic

/-- An event of the id is ahead of the consumer, and its account exists, so that it will be
stored. -/
def Awaited (accounts : List AccountProps) (s : ReprocessState) (id : UUID) : Prop :=
  ∃ e ∈ s.ahead, e.id = id ∧ AccountKnown accounts e.accountId

/-- The id is one the job still verifies or restores: its row is in `reprocessing_backups`. -/
def Snapshotted (s : ReprocessState) (id : UUID) : Prop :=
  id ∈ s.job.snapshotIds?.getD []

/-- The id needs no replay: its row is there, will be, or is in the snapshot. It is so whatever
becomes of what the job holds in memory. -/
def Covered (accounts : List AccountProps) (s : ReprocessState) (id : UUID) : Prop :=
  s.db.Stored id ∨ s.Awaited accounts id ∨ s.Snapshotted id

/-- The job is replaying the id: it will produce an event of it, or its producer has one that is not
acknowledged yet. A queue is worth nothing once the process is gone. -/
def Replayed (s : ReprocessState) (id : UUID) : Prop :=
  (∃ e ∈ s.job.unpublished, e.id = id) ∨ ¬ s.job.Exited ∧ ∃ e ∈ s.queue, e.id = id

/-- Something keeps the id. This is the invariant of a row that was committed at some time. -/
def Held (accounts : List AccountProps) (s : ReprocessState) (id : UUID) : Prop :=
  s.Covered accounts id ∨ s.Replayed id

/-! ## The condition on a step

Only two kinds of steps can lose anything: the delete, and those at which the producer is given up.
The condition asks of these that what goes is kept elsewhere. -/

/-- The rows a step deletes: all of the user's at the delete, none at any other step. -/
def removed (userId : UUID) (s : ReprocessState) : ReprocessLabel → List Transaction
  | .job =>
    match s.job with
    | .delete _ _ => s.db.rowsOf userId
    | _ => []
  | _ => []

/-- The step is the last one of the job: it returns, with or without having proceeded, or an
exception leaves it. -/
def ends (s : ReprocessState) : ReprocessLabel → Bool
  | .job =>
    match s.job with
    | .start => !s.locked
    | .restore _ => (s.backups.head?.bind (restoreRows s.db)).isNone
    | .release | .releaseRestored => true
    | _ => false
  | .raises =>
    match s.job.raise with
    | some (.raised _) => true
    | _ => false
  | _ => false

/-- The replayed events a step drops: at an exception those not enqueued yet, at the end of
the job also those still enqueued, at a failed delivery its event. -/
def dropped (s : ReprocessState) : ReprocessLabel → List NormalizedTransaction
  | .job => if s.ends .job then s.job.unpublished ++ s.queue else []
  | .raises =>
    if s.ends .raises then s.job.unpublished ++ s.queue else s.job.unpublished
  | .deliveryFails => s.queue.take 1
  | _ => []

/-- The step loses nothing: each field speaks of one way to lose a row, and is true of every step
that does not take it. -/
structure Lossless (accounts : List AccountProps) (userId : UUID) (s : ReprocessState)
    (l : ReprocessLabel) : Prop where
  /-- a row the delete removes is in the snapshot, was read, or comes again -/
  removed : ∀ r ∈ s.removed userId l,
    s.Snapshotted r.id ∨ (∃ e ∈ s.job.unpublished, e.id = r.id) ∨ s.Awaited accounts r.id
  /-- what the producer drops needs no replay -/
  dropped : ¬ s.job.Exited → ∀ e ∈ s.dropped l, s.Covered accounts e.id
  /-- a job that ends with a snapshot not verified and not restored does not need it -/
  abandoned : s.ends l = true → ∀ id ∈ s.job.snapshotIds?.getD [],
    s.db.Stored id ∨ s.Awaited accounts id

instance : Decidable (s.Awaited accounts txId) :=
  inferInstanceAs (Decidable (∃ e ∈ s.ahead, e.id = txId ∧ ∃ a ∈ accounts, a.id = e.accountId))

instance : Decidable (s.Snapshotted txId) :=
  inferInstanceAs (Decidable (txId ∈ s.job.snapshotIds?.getD []))

instance : Decidable (s.Covered accounts txId) :=
  inferInstanceAs (Decidable (_ ∨ _ ∨ _))

instance : Decidable (Lossless accounts userId s l) :=
  decidable_of_iff
    ((∀ r ∈ s.removed userId l,
        s.Snapshotted r.id ∨ (∃ e ∈ s.job.unpublished, e.id = r.id) ∨ s.Awaited accounts r.id) ∧
      (¬ s.job.Exited → ∀ e ∈ s.dropped l, s.Covered accounts e.id) ∧
      (s.ends l = true → ∀ id ∈ s.job.snapshotIds?.getD [],
        s.db.Stored id ∨ s.Awaited accounts id))
    ⟨fun ⟨h₁, h₂, h₃⟩ => ⟨h₁, h₂, h₃⟩, fun h => ⟨h.removed, h.dropped, h.abandoned⟩⟩

/-! ## What holds in every state

An event without its account is never stored, and so does not keep its id. The rows and events of a
run all have accounts that exist. -/

/-- What holds in every state of a run: the account of everything the job holds exists, and
only an event of the topic has been processed. -/
structure Sound (accounts : List AccountProps) (s : ReprocessState) : Prop where
  rows : AccountsExist accounts s.db
  topic : s.processed = true → s.topic ≠ []
  unpublished : ∀ e ∈ s.job.unpublished, AccountKnown accounts e.accountId
  queue : ∀ e ∈ s.queue, AccountKnown accounts e.accountId
  snapshot : HoldsSnapshot (fun rows => (rows.map Transaction.id).Nodup ∧
    ∀ r ∈ rows, AccountKnown accounts r.accountId) s

theorem accountsExist_deleteUser {db : Database} (h : AccountsExist accounts db) :
    AccountsExist accounts (db.deleteUser userId) := by
  intro r hr
  obtain ⟨r₀, hr₀, -, rfl⟩ := mem_deleteUser.mp hr
  rw [r₀.unlinked_accountId db userId]
  exact h r₀ hr₀

/-- An event read back has the account of its row, which a foreign key keeps in place. -/
theorem accountKnown_of_selected {db : Database} (h : AccountsExist accounts db)
    {e : NormalizedTransaction}
    (he : e ∈ (selectForUser db userId).map TransactionRow.toNormalized) :
    AccountKnown accounts e.accountId := by
  obtain ⟨row, hrow, rfl⟩ := List.mem_map.mp he
  obtain ⟨r, hr, -, rfl⟩ := mem_selectForUser.mp hrow
  exact h r hr

theorem Sound.step (h : Sound accounts s) (hs : step accounts userId s l = some s') :
    Sound accounts s' := by
  have hsnap := h.snapshot.step (fun _ _ => ⟨snapshotRows_nodup, fun r hr =>
    h.rows r (mem_snapshotRows.mp hr).1⟩) hs
  -- the rows change by the delete, by the restore of the backup, or by a consumed message
  have hrows : AccountsExist accounts s'.db := by
    rcases step_db hs with hdb | ⟨_, _, -, -, hdb⟩ | ⟨ids, rows, rest, -, hj, hb, hr⟩ |
      ⟨env, tx, -, rfl, -, hdb⟩
    · exact hdb ▸ h.rows
    · exact hdb ▸ accountsExist_deleteUser h.rows
    · obtain ⟨rows', rest', hb', -, hnd, hknown⟩ := h.snapshot.backedUp ids (by rw [hj]; rfl)
      obtain ⟨rfl, -⟩ := List.cons.inj (hb.symm.trans hb')
      intro r hrm
      rcases ((restoreRows_spec hnd hr).1 r).mp hrm with hrm | ⟨hrm, -⟩
      · exact h.rows r hrm
      · exact hknown r hrm
    · exact hdb ▸ h.rows.consume
  rcases step_cases hs with ⟨rfl, hm⟩ | hm
  · cases hm with
    | read ids hj =>
      exact ⟨hrows, h.topic, fun e he => accountKnown_of_selected h.rows he, h.queue, hsnap⟩
    | delete ids events hj =>
      exact ⟨hrows, h.topic, fun e he => h.unpublished e (by rw [hj]; exact he), h.queue, hsnap⟩
    | enqueue ids published event remaining hj =>
      have hun : ∀ e ∈ event :: remaining, AccountKnown accounts e.accountId :=
        fun e he => h.unpublished e (by rw [hj]; exact he)
      refine ⟨hrows, h.topic, fun e he => hun e (List.mem_cons_of_mem _ he), fun e he => ?_,
        hsnap⟩
      rcases List.mem_append.mp he with he | he
      · exact h.queue e he
      · exact hun e (List.mem_singleton.mp he ▸ List.mem_cons_self ..)
    | _ => exact ⟨hrows, h.topic, fun e he => (by cases he), h.queue, hsnap⟩
  · cases hm with
    | raises j hj =>
      refine ⟨hrows, h.topic, fun e he => ?_, h.queue, hsnap⟩
      rcases JobState.raise_cases hj with ⟨_, -, rfl⟩ | ⟨_, rfl⟩
      · cases he
      · cases he
    | acknowledge event queue hq =>
      exact ⟨hrows, fun _ => List.concat_ne_nil _ _, h.unpublished,
        fun e he => h.queue e (hq ▸ List.mem_cons_of_mem _ he), hsnap⟩
    | deliveryFails event queue hq =>
      exact ⟨hrows, h.topic, h.unpublished,
        fun e he => h.queue e (hq ▸ List.mem_cons_of_mem _ he), hsnap⟩
    | arrive tx =>
      exact ⟨hrows, fun _ => List.concat_ne_nil _ _, h.unpublished, h.queue, hsnap⟩
    | enriched env tx topic _ _ ht =>
      exact ⟨hrows, fun _ => ht ▸ List.cons_ne_nil _ _, h.unpublished, h.queue, hsnap⟩
    | skipped env tx topic _ _ _ ht =>
      exact ⟨hrows, fun _ => ht ▸ List.cons_ne_nil _ _, h.unpublished, h.queue, hsnap⟩
    | failed => exact h
    | commitOffset => exact ⟨hrows, fun hp => (by cases hp), h.unpublished, h.queue, hsnap⟩
    | restart => exact ⟨hrows, fun hp => (by cases hp), h.unpublished, h.queue, hsnap⟩

/-! ## A lossless step keeps every id

One lemma for each kind of move. The delete and the end of the job are those at which the condition
is used; at all others the id stays where it is or moves on to the next place. -/

theorem Snapshotted.exists_ids (h : s.Snapshotted txId) :
    ∃ ids, s.job.snapshotIds? = some ids ∧ txId ∈ ids := by
  simp only [Snapshotted] at h
  rcases hids : s.job.snapshotIds? with _ | ids <;> rw [hids] at h
  · cases h
  · exact ⟨ids, rfl, h⟩

theorem Snapshotted.of_ids {ids : List UUID} (hids : s.job.snapshotIds? = some ids)
    (h : txId ∈ ids) : s.Snapshotted txId := by
  rw [Snapshotted, hids]
  exact h

theorem Held.of_stored (h : s.db.Stored txId) : s.Held accounts txId := Or.inl (Or.inl h)

theorem Held.of_awaited (h : s.Awaited accounts txId) : s.Held accounts txId :=
  Or.inl (Or.inr (Or.inl h))

/-- What is covered stays so while the job keeps its snapshot, whatever else the job does. -/
theorem Covered.of_job {j : JobState} (h : s.Covered accounts txId)
    (hids : ∀ ids, s.job.snapshotIds? = some ids → j.snapshotIds? = some ids) :
    Covered accounts { s with job := j } txId := by
  rcases h with h | h | h
  · exact Or.inl h
  · exact Or.inr (Or.inl h)
  · obtain ⟨ids, hi, hid⟩ := h.exists_ids
    exact Or.inr (Or.inr (Snapshotted.of_ids (hids ids hi) hid))

/-- A statement that only moves the job on: what it has not published yet it still has. -/
theorem Held.of_job {j : JobState} (h : s.Held accounts txId)
    (hids : ∀ ids, s.job.snapshotIds? = some ids → j.snapshotIds? = some ids)
    (hun : ∀ e ∈ s.job.unpublished, e ∈ j.unpublished) (hj : ¬ j.Exited) :
    Held accounts { s with job := j } txId := by
  rcases h with h | ⟨e, he, hid⟩ | ⟨-, hq⟩
  · exact Or.inl (h.of_job hids)
  · exact Or.inr (Or.inl ⟨e, hun e he, hid⟩)
  · exact Or.inr (Or.inr ⟨hj, hq⟩)

theorem dropped_of_ends (h : s.ends l = true) : s.dropped l = s.job.unpublished ++ s.queue := by
  cases l with
  | job => rw [ReprocessState.dropped, if_pos h]
  | raises => rw [ReprocessState.dropped, if_pos h]
  | _ => cases h

/-- At the end of the job, what is not in the table is ahead of the consumer: neither the snapshot
nor the producer is there any more. -/
theorem Held.at_end (h : s.Held accounts txId) (hC : Lossless accounts userId s l)
    (hl : s.ends l = true) (hx : ¬ s.job.Exited) :
    s.db.Stored txId ∨ s.Awaited accounts txId := by
  have hcovered : ∀ {i}, s.Covered accounts i → s.db.Stored i ∨ s.Awaited accounts i := by
    rintro i (h | h | h)
    · exact Or.inl h
    · exact Or.inr h
    · exact hC.abandoned hl i h
  have hdrop := dropped_of_ends hl ▸ hC.dropped hx
  rcases h with h | ⟨e, he, rfl⟩ | ⟨-, e, he, rfl⟩
  · exact hcovered h
  · exact hcovered (hdrop e (List.mem_append_left _ he))
  · exact hcovered (hdrop e (List.mem_append_right _ he))

/-- Where the job ends, nothing but the job changes. -/
theorem Held.ended {j : JobState} (h : s.Held accounts txId)
    (hC : Lossless accounts userId s l) (hl : s.ends l = true) (hx : ¬ s.job.Exited) (b : Bool) :
    Held accounts { s with locked := b, job := j } txId := by
  rcases h.at_end hC hl hx with h | h
  · exact Held.of_stored h
  · exact Held.of_awaited h

/-- The delete of the user's rows: each of them is in the snapshot, was read, or comes again. -/
theorem Held.delete {ids : List UUID} {events : List NormalizedTransaction}
    (h : s.Held accounts txId) (hC : Lossless accounts userId s .job)
    (hj : s.job = .delete ids events) :
    Held accounts { s with
      db := s.db.deleteUser userId, job := .publish ids events.length events } txId := by
  have hread : ∀ e ∈ events, Held accounts { s with
      db := s.db.deleteUser userId, job := .publish ids events.length events } e.id :=
    fun e he => Or.inr (Or.inl ⟨e, he, rfl⟩)
  have hin : ∀ i ∈ ids, Held accounts { s with
      db := s.db.deleteUser userId, job := .publish ids events.length events } i :=
    fun i hi => Or.inl (Or.inr (Or.inr (Snapshotted.of_ids rfl hi)))
  have hids : ∀ {i}, s.Snapshotted i → i ∈ ids := fun {i} hi => by
    rw [Snapshotted, hj] at hi
    exact hi
  rcases h with (⟨r, hr, rfl⟩ | hw | h) | ⟨e, he, rfl⟩ | ⟨-, hq⟩
  · by_cases hu : r.userId = userId
    · have hrm : r ∈ s.removed userId .job := by
        simp only [ReprocessState.removed, hj]
        exact Database.mem_rowsOf.mpr ⟨hr, hu⟩
      rcases hC.removed r hrm with hi | ⟨e, he, hid⟩ | hw
      · exact hin _ (hids hi)
      · rw [hj] at he
        exact hid ▸ hread e he
      · exact Held.of_awaited hw
    · exact Held.of_stored
        ⟨_, mem_deleteUser.mpr ⟨r, hr, hu, rfl⟩, r.unlinked_id s.db userId⟩
  · exact Held.of_awaited hw
  · exact hin _ (hids h)
  · rw [hj] at he
    exact hread e he
  · exact Or.inr (Or.inr ⟨fun hx => hx, hq⟩)

/-- The statements of the job, one after another: the delete and the last one by the condition, the
others since they lose nothing. -/
theorem Held.jobMove (h : s.Held accounts txId) (hk : Sound accounts s)
    (hC : Lossless accounts userId s .job) (hm : JobMove userId s s') :
    s'.Held accounts txId := by
  cases hm with
  | unlocked hj hlocked =>
    exact h.ended hC (by simp [ends, hj, hlocked]) (by rw [hj]; exact fun hx => hx) _
  | backup rows hj =>
    rcases h with (h | h | h) | ⟨e, he, -⟩ | ⟨-, hq⟩
    · exact Held.of_stored h
    · exact Held.of_awaited h
    · rw [Snapshotted, hj] at h
      cases h
    · rw [hj] at he
      cases he
    · exact Or.inr (Or.inr ⟨fun hx => hx, hq⟩)
  | delete ids events hj => exact h.delete hC hj
  | enqueue ids published event remaining hj =>
    rcases h with (h | h | h) | ⟨e, he, rfl⟩ | ⟨-, e, he, rfl⟩
    · exact Held.of_stored h
    · exact Held.of_awaited h
    · rw [Snapshotted, hj] at h
      exact Or.inl (Or.inr (Or.inr h))
    · rw [hj] at he
      rcases List.mem_cons.mp he with rfl | he
      · exact Or.inr (Or.inr ⟨fun hx => hx, e, by simp, rfl⟩)
      · exact Or.inr (Or.inl ⟨e, he, rfl⟩)
    · exact Or.inr (Or.inr ⟨fun hx => hx, e, List.mem_append_left _ he, rfl⟩)
  | verified ids hj hids =>
    -- nothing is missing, so the ids of the snapshot are all stored
    have hstored : ∀ i ∈ ids, s.db.Stored i := by
      intro i hi
      have hin := List.filter_eq_nil_iff.mp hids i hi
      simp only [decide_eq_true_eq, Decidable.not_not] at hin
      obtain ⟨r, hr, hid⟩ := List.mem_map.mp hin
      exact ⟨r, (Database.mem_rowsOf.mp hr).1, hid⟩
    rcases h with (h | h | h) | ⟨e, he, -⟩ | ⟨-, hq⟩
    · exact Held.of_stored h
    · exact Held.of_awaited h
    · rw [Snapshotted, hj] at h
      exact Held.of_stored (hstored _ h)
    · rw [hj] at he
      cases he
    · exact Or.inr (Or.inr ⟨fun hx => hx, hq⟩)
  | restored ids rows rest db hj hb hr =>
    obtain ⟨rows', rest', hb', hrows, hnd, -⟩ := hk.snapshot.backedUp ids (by rw [hj]; rfl)
    obtain ⟨rfl, -⟩ := List.cons.inj (hb.symm.trans hb')
    obtain ⟨hmem, -, -⟩ := restoreRows_spec hnd hr
    rcases h with (⟨r, hrm, hid⟩ | h | h) | ⟨e, he, -⟩ | ⟨-, hq⟩
    · exact Held.of_stored ⟨r, (hmem r).mpr (Or.inl hrm), hid⟩
    · exact Held.of_awaited h
    · rw [Snapshotted, hj] at h
      have hin : txId ∈ rows.map Transaction.id := hrows ▸ h
      obtain ⟨r, hrm, rfl⟩ := List.mem_map.mp hin
      by_cases hst : s.db.Stored r.id
      · obtain ⟨q, hq, hqid⟩ := hst
        exact Held.of_stored ⟨q, (hmem q).mpr (Or.inl hq), hqid⟩
      · exact Held.of_stored ⟨r, (hmem r).mpr (Or.inr ⟨hrm, hst⟩), rfl⟩
    · rw [hj] at he
      cases he
    · exact Or.inr (Or.inr ⟨fun hx => hx, hq⟩)
  | notRestored ids hj hr =>
    refine h.ended hC ?_ (by rw [hj]; exact fun hx => hx) _
    rcases hb : s.backups with _ | ⟨rows, rest⟩
    · simp [ends, hj, hb]
    · simp [ends, hj, hb, hr rows rest hb]
  | released hj => exact h.ended hC (by simp [ends, hj]) (by rw [hj]; exact fun hx => hx) _
  | releasedRestored hj =>
    exact h.ended hC (by simp [ends, hj]) (by rw [hj]; exact fun hx => hx) _
  | _ =>
    -- the ids of the snapshot stay with the job, and it has nothing left to enqueue
    refine h.of_job (fun ids hids => ?_) (fun e he => ?_) fun hx => hx
    · rw [‹s.job = _›] at hids
      exact hids
    · rw [‹s.job = _›] at he
      cases he

theorem ahead_eq_tail {tx : NormalizedTransaction} {topic : List NormalizedTransaction}
    (hp : s.processed = true) (ht : s.topic = tx :: topic) : s.ahead = topic := by
  rw [ahead, if_pos hp, ht]
  rfl

theorem ahead_eq_topic (hp : s.processed = false) : s.ahead = s.topic := by
  rw [ahead, if_neg (by simp [hp])]

/-- The consumer has processed the oldest event: it is stored now, or its account is missing and it
kept nothing. -/
theorem Held.processed {tx : NormalizedTransaction} {topic : List NormalizedTransaction}
    {db : Database} (h : s.Held accounts txId) (hp : s.processed = false)
    (ht : s.topic = tx :: topic) (hmono : ∀ i, s.db.Stored i → db.Stored i)
    (htx : AccountKnown accounts tx.accountId → db.Stored tx.id) :
    Held accounts { s with db := db, processed := true } txId := by
  have hahead : ahead { s with db := db, processed := true } = topic := ahead_eq_tail rfl ht
  rcases h with (h | ⟨e, he, rfl, hacc⟩ | h) | h
  · exact Held.of_stored (hmono _ h)
  · rw [ahead_eq_topic hp, ht] at he
    rcases List.mem_cons.mp he with rfl | he
    · exact Held.of_stored (htx hacc)
    · exact Held.of_awaited ⟨e, hahead ▸ he, rfl, hacc⟩
  · exact Or.inl (Or.inr (Or.inr h))
  · exact Or.inr h

/-- More is ahead of the consumer, the rest is as it was: what was kept is kept. -/
theorem Held.of_ahead {topic : List NormalizedTransaction} {b : Bool}
    (h : s.Held accounts txId)
    (hahead : ∀ e ∈ s.ahead, e ∈ ahead { s with topic := topic, processed := b }) :
    Held accounts { s with topic := topic, processed := b } txId := by
  rcases h with (h | ⟨e, he, hid, hacc⟩ | h) | h
  · exact Held.of_stored h
  · exact Held.of_awaited ⟨e, hahead e he, hid, hacc⟩
  · exact Or.inl (Or.inr (Or.inr h))
  · exact Or.inr h

theorem ahead_append {event : NormalizedTransaction} (hk : s.processed = true → s.topic ≠ []) :
    ahead { s with topic := s.topic ++ [event] } = s.ahead ++ [event] := by
  unfold ahead
  simp only
  split_ifs with hp
  · exact List.tail_append_of_ne_nil (hk hp)
  · rfl

/-- The other parties' moves: the broker, the consumer and other producers. -/
theorem Held.otherMove (h : s.Held accounts txId) (hk : Sound accounts s)
    (hC : Lossless accounts userId s l) (hm : OtherMove accounts s l s') :
    s'.Held accounts txId := by
  cases hm with
  | raises j hj =>
    -- on the way to a restore only events not enqueued yet are dropped, and each is covered
    have hx := JobState.not_exited_of_raise hj
    rcases JobState.raise_cases hj with ⟨ids, hids, rfl⟩ | ⟨b, rfl⟩
    · have hl : s.ends .raises = false := by simp only [ends, hj]
      have hdrop := hC.dropped hx
      simp only [ReprocessState.dropped, hl] at hdrop
      have hcovered : ∀ {i}, s.Covered accounts i →
          Held accounts { s with job := .restore ids } i :=
        fun hc => Or.inl (hc.of_job fun ids' hi => hids.symm.trans hi)
      rcases h with h | ⟨e, he, rfl⟩ | ⟨-, hq⟩
      · exact hcovered h
      · exact hcovered (hdrop e he)
      · exact Or.inr (Or.inr ⟨fun hx => hx, hq⟩)
    · exact h.ended hC (by simp only [ends, hj]) hx _
  | acknowledge event queue hq =>
    have hahead : ahead { s with queue := queue, topic := s.topic ++ [event] } =
        s.ahead ++ [event] := ahead_append hk.topic
    rcases h with (h | ⟨e, he, hid, hacc⟩ | h) | h | ⟨hx, e, he, rfl⟩
    · exact Held.of_stored h
    · exact Held.of_awaited ⟨e, hahead ▸ List.mem_append_left _ he, hid, hacc⟩
    · exact Or.inl (Or.inr (Or.inr h))
    · exact Or.inr (Or.inl h)
    -- the event acknowledged leaves the queue for the topic
    · have hacc := hk.queue e he
      rw [hq] at he
      rcases List.mem_cons.mp he with rfl | he
      · exact Held.of_awaited ⟨e, hahead ▸ List.mem_append_right _ (List.mem_singleton.mpr rfl),
          rfl, hacc⟩
      · exact Or.inr (Or.inr ⟨hx, e, he, rfl⟩)
  | deliveryFails event queue hq =>
    rcases h with h | h | ⟨hx, e, he, rfl⟩
    · exact Or.inl h
    · exact Or.inr (Or.inl h)
    · have hdrop := hC.dropped hx
      simp only [ReprocessState.dropped, hq] at hdrop
      rw [hq] at he
      rcases List.mem_cons.mp he with rfl | he
      · exact Or.inl (hdrop e (List.mem_singleton.mpr rfl))
      · exact Or.inr (Or.inr ⟨hx, e, he, rfl⟩)
  | arrive tx =>
    have hahead : ahead { s with topic := s.topic ++ [tx] } = s.ahead ++ [tx] :=
      ahead_append hk.topic
    rcases h with (h | ⟨e, he, hid, hacc⟩ | h) | h
    · exact Held.of_stored h
    · exact Held.of_awaited ⟨e, hahead ▸ List.mem_append_left _ he, hid, hacc⟩
    · exact Or.inl (Or.inr (Or.inr h))
    · exact Or.inr h
  -- a message is processed into a stored row, or skipped for an account that does not exist
  | enriched env tx topic hacc hp ht hrun =>
    apply h.processed hp ht (fun i hi => consume_stored_mono hi)
    intro _
    exact stored_of_run hrun
  | skipped env tx topic accountId hacc hp ht hrun =>
    apply h.processed hp ht (fun i hi => hi)
    intro hknown
    rw [← hacc] at hknown
    obtain ⟨account, ha⟩ := accountKnown_iff.mp hknown
    exact absurd ⟨accountId, hrun⟩ (not_skips_run ha)
  | failed => exact h
  | commitOffset tx topic hp ht =>
    apply h.of_ahead
    intro e he
    rw [ahead_eq_tail hp ht] at he
    exact he
  -- a restart reads again from the committed offset, so nothing ahead is lost
  | restart =>
    apply h.of_ahead
    intro e he
    simp only [ahead] at he
    split at he
    · exact List.mem_of_mem_tail he
    · exact he

/-- **A lossless step keeps every id**, whoever takes it. -/
theorem Held.step (h : s.Held accounts txId) (hk : Sound accounts s)
    (hC : Lossless accounts userId s l) (hs : step accounts userId s l = some s') :
    s'.Held accounts txId := by
  rcases step_cases hs with ⟨rfl, hm⟩ | hm
  · exact h.jobMove hk hC hm
  · exact h.otherMove hk hC hm

/-! ## Runs

The invariant along a run, and what it says once the job has ended: then the table and the topic are
all that is left. -/

/-- Once the job has ended, a kept id is in the table, or its event unconsumed. -/
theorem Held.of_exited (h : s.Held accounts txId) (hend : s.job.Exited) :
    s.db.Stored txId ∨ ∃ e ∈ s.topic, e.id = txId := by
  have hids : s.job.snapshotIds? = none ∧ s.job.unpublished = [] := by
    rcases hj : s.job <;> rw [hj] at hend <;>
      first
        | exact hend.elim
        | exact ⟨rfl, rfl⟩
  rcases h with (h | ⟨e, he, hid, -⟩ | h) | ⟨e, he, -⟩ | ⟨hx, -⟩
  · exact Or.inl h
  · refine Or.inr ⟨e, ?_, hid⟩
    simp only [ahead] at he
    split at he
    · exact List.mem_of_mem_tail he
    · exact he
  · rw [Snapshotted, hids.1] at h
    cases h
  · rw [hids.2] at he
    cases he
  · exact absurd hend hx

/-- **A reprocess loses nothing, when its steps are lossless**: a row committed before or
during the job is in the table once the job has returned or raised, or its event is
unconsumed. -/
theorem stored_or_unconsumed (hjob : s.job = .start) (hqueue : s.queue = [])
    (hacc : AccountsExist accounts s.db) (htopic : s.processed = true → s.topic ≠ [])
    (hC : Along (step accounts userId) (Lossless accounts userId) s (labels₁ ++ labels₂))
    (he₁ : exec (step accounts userId) s labels₁ = some s₁) {r : Transaction}
    (hr : r ∈ s₁.db.transactions) (he₂ : exec (step accounts userId) s₁ labels₂ = some s₂)
    (hend : s₂.job.Exited) : s₂.db.Stored r.id ∨ ∃ e ∈ s₂.topic, e.id = r.id := by
  have hsound : Sound accounts s := by
    refine ⟨hacc, htopic, fun e he => ?_, fun e he => ?_, holdsSnapshot_of_not_begun ?_⟩
    · rw [hjob] at he
      cases he
    · rw [hqueue] at he
      cases he
    · rw [hjob]
      exact fun hx => hx
  have hsound₁ : Sound accounts s₁ := exec_invariant (fun _ _ _ h hs => h.step hs) hsound he₁
  have hheld : s₁.Held accounts r.id := Held.of_stored (KeyedTable.hasKey_of_mem hr)
  have hinv : ∀ (t : ReprocessState) (l : ReprocessLabel) (t' : ReprocessState),
      (Sound accounts t ∧ t.Held accounts r.id) → Lossless accounts userId t l →
      step accounts userId t l = some t' → Sound accounts t' ∧ t'.Held accounts r.id :=
    fun t l t' ⟨hk, h⟩ hC hs => ⟨hk.step hs, h.step hk hC hs⟩
  exact (exec_invariant_along hinv ⟨hsound₁, hheld⟩ ((along_append he₁).mp hC).2 he₂).2.of_exited
    hend

/-- A stored leg, an exception at the first `produce`: the restore brings the leg back. -/
theorem stored_or_unconsumed_sampleExpense :
    ∃ s₂, exec (step sampleEnv.accounts 1) (sampleReprocess [sampleExpense])
        (upToPublish ++ [.raises, .job, .job]) = some s₂ ∧ s₂.job.Exited ∧
      ∀ r ∈ (sampleReprocess [sampleExpense]).db.transactions,
        s₂.db.Stored r.id ∨ ∃ e ∈ s₂.topic, e.id = r.id := by
  have hrun : (exec (step sampleEnv.accounts 1) (sampleReprocess [sampleExpense])
      (upToPublish ++ [.raises, .job, .job])).map (fun s₂ => decide s₂.job.Exited) =
        some true := by decide
  have hC : Along (step sampleEnv.accounts 1) (Lossless sampleEnv.accounts 1)
      (sampleReprocess [sampleExpense]) ([] ++ (upToPublish ++ [.raises, .job, .job])) := by
    decide
  have hacc : AccountsExist sampleEnv.accounts (sampleReprocess [sampleExpense]).db :=
    consumeAll_induction (fun _ _ _ h => h.consume) rowsSound_empty.accounts
  obtain ⟨s₂, he, hend⟩ := Option.map_eq_some_iff.mp hrun
  refine ⟨s₂, he, of_decide_eq_true hend, fun r hr => ?_⟩
  exact stored_or_unconsumed rfl rfl hacc (fun h => by cases h) hC rfl hr he
    (of_decide_eq_true hend)

/-- An event in flight when the job starts, enriched after the job has read the table and
before it deletes: the job succeeds and the row is gone. -/
theorem row_lost_in_reprocess :
    ∃ s₁ s₂ r, exec (step sampleEnv.accounts 1)
        { sampleReprocess [] with topic := [sampleExpense] }
        (List.replicate 5 .job ++ [.enrich sampleEnv, .commitOffset]) = some s₁ ∧
      r ∈ s₁.db.transactions ∧ r.userId = 1 ∧
      exec (step sampleEnv.accounts 1) s₁ (List.replicate 5 .job) = some s₂ ∧
      s₂.job.Exited ∧ ¬ (s₂.db.Stored r.id ∨ ∃ e ∈ s₂.topic, e.id = r.id) := by
  have hrun : ((exec (step sampleEnv.accounts 1)
      { sampleReprocess [] with topic := [sampleExpense] }
      (List.replicate 5 .job ++ [.enrich sampleEnv, .commitOffset])).bind fun s₁ =>
        (exec (step sampleEnv.accounts 1) s₁ (List.replicate 5 .job)).map fun s₂ =>
          decide (∃ r ∈ s₁.db.transactions.rows, r.userId = 1 ∧ s₂.job.Exited ∧
            ¬ (s₂.db.Stored r.id ∨ ∃ e ∈ s₂.topic, e.id = r.id))) = some true := by decide
  obtain ⟨s₁, he₁, hrun⟩ := Option.bind_eq_some_iff.mp hrun
  obtain ⟨s₂, he₂, hlost⟩ := Option.map_eq_some_iff.mp hrun
  obtain ⟨r, hr, hu, hend, hno⟩ := of_decide_eq_true hlost
  exact ⟨s₁, s₂, r, he₁, hr, hu, he₂, hend, hno⟩

end ReprocessState

end Grosh
