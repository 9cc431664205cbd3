import Grosh.Reprocess

/-!
# The catch-up wait of the reprocess job

After the replay is published, `_wait_for_pipeline_catchup` polls the number of the user's rows
until it reaches the number of published events. It counts rows of any kind: an event of the
user that was in flight before the lock was taken can stand in for one that has not come back.

* `catchUpSound_iff` — the wait returns with the whole snapshot in the table exactly if, at
  every poll, nothing of the snapshot is missing or fewer other rows have landed than are missing.
* `catchUpSound_of_no_stray` — and that is so in every run in which the consumer stores no row of
  the user outside the snapshot, from its `SELECT` to the return of the wait.
-/

namespace Grosh

open Transition

/-- The snapshot ids, the expected number and the number of polls of a waiting job. Any other job is
not waiting. -/
def JobState.polling? : JobState → Option (List UUID × ℕ × ℕ)
  | .catchUp ids expected polls => some (ids, expected, polls)
  | _ => none

theorem JobState.of_polling {j : JobState} {ids : List UUID} {expected polls : ℕ}
    (h : j.polling? = some (ids, expected, polls)) : j = .catchUp ids expected polls := by
  cases j with
  | catchUp => cases h; rfl
  | _ => cases h

/-- The snapshot of a job, from its `SELECT` to the return of the wait: the time in which another
row of the user can take the place of one of the snapshot. -/
def JobState.window? : JobState → Option (List UUID)
  | .backup rows => some (rows.map Transaction.id)
  | .read ids => some ids
  | .delete ids _ => some ids
  | .publish ids _ _ => some ids
  | .catchUp ids _ _ => some ids
  | _ => none

namespace ReprocessState

variable {accounts : List AccountProps} {userId : UUID} {s s' : ReprocessState}
  {l : ReprocessLabel} {labels : List ReprocessLabel} {db : Database} {ids : List UUID}

/-! ## Counting

The wait compares two numbers and the verification two sets. What lies between them are the rows of
the user that are not in the snapshot. -/

/-- The user's rows that are not in the snapshot: those of events that were in flight, and those the
job has read beyond its snapshot. -/
def foreignRows (db : Database) (userId : UUID) (snapshotIds : List UUID) : List Transaction :=
  (db.rowsOf userId).filter fun r => decide (r.id ∉ snapshotIds)

theorem rowsOf_nodup : ((db.rowsOf userId).map Transaction.id).Nodup :=
  db.transactions.nodup.sublist (List.filter_sublist.map _)

/-- The rows of the user are those of the snapshot that are there, and the others. -/
theorem length_rowsOf (hnd : ids.Nodup) :
    (db.rowsOf userId).length + (verifySnapshot db userId ids).length =
      ids.length + (foreignRows db userId ids).length := by
  have hperm : (((db.rowsOf userId).filter fun r => decide (r.id ∈ ids)).map
      Transaction.id).Perm
      (ids.filter fun id => decide (id ∈ (db.rowsOf userId).map Transaction.id)) := by
    apply (List.perm_ext_iff_of_nodup (rowsOf_nodup.sublist (List.filter_sublist.map _))
      (hnd.filter _)).mpr
    intro id
    simp only [List.mem_map, List.mem_filter, decide_eq_true_eq]
    refine ⟨?_, ?_⟩
    · rintro ⟨r, ⟨hr, hin⟩, rfl⟩
      exact ⟨hin, r, hr, rfl⟩
    · rintro ⟨hin, r, hr, rfl⟩
      exact ⟨r, ⟨hr, hin⟩, rfl⟩
  have hlen := hperm.length_eq
  rw [List.length_map] at hlen
  have hrows := List.length_eq_length_filter_add (l := db.rowsOf userId)
    fun r => decide (r.id ∈ ids)
  have hids := List.length_eq_length_filter_add (l := ids)
    fun id => decide (id ∈ (db.rowsOf userId).map Transaction.id)
  have hforeign : ((db.rowsOf userId).filter fun r => !decide (r.id ∈ ids)) =
      foreignRows db userId ids := by
    simp only [foreignRows, decide_not]
  have hmissing : (ids.filter fun id => !decide (id ∈ (db.rowsOf userId).map Transaction.id)) =
      verifySnapshot db userId ids := by
    simp only [verifySnapshot, decide_not]
  rw [hforeign] at hrows
  rw [hmissing] at hids
  omega

theorem verifySnapshot_eq_nil :
    verifySnapshot db userId ids = [] ↔ ∀ id ∈ ids, db.Owns userId id := by
  simp only [verifySnapshot, List.filter_eq_nil_iff, decide_eq_true_eq, not_not, List.mem_map,
    Database.mem_rowsOf, Database.Owns, and_assoc]

/-! ## The polls

A poll returns by the count alone. Whether the snapshot is then in the table can be read off the
rows before the poll, which is the condition. -/

/-- Where the wait returns, every id of the snapshot is a row of the user. A wait that times out is
not at issue: the job raises then. -/
def CatchUpSound (userId : UUID) (s : ReprocessState) (l : ReprocessLabel) : Prop :=
  l = .job → ∀ ids expected polls s', s.job = .catchUp ids expected polls →
    jobStep userId s = some s' → s'.job = .verify ids → ∀ id ∈ ids, s'.db.Owns userId id

/-- At a poll nothing of the snapshot is missing, or fewer other rows of the user have landed
than are missing; the rows the job has read beyond its snapshot are expected on top. -/
def NotFilledUp (userId : UUID) (s : ReprocessState) (l : ReprocessLabel) : Prop :=
  l = .job → ∀ ids expected polls, s.job = .catchUp ids expected polls →
    expected = 0 ∨ polls < catchUpPolls →
    verifySnapshot s.db userId ids = [] ∨
      (foreignRows s.db userId ids).length + ids.length <
        (verifySnapshot s.db userId ids).length + expected

/-- Where a poll returns: nothing was published, or the count is reached in time. Rows of every kind
are counted. -/
theorem jobStep_returns {expected polls : ℕ} (hj : s.job = .catchUp ids expected polls)
    (hs : jobStep userId s = some s') :
    s'.db = s.db ∧ (s'.job = .verify ids ↔
      (expected = 0 ∨ polls < catchUpPolls) ∧ expected ≤ (s.db.rowsOf userId).length) := by
  simp only [jobStep, hj] at hs
  obtain rfl := Option.some.inj hs
  refine ⟨rfl, ?_⟩
  by_cases h₀ : expected = 0
  · rw [if_pos h₀]
    exact iff_of_true rfl ⟨Or.inl h₀, h₀ ▸ Nat.zero_le _⟩
  by_cases hp : polls < catchUpPolls
  swap
  · rw [if_neg h₀, if_neg hp]
    exact iff_of_false (fun h => by cases h) fun h => h.1.elim h₀ hp
  by_cases hn : expected ≤ (s.db.rowsOf userId).length
  · rw [if_neg h₀, if_pos hp, if_pos hn]
    exact iff_of_true rfl ⟨Or.inr hp, hn⟩
  · rw [if_neg h₀, if_pos hp, if_neg hn]
    exact iff_of_false (fun h => by cases h) fun h => hn h.2

/-- **A poll**: it returns too early exactly where foreign rows make up for what is missing of the
snapshot. -/
theorem catchUpSound_iff_notFilledUp
    (h : HoldsSnapshot (fun rows => (rows.map Transaction.id).Nodup) s) :
    CatchUpSound userId s l ↔ NotFilledUp userId s l := by
  have hlen : ∀ {ids expected polls}, s.job = .catchUp ids expected polls →
      (s.db.rowsOf userId).length + (verifySnapshot s.db userId ids).length =
        ids.length + (foreignRows s.db userId ids).length := by
    intro ids expected polls hj
    obtain ⟨rows, rest, -, hids, hnd⟩ := h.backedUp ids (by rw [hj]; rfl)
    exact length_rowsOf (hids ▸ hnd)
  refine ⟨fun hS hl ids expected polls hj htime => ?_,
    fun hN hl ids expected polls s' hj hs hret => ?_⟩
  · by_contra hno
    obtain ⟨hmissing, hge⟩ := not_or.mp hno
    have hcount : expected ≤ (s.db.rowsOf userId).length := by
      have := hlen hj
      omega
    obtain ⟨s', hs⟩ : ∃ s', jobStep userId s = some s' := by
      simp only [jobStep, hj]
      exact ⟨_, rfl⟩
    obtain ⟨hdb, hiff⟩ := jobStep_returns hj hs
    have howns := hS hl ids expected polls s' hj hs (hiff.mpr ⟨htime, hcount⟩)
    exact hmissing (verifySnapshot_eq_nil.mpr (hdb ▸ howns))
  · obtain ⟨hdb, hiff⟩ := jobStep_returns hj hs
    obtain ⟨htime, hcount⟩ := hiff.mp hret
    rw [hdb, ← verifySnapshot_eq_nil]
    apply (hN hl ids expected polls hj htime).resolve_right
    intro hlt
    have := hlen hj
    omega

/-- **The catch-up wait is sound, exactly when no other rows fill the count up**: in a run of a
job from its start, beside any deliveries, exceptions and events of other producers, the wait
always returns with the whole snapshot in the table if and only if at every poll nothing of the
snapshot is missing or fewer other rows of the user have landed than are missing. -/
theorem catchUpSound_iff (hjob : s.job = .start) :
    Along (step accounts userId) (CatchUpSound userId) s labels ↔
      Along (step accounts userId) (NotFilledUp userId) s labels := by
  have hstep : ∀ (t : ReprocessState) (l : ReprocessLabel) (t' : ReprocessState),
      HoldsSnapshot (fun rows => (rows.map Transaction.id).Nodup) t →
      step accounts userId t l = some t' →
      HoldsSnapshot (fun rows => (rows.map Transaction.id).Nodup) t' :=
    fun t l t' h hs => h.step (fun _ _ => snapshotRows_nodup) hs
  have hstart : HoldsSnapshot (fun rows => (rows.map Transaction.id).Nodup) s := by
    apply holdsSnapshot_of_not_begun
    rw [hjob]
    exact fun hx => hx
  refine ⟨along_of_along (fun t l t' h _ hs => hstep t l t' h hs) (fun t l h hC => ?_) hstart,
    along_of_along (fun t l t' h _ hs => hstep t l t' h hs) (fun t l h hC => ?_) hstart⟩
  · exact (catchUpSound_iff_notFilledUp h).mp hC
  · exact (catchUpSound_iff_notFilledUp h).mpr hC

/-- A leg is replayed, and the wait returns. -/
theorem catchUpSound_iff_sampleExpense :
    Along (step sampleEnv.accounts 1) (CatchUpSound 1) (sampleReprocess [sampleExpense])
        (upToPublish ++ [.job, .job, .acknowledge, .enrich sampleEnv, .commitOffset, .job]) ↔
      Along (step sampleEnv.accounts 1) (NotFilledUp 1) (sampleReprocess [sampleExpense])
        (upToPublish ++ [.job, .job, .acknowledge, .enrich sampleEnv, .commitOffset, .job]) :=
  catchUpSound_iff rfl

/-- The other leg was in flight and fills the count up: the wait returns, and the leg of the
snapshot has not come back. -/
theorem caughtUp_without_snapshot :
    ∃ labels, ¬ Along (step sampleEnv.accounts 1) (CatchUpSound 1)
      { sampleReprocess [sampleExpense] with topic := [sampleIncome] } labels := by
  have hrun : (exec (step sampleEnv.accounts 1)
      { sampleReprocess [sampleExpense] with topic := [sampleIncome] }
      (upToPublish ++ [.job, .job, .enrich sampleEnv, .commitOffset])).bind
        (fun s => s.job.polling?.map fun poll => decide (poll.2.2 < catchUpPolls ∧
          poll.2.1 ≤ (s.db.rowsOf 1).length ∧ verifySnapshot s.db 1 poll.1 ≠ [])) =
        some true := by
    decide
  obtain ⟨s, he, hrun⟩ := Option.bind_eq_some_iff.mp hrun
  obtain ⟨⟨ids, expected, polls⟩, hpoll, hrun⟩ := Option.map_eq_some_iff.mp hrun
  obtain ⟨htime, hcount, hmissing⟩ := of_decide_eq_true hrun
  have hj := JobState.of_polling hpoll
  refine ⟨(upToPublish ++ [.job, .job, .enrich sampleEnv, .commitOffset]) ++ [.job],
    fun hA => hmissing ?_⟩
  have hS := ((along_append he).mp hA).2.1
  obtain ⟨s', hs⟩ : ∃ s', jobStep 1 s = some s' := by
    simp only [jobStep, hj]
    exact ⟨_, rfl⟩
  obtain ⟨hdb, hiff⟩ := jobStep_returns hj hs
  have howns := hS rfl ids expected polls s' hj hs (hiff.mpr ⟨Or.inr htime, hcount⟩)
  exact verifySnapshot_eq_nil.mpr (hdb ▸ howns)

/-! ## Without strays

A condition on the consumer that is enough: as long as it stores nothing beyond the snapshot, every
row that is counted is one of the snapshot. -/

/-- From the `SELECT` of the snapshot to the return of the wait, the consumer stores no row of
the user that is not in the snapshot. -/
def NoStray (userId : UUID) (s : ReprocessState) : ReprocessLabel → Prop
  | .enrich _ => ∀ ids, s.job.window? = some ids → ∀ tx topic, s.topic = tx :: topic →
      tx.userId = userId → ¬ s.db.Stored tx.id → tx.id ∈ ids
  | _ => True

/-- What the job still needs of the snapshot: before the delete its rows, then as many events. It
never has fewer events to publish than ids to verify. -/
def Due (userId : UUID) (db : Database) : JobState → Prop
  | .backup rows => ∀ id ∈ rows.map Transaction.id, db.Owns userId id
  | .read ids => ∀ id ∈ ids, db.Owns userId id
  | .delete ids events => ids.length ≤ events.length
  | .publish ids published _ => ids.length ≤ published
  | .catchUp ids expected _ => ids.length ≤ expected
  | _ => True

/-- The user's rows are those of the snapshot, or fewer. With `due` this makes the count an exact
one. -/
structure Replaying (userId : UUID) (s : ReprocessState) : Prop where
  only : ∀ ids, s.job.window? = some ids → ∀ id, s.db.Owns userId id → id ∈ ids
  due : Due userId s.db s.job

theorem Replaying.notFilledUp (h : Replaying userId s) : NotFilledUp userId s l := by
  intro _ ids expected polls hj _
  have hdue := h.due
  rw [hj] at hdue
  have hforeign : foreignRows s.db userId ids = [] := by
    apply List.filter_eq_nil_iff.mpr
    intro r hr
    obtain ⟨hr, hu⟩ := Database.mem_rowsOf.mp hr
    have hin := h.only ids (by rw [hj]; rfl) r.id ⟨r, hr, hu, rfl⟩
    simpa using hin
  rw [hforeign]
  by_cases hmissing : verifySnapshot s.db userId ids = []
  · exact Or.inl hmissing
  · have hpos := List.length_pos_iff.mpr hmissing
    have hle : ids.length ≤ expected := hdue
    right
    rw [List.length_nil]
    omega

theorem length_le_rowsOf (hnd : ids.Nodup) (h : ∀ id ∈ ids, db.Owns userId id) :
    ids.length ≤ (db.rowsOf userId).length := by
  have hmissing := verifySnapshot_eq_nil.mpr h
  have hlen : (db.rowsOf userId).length + (verifySnapshot db userId ids).length =
      ids.length + (foreignRows db userId ids).length := length_rowsOf hnd
  rw [hmissing, List.length_nil] at hlen
  omega

/-- A statement of the job: up to the delete the rows are the snapshot, and from there on nothing of
the user is left but what is replayed. -/
theorem Replaying.jobMove (h : Replaying userId s)
    (hsnap : HoldsSnapshot (fun rows => (rows.map Transaction.id).Nodup) s)
    (hm : JobMove userId s s') : Replaying userId s' := by
  have hdue := h.due
  cases hm with
  | snapshot hj =>
    have hrows : ∀ id, id ∈ ((s.db.rowsOf userId).insertionSort replayOrder).map Transaction.id ↔
        s.db.Owns userId id := by
      intro id
      simp only [List.mem_map, mem_snapshotRows, Database.Owns, and_assoc]
    refine ⟨fun ids hids id hid => ?_, fun id hid => (hrows id).mp hid⟩
    obtain rfl := Option.some.inj hids
    exact (hrows id).mpr hid
  | backup rows hj =>
    rw [hj] at hdue
    refine ⟨fun ids hids => h.only ids (by rw [hj]; exact hids), hdue⟩
  | read ids hj =>
    rw [hj] at hdue
    refine ⟨fun ids' hids => h.only ids' (by rw [hj]; exact hids), ?_⟩
    obtain ⟨rows, rest, -, hids, hnd⟩ := hsnap.backedUp ids (by rw [hj]; rfl)
    have hle := length_le_rowsOf (hids ▸ hnd) hdue
    simpa [Due, selectForUser] using hle
  | delete ids events hj =>
    rw [hj] at hdue
    refine ⟨fun ids' _ id hid => ?_, hdue⟩
    obtain ⟨r, hr, hu, -⟩ := hid
    obtain ⟨r₀, -, hne, rfl⟩ := mem_deleteUser.mp hr
    exact absurd ((r₀.unlinked_userId s.db userId).symm.trans hu) hne
  | enqueue ids published event remaining hj =>
    rw [hj] at hdue
    exact ⟨fun ids' hids => h.only ids' (by rw [hj]; exact hids), hdue⟩
  | flush ids published hj =>
    rw [hj] at hdue
    exact ⟨fun ids' hids => h.only ids' (by rw [hj]; exact hids), hdue⟩
  | polled ids expected polls hj =>
    rw [hj] at hdue
    exact ⟨fun ids' hids => h.only ids' (by rw [hj]; exact hids), hdue⟩
  | _ => exact ⟨fun ids hids => (by cases hids), trivial⟩

/-- **A step without strays**, of the job or of anybody else, leaves no foreign row. -/
theorem Replaying.step (h : Replaying userId s)
    (hsnap : HoldsSnapshot (fun rows => (rows.map Transaction.id).Nodup) s)
    (hC : NoStray userId s l) (hs : step accounts userId s l = some s') :
    Replaying userId s' := by
  rcases step_cases hs with ⟨rfl, hm⟩ | hm
  · exact h.jobMove hsnap hm
  cases hm with
  | raises j hj =>
    rcases JobState.raise_cases hj with ⟨ids, -, rfl⟩ | ⟨b, rfl⟩
    · exact ⟨fun ids hids => (by cases hids), trivial⟩
    · exact ⟨fun ids hids => (by cases hids), trivial⟩
  | enriched env tx topic hacc hp ht hrun =>
    refine ⟨fun ids hids id hid => ?_, ?_⟩
    · rcases owns_of_owns_consume hid with hid | ⟨hfresh, hu, rfl⟩
      · exact h.only ids hids id hid
      · exact hC ids hids tx topic ht hu hfresh
    · have hdue := h.due
      cases hj : s.job with
      | backup rows =>
        rw [hj] at hdue
        exact fun id hid => owns_consume_of_owns (hdue id hid)
      | read ids =>
        rw [hj] at hdue
        exact fun id hid => owns_consume_of_owns (hdue id hid)
      | _ =>
        rw [hj] at hdue
        exact hdue
  | _ => exact ⟨h.only, h.due⟩

/-- **Without strays the wait is sound**: in a run in which the consumer stores no row beyond the
snapshot, the wait returns with the whole snapshot in the table. -/
theorem catchUpSound_of_no_stray (hjob : s.job = .start)
    (hC : Along (step accounts userId) (NoStray userId) s labels) :
    Along (step accounts userId) (CatchUpSound userId) s labels := by
  have hstart : HoldsSnapshot (fun rows => (rows.map Transaction.id).Nodup) s ∧
      Replaying userId s := by
    refine ⟨holdsSnapshot_of_not_begun ?_, fun ids hids => ?_, ?_⟩
    · rw [hjob]
      exact fun hx => hx
    · rw [hjob] at hids
      cases hids
    · rw [hjob]
      trivial
  have hstep : ∀ (t : ReprocessState) (l : ReprocessLabel) (t' : ReprocessState),
      (HoldsSnapshot (fun rows => (rows.map Transaction.id).Nodup) t ∧ Replaying userId t) →
      NoStray userId t l → step accounts userId t l = some t' →
      HoldsSnapshot (fun rows => (rows.map Transaction.id).Nodup) t' ∧ Replaying userId t' :=
    fun t l t' h hC hs => ⟨h.1.step (fun _ _ => snapshotRows_nodup) hs, h.2.step h.1 hC hs⟩
  exact (catchUpSound_iff hjob).mpr
    (along_of_along hstep (fun t l h _ => h.2.notFilledUp) hstart hC)

end ReprocessState

end Grosh
