import Grosh.Staging

/-!
# The staging gate

Routing reads the lock and produces afterwards; a drain checks it once, in the sweep query, or
not at all, after the `NOTIFY` of a release. Each statement sees what is committed when it
starts, so a lock committed after the check does not stop the `produce` the check guards.

The service is a set of tasks that share the producer and the staging table, and the locks are
committed by somebody else at any moment. A lock is harmless as long as no task is on its way from
its check to its `produce`, whichever task that is.

* `PastCheck` — some part of the service has passed its last check for a user;
* `gated_of_unexposed` — as long as no lock is committed while its user is past a check, no
  event of a locked user is handed to a producer.
-/

namespace Grosh

open Transition

namespace StagingState

variable {env : NormalizerEnv} {s s' : StagingState} {l : StagingLabel}
  {labels : List StagingLabel} {u : UUID}

/-- The event a step hands to a producer: the `produce` of the consumer on the branch without a
lock, or that of a drain for the first of its rows. No other step reaches a producer. -/
def handed (s : StagingState) : StagingLabel → Option NormalizedTransaction
  | .consume _ =>
    match s.consumer with
    | .checked tx false => some tx
    | _ => none
  | .drain i =>
    match s.tasks[i]? with
    | some ⟨_, .draining _ (row :: _), _⟩ => some row.payload
    | _ => none
  | _ => none

/-- The step hands over no event of a locked user: whatever it gives to a producer, there is no lock
row of its user in the table at that moment. This is what the staging gate is for. -/
def Gated (s : StagingState) (l : StagingLabel) : Prop :=
  ∀ tx ∈ s.handed l, tx.userId ∉ s.locks

/-- The service checks the lock of the user no more before it hands over an event of theirs: the
consumer has read that there is none, a drain is under way or in the list of the sweep, or the
`NOTIFY` of a release is about to start one. -/
def PastCheck (s : StagingState) (u : UUID) : Prop :=
  (∃ tx, s.consumer = .checked tx false ∧ tx.userId = u) ∨ u ∈ s.notifications ∨
    ∃ t ∈ s.tasks, u ∈ t.users

/-- The condition on a step: no lock is committed for a user past a check. It speaks of the moment
of the commit alone: a check that comes later finds the lock. -/
def Unexposed (s : StagingState) (l : StagingLabel) : Prop :=
  ∀ u, l = .commitLock u → ¬ s.PastCheck u

instance : Decidable (s.PastCheck u) :=
  match hc : s.consumer with
  | .checked tx false =>
    decidable_of_iff (tx.userId = u ∨ u ∈ s.notifications ∨ ∃ t ∈ s.tasks, u ∈ t.users)
      (or_congr_left ⟨fun h => ⟨tx, hc, h⟩, fun ⟨tx', h, hu⟩ => by
        obtain ⟨rfl, -⟩ := ConsumerState.checked.inj (hc.symm.trans h)
        exact hu⟩)
  | .checked _ true | .polling | .fetched | .routing _ | .written _ _ | .handled =>
    decidable_of_iff (u ∈ s.notifications ∨ ∃ t ∈ s.tasks, u ∈ t.users)
      ⟨Or.inr, fun h => h.resolve_left fun ⟨_, h, _⟩ => by rw [hc] at h; cases h⟩

instance : Decidable (s.Unexposed l) :=
  match l with
  | .commitLock v => decidable_of_iff (¬ s.PastCheck v)
      ⟨fun h u hu => StagingLabel.commitLock.inj hu ▸ h, fun h => h v rfl⟩
  | .arrive _ | .poll _ | .consume _ | .routeFails | .crash | .acknowledge _ _
  | .deliveryFails _ _ | .releaseLock _ | .notify | .missNotify | .sweep _ | .drain _
  | .drainFails _ => .isTrue fun _ h => by cases h

/-- What a run keeps as long as its locks are committed in time: a user past a check has no lock,
and the rows a drain has read or the table holds are of the user they are drained for. -/
structure GateSound (s : StagingState) : Prop where
  unexposed : ∀ u ∈ s.locks, ¬ s.PastCheck u
  staging : ∀ r ∈ s.staging, r.payload.userId = r.userId
  tasks : ∀ t ∈ s.tasks, ∀ r ∈ t.phase.rows, r.payload.userId = t.phase.userId

/-! ## What a step changes

A lock row appears in one way only, and a user gets past a check in a few. These are read off the
moves once, and the run lemma needs nothing else about the steps. -/

/-- A lock is there after a step only if it was before, or the step commits it. Of all the labels
only `commitLock` adds to the lock rows. -/
theorem mem_locks_step (hs : step env s l = some s') (hu : u ∈ s'.locks) :
    u ∈ s.locks ∨ l = .commitLock u := by
  cases step_cases hs with
  | commitLock v =>
    rcases List.mem_cons.mp hu with rfl | hu
    · exact Or.inr rfl
    · exact Or.inl hu
  | releaseLock v => exact Or.inl (List.mem_of_mem_filter hu)
  | _ => exact Or.inl hu

theorem users_next {t t' : DrainTask} (h : next t = some t') (hu : u ∈ t'.users) : u ∈ t.users := by
  simp only [next] at h
  split at h
  · cases h
  next v vs hr =>
  obtain rfl := Option.some.inj h
  exact List.mem_cons_of_mem _ (hr ▸ hu)

/-- A task that is put back for the same users exposes nobody new. -/
theorem PastCheck.of_putTask {i : ℕ} {t : DrainTask} (t' : Option DrainTask)
    (h : s'.PastCheck u) (hc : s'.consumer = s.consumer)
    (hn : s'.notifications = s.notifications) (htasks : s'.tasks = s.putTask i t')
    (ht : s.tasks[i]? = some t) (husers : ∀ t₁, t' = some t₁ → ∀ v ∈ t₁.users, v ∈ t.users) :
    s.PastCheck u := by
  rcases h with h | h | ⟨t₁, ht₁, hu⟩
  · exact Or.inl (hc ▸ h)
  · exact Or.inr (Or.inl (hn ▸ h))
  · rw [htasks] at ht₁
    rcases mem_putTask ht₁ with ht₁ | rfl
    · exact Or.inr (Or.inr ⟨t₁, ht₁, hu⟩)
    · exact Or.inr (Or.inr ⟨t, List.mem_of_getElem? ht, husers t₁ rfl u hu⟩)

/-- **Only a check that finds no lock exposes a user**: who is past a check after a step was so
before, or has no lock after it. -/
theorem pastCheck_step (hs : step env s l = some s') (h : s'.PastCheck u) :
    s.PastCheck u ∨ u ∉ s'.locks := by
  cases step_cases hs with
  -- a user gets past by the lock check, a release or the sweep, and each sees no lock
  | checkLock rowId tx hc =>
    rcases h with ⟨tx', htx, rfl⟩ | h
    · right
      obtain ⟨rfl, hfree⟩ := ConsumerState.checked.inj htx
      exact of_decide_eq_false hfree
    · exact Or.inl (Or.inr h)
  | releaseLock v =>
    rcases h with h | h | h
    · exact Or.inl (Or.inl h)
    · rcases List.mem_append.mp h with h | h
      · exact Or.inl (Or.inr (Or.inl h))
      · right
        rw [List.mem_singleton.mp h]
        simp
    · exact Or.inl (Or.inr (Or.inr h))
  -- a drain task started by a notification was past the check as the notification
  | notify v rest hn =>
    left
    rcases h with h | h | ⟨t, ht, hu⟩
    · exact Or.inl h
    · exact Or.inr (Or.inl (hn ▸ List.mem_cons_of_mem _ h))
    · rcases List.mem_append.mp ht with ht | ht
      · exact Or.inr (Or.inr ⟨t, ht, hu⟩)
      · rw [List.mem_singleton.mp ht] at hu
        rw [List.mem_singleton.mp hu]
        exact Or.inr (Or.inl (hn ▸ List.mem_cons_self ..))
  | missNotify v rest hn =>
    left
    rcases h with h | h | h
    · exact Or.inl h
    · exact Or.inr (Or.inl (hn ▸ List.mem_cons_of_mem _ h))
    · exact Or.inr (Or.inr h)
  | sweep v vs hp =>
    rcases h with h | h | ⟨t, ht, hu⟩
    · exact Or.inl (Or.inl h)
    · exact Or.inl (Or.inr (Or.inl h))
    · rcases List.mem_append.mp ht with ht | ht
      · exact Or.inl (Or.inr (Or.inr ⟨t, ht, hu⟩))
      · rw [List.mem_singleton.mp ht] at hu
        exact Or.inr (not_locked_of_mem_selectUnlockedUserIds (hp.subset hu))
  -- a drain task at work keeps the users it was started for
  | select i t v ht hp =>
    refine Or.inl (h.of_putTask (some _) rfl rfl rfl ht fun t₁ h₁ w hw => ?_)
    obtain rfl := Option.some.inj h₁
    simpa [DrainTask.users, DrainPhase.userId, hp] using hw
  | drained i t v ht hp =>
    exact Or.inl (h.of_putTask (next t) rfl rfl rfl ht fun t₁ h₁ w hw => users_next h₁ hw)
  | publish i t v row rest ht hp =>
    refine Or.inl (h.of_putTask (some _) rfl rfl rfl ht fun t₁ h₁ w hw => ?_)
    obtain rfl := Option.some.inj h₁
    simpa [DrainTask.users, DrainPhase.userId, hp] using hw
  | delete i t v row rest ht hp =>
    refine Or.inl (h.of_putTask (some _) rfl rfl rfl ht fun t₁ h₁ w hw => ?_)
    obtain rfl := Option.some.inj h₁
    simpa [DrainTask.users, DrainPhase.userId, hp] using hw
  | drainFails i t ht =>
    exact Or.inl (h.of_putTask (next t) rfl rfl rfl ht fun t₁ h₁ w hw => users_next h₁ hw)
  | crash =>
    rcases h with ⟨_, h, -⟩ | h | ⟨_, ht, -⟩
    · cases h
    · cases h
    · cases ht
  -- no other state of the consumer is past the check
  | poll => exact Or.inl (h.imp_left fun ⟨_, h, _⟩ => by cases h)
  | normalize => exact Or.inl (h.imp_left fun ⟨_, h, _⟩ => by cases h)
  | skip => exact Or.inl (h.imp_left fun ⟨_, h, _⟩ => by cases h)
  | insert => exact Or.inl (h.imp_left fun ⟨_, h, _⟩ => by cases h)
  | produce => exact Or.inl (h.imp_left fun ⟨_, h, _⟩ => by cases h)
  | commitStaged => exact Or.inl (h.imp_left fun ⟨_, h, _⟩ => by cases h)
  | commitProduced => exact Or.inl (h.imp_left fun ⟨_, h, _⟩ => by cases h)
  | commitOffset => exact Or.inl (h.imp_left fun ⟨_, h, _⟩ => by cases h)
  | routeFails => exact Or.inl (h.imp_left fun ⟨_, h, _⟩ => by cases h)
  | arrive => exact Or.inl h
  | acknowledge => exact Or.inl h
  | deliveryFails => exact Or.inl h
  | commitLock => exact Or.inl h
  | sweepNothing => exact Or.inl h

/-! ## Runs -/

/-- The rows of a new task are of its user, since `select_staged_for_user` has found them under the
user's id. -/
def OwnRows (t : DrainTask) : Prop := ∀ r ∈ t.phase.rows, r.payload.userId = t.phase.userId

theorem ownRows_next {t t' : DrainTask} (h : next t = some t') : OwnRows t' := by
  simp only [next] at h
  split at h
  · cases h
  · obtain rfl := Option.some.inj h
    intro r hr
    cases hr

theorem GateSound.step (h : GateSound s) (hC : s.Unexposed l) (hs : step env s l = some s') :
    GateSound s' := by
  have hput : ∀ (i : ℕ) (t' : Option DrainTask), (∀ t₁, t' = some t₁ → OwnRows t₁) →
      ∀ t ∈ s.putTask i t', OwnRows t := by
    intro i t' hown t ht
    rcases mem_putTask ht with ht | ht
    · exact h.tasks t ht
    · exact hown t ht
  -- a lock held now was held or has just been committed
  refine ⟨fun u hu hpast => ?_, fun r hr => ?_, ?_⟩
  · rcases mem_locks_step hs hu with hlocked | rfl
    · rcases pastCheck_step hs hpast with hpast | hfree
      · exact h.unexposed u hlocked hpast
      · exact hfree hu
    · rcases pastCheck_step hs hpast with hpast | hfree
      · exact hC u rfl hpast
      · exact hfree hu
  · cases step_cases hs with
    | commitStaged rowId tx hc hk =>
      rcases (KeyedTable.mem_insertIgnore_of_not_hasKey hk).mp hr with hr | rfl
      · exact h.staging r hr
      · rfl
    | delete => exact h.staging r (KeyedTable.mem_deleteWhere.mp hr).1
    | _ => exact h.staging r hr
  · cases step_cases hs with
    | crash => exact fun t ht => by cases ht
    | notify =>
      intro t ht
      rcases List.mem_append.mp ht with ht | ht
      · exact h.tasks t ht
      · rw [List.mem_singleton.mp ht]
        exact fun r hr => by cases hr
    | sweep =>
      intro t ht
      rcases List.mem_append.mp ht with ht | ht
      · exact h.tasks t ht
      · rw [List.mem_singleton.mp ht]
        exact fun r hr => by cases hr
    | select i t v ht hp =>
      apply hput i (some _)
      intro t₁ h₁ r hr
      obtain rfl := Option.some.inj h₁
      obtain ⟨hrs, hru⟩ := mem_selectStagedForUser.mp hr
      exact (h.staging r hrs).trans hru
    | drained i t v ht hp => exact hput i (next t) fun t₁ h₁ => ownRows_next h₁
    | publish i t v row rest ht hp =>
      apply hput i (some _)
      intro t₁ h₁ r hr
      obtain rfl := Option.some.inj h₁
      have hown := h.tasks t (List.mem_of_getElem? ht)
      rw [hp] at hown
      exact hown r (List.mem_cons_of_mem _ hr)
    | delete i t v row rest ht hp =>
      apply hput i (some _)
      intro t₁ h₁ r hr
      obtain rfl := Option.some.inj h₁
      have hown := h.tasks t (List.mem_of_getElem? ht)
      rw [hp] at hown
      exact hown r hr
    | drainFails i t ht => exact hput i (next t) fun t₁ h₁ => ownRows_next h₁
    | _ => exact h.tasks

/-- A step that hands an event over is past the check of its user. With the invariant this is the
whole gate: who is past a check has no lock. -/
theorem pastCheck_of_handed (h : GateSound s) {tx : NormalizedTransaction}
    (htx : tx ∈ s.handed l) : s.PastCheck tx.userId := by
  simp only [handed] at htx
  split at htx
  · split at htx
    · next tx' hc =>
      obtain rfl := Option.some.inj htx
      exact Or.inl ⟨tx', hc, rfl⟩
    · cases htx
  · split at htx
    · next b v row rest us ht =>
      obtain rfl := Option.some.inj htx
      have hmem := List.mem_of_getElem? ht
      have hu : row.payload.userId = v := h.tasks _ hmem row (List.mem_cons_self ..)
      exact Or.inr (Or.inr ⟨_, hmem, hu ▸ List.mem_cons_self ..⟩)
    · cases htx
  · cases htx

/-- **The staging gate holds, when no lock is committed past a check**: no step of the run hands an
event of a locked user to a producer. The run may have any number of messages, users, drains, locks
and failures; the condition is on the commits of locks alone. -/
theorem gated_of_unexposed (hconsumer : s.consumer = .polling) (htasks : s.tasks = [])
    (hnotifications : s.notifications = [])
    (hstaging : ∀ r ∈ s.staging, r.payload.userId = r.userId)
    (hC : Along (step env) Unexposed s labels) : Along (step env) Gated s labels := by
  have hsound : GateSound s := by
    refine ⟨fun u _ hpast => ?_, hstaging, fun t ht => ?_⟩
    · rcases hpast with ⟨tx, hc, -⟩ | hn | ⟨t, ht, -⟩
      · rw [hconsumer] at hc
        cases hc
      · rw [hnotifications] at hn
        cases hn
      · rw [htasks] at ht
        cases ht
    · rw [htasks] at ht
      cases ht
  have hgate : ∀ (s : StagingState) (l : StagingLabel),
      GateSound s → Unexposed s l → Gated s l := by
    intro s l h _ tx htx hlocked
    exact h.unexposed _ hlocked (pastCheck_of_handed h htx)
  exact along_of_along (fun _ _ _ h hC hs => h.step hC hs) hgate hsound hC

/-- An event of a locked user is staged, and drained once the lock is released. -/
theorem gated_of_unexposed_released :
    ∃ s, exec (step sampleNormalizer) (start [sampleMessage]) releasedRun = some s ∧
      s.staging.rows.isEmpty ∧ (s.queue .drain).length = 1 ∧
      Along (step sampleNormalizer) Gated (start [sampleMessage]) releasedRun := by
  have hrun : (exec (step sampleNormalizer) (start [sampleMessage]) releasedRun).map
      (fun s => decide (s.staging.rows.isEmpty ∧ (s.queue .drain).length = 1)) = some true := by
    decide
  have hC : Along (step sampleNormalizer) Unexposed (start [sampleMessage])
      releasedRun := by
    decide
  obtain ⟨s, hs, h⟩ := Option.map_eq_some_iff.mp hrun
  obtain ⟨hempty, hqueue⟩ := of_decide_eq_true h
  exact ⟨s, hs, hempty, hqueue,
    gated_of_unexposed rfl rfl rfl (fun r hr => absurd hr KeyedTable.not_mem_empty) hC⟩

/-- The lock is committed between the consumer's check and its `produce`: the event goes out while
its user is locked, although the service has read that there is no lock. -/
theorem handed_over_while_locked :
    ∃ s tx, exec (step sampleNormalizer) (start [sampleMessage])
        [.poll 0, .consume 1, .consume 1, .commitLock 1] = some s ∧
      tx ∈ s.handed (.consume 1) ∧ tx.userId ∈ s.locks ∧
      (step sampleNormalizer s (.consume 1)).isSome := by
  have hrun : (exec (step sampleNormalizer) (start [sampleMessage])
      [.poll 0, .consume 1, .consume 1, .commitLock 1]).map (fun s =>
        decide ((s.handed (.consume 1)).map (fun tx => decide (tx.userId ∈ s.locks)) = some true ∧
          (step sampleNormalizer s (.consume 1)).isSome)) = some true := by decide
  obtain ⟨s, hs, h⟩ := Option.map_eq_some_iff.mp hrun
  obtain ⟨hhanded, hstep⟩ := of_decide_eq_true h
  obtain ⟨tx, htx, hlocked⟩ := Option.map_eq_some_iff.mp hhanded
  exact ⟨s, tx, hs, htx, of_decide_eq_true hlocked, hstep⟩

end StagingState

end Grosh
