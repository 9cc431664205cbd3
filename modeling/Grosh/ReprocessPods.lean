import Grosh.ReprocessJobs

/-!
# A rebuilding pod and its locks

A pod that rebuilds a user's transactions holds the advisory lock of the user, so there is at
most one (`Cluster.Held`). The lock row it has seen before it waited for that lock may be gone by
then: another pod of the user deletes it before it gives the advisory lock back, and commits the
deletion after.

A pod is modelled by its stage: which of its statements it has executed for the user it works on.
The advisory lock is one of the session, so it is released only by the pod itself or at its end, and
a pod that dies gives back the lock but leaves the lock row.

* `podsSound_of_acquiresListed` — in a run in which every pod that takes the advisory lock of a
  user finds the lock row there, and no release of the user open, the lock row of a user exists as
  long as a pod rebuilds the user.
-/

namespace Grosh

open Transition

namespace Stage

variable {a : PodAction} {stage stage' : Stage}

/-- From the acquisition of the advisory lock to the release transaction. -/
def guarded : Stage → Bool
  | .acquired => true
  | stage => stage.rebuilding

theorem guarded_of_rebuilding (h : stage.rebuilding = true) : stage.guarded = true := by
  cases stage with
  | acquired => rfl
  | _ => exact h

theorem locked_of_guarded (h : stage.guarded = true) : stage.locked = true := by
  cases stage with
  | checked => cases h
  | unlocked hit => cases h
  | _ => rfl

theorem not_deleting_of_guarded (h : stage.guarded = true) : stage.deleting ≠ true := by
  cases stage with
  | unlisted hit => cases h
  | unlocked hit => cases h
  | _ => exact Bool.false_ne_true

/-- A pod at work keeps its advisory lock and deletes no lock row. -/
theorem guarded_of_advance (h : stage.advance a = some stage') :
    stage.guarded = true ∧ stage'.guarded = true ∧ stage'.deleting = false := by
  simp only [advance] at h
  split at h
  · obtain rfl := Option.some.inj h
    exact ⟨rfl, rfl, rfl⟩
  · obtain rfl := Option.some.inj h
    exact ⟨rfl, rfl, rfl⟩
  · obtain rfl := Option.some.inj h
    exact ⟨rfl, rfl, rfl⟩
  · obtain rfl := Option.some.inj h
    exact ⟨rfl, rfl, rfl⟩
  · obtain rfl := Option.some.inj h
    exact ⟨rfl, rfl, rfl⟩
  · cases h

end Stage

namespace Cluster

variable {lockKey : UUID → ℤ} {s s' : Cluster} {l : ClusterLabel} {p q : ℕ} {u : UUID}

/-- The pod works on the user, and has come as far as the stage says. -/
def At (s : Cluster) (p : ℕ) (u : UUID) (stage : Stage) : Prop :=
  ∃ pod, s.pods[p]? = some pod ∧ pod.phase = .busy u stage

/-- The pod is between its snapshot and its release of the user. -/
def Rebuilds (s : Cluster) (p : ℕ) (u : UUID) : Prop :=
  ∃ stage, s.At p u stage ∧ stage.rebuilding = true

/-- A pod holds the advisory lock of the user it works on until it has released it. -/
def Held (lockKey : UUID → ℤ) (s : Cluster) : Prop :=
  ∀ p u stage, s.At p u stage → stage.locked = true → s.advisory.Holds (lockKey u) p

/-- From the acquisition to the release the lock row is there, and nobody deletes it. -/
def Guarded (s : Cluster) : Prop :=
  ∀ p u stage, s.At p u stage → stage.guarded = true → u ∈ s.locks ∧ ¬ s.Deleting u

/-- **A rebuilding pod holds its lock row**, and is the only one that rebuilds the user. -/
structure PodsSound (s : Cluster) : Prop where
  listed : ∀ p u, s.Rebuilds p u → u ∈ s.locks
  exclusive : ∀ p q u, s.Rebuilds p u → s.Rebuilds q u → p = q

/-- The user whose advisory lock a pod takes in the step, if it takes one. -/
def acquiring (s : Cluster) : ClusterLabel → Option UUID
  | .pod p .acquire => (s.pods[p]?).bind fun pod =>
    match pod.phase with
    | .busy u .checked => some u
    | _ => none
  | _ => none

/-- The pod that takes the advisory lock of a user finds the lock row there, and no release of
the user open. -/
def AcquiresListed (s : Cluster) (l : ClusterLabel) : Prop :=
  ∀ u ∈ s.acquiring l, u ∈ s.locks ∧ ¬ s.Deleting u

instance (s : Cluster) (l : ClusterLabel) : Decidable (s.AcquiresListed l) :=
  inferInstanceAs (Decidable (∀ u ∈ s.acquiring l, u ∈ s.locks ∧ ¬ s.Deleting u))

/-! ## Steps

The advisory lock keeps the pods of a user apart, in whatever order they move. That the lock row is
there as well depends on what a pod finds when it gets the lock. -/

theorem Deleting.at (h : s.Deleting u) : ∃ p stage, s.At p u stage ∧ stage.deleting = true := by
  obtain ⟨pod, hmem, h⟩ := h
  obtain ⟨p, hp⟩ := List.mem_iff_getElem?.mp hmem
  split at h
  · next u' stage hphase =>
    obtain ⟨rfl, hdel⟩ := h
    exact ⟨p, stage, ⟨pod, hp, hphase⟩, hdel⟩
  · exact h.elim

theorem At.deleting {stage : Stage} (h : s.At p u stage) (hdel : stage.deleting = true) :
    s.Deleting u := by
  obtain ⟨pod, hp, hphase⟩ := h
  refine ⟨pod, List.mem_of_getElem? hp, ?_⟩
  rw [hphase]
  exact ⟨rfl, hdel⟩

/-- A pod that has just been started is at no user yet. -/
theorem At.of_start {pods : List Pod} {j : ℕ} {todo : List UUID} {stage : Stage}
    (h : At { s with pods := pods ++ [⟨j, todo, .idle⟩] } p u stage) :
    At { s with pods } p u stage := by
  obtain ⟨pod, hp, hphase⟩ := h
  by_cases hlt : p < pods.length
  · exact ⟨pod, (List.getElem?_append_left hlt).symm.trans hp, hphase⟩
  · have hmem := List.mem_of_getElem? ((List.getElem?_append_right (by omega)).symm.trans hp)
    obtain rfl := List.mem_singleton.mp hmem
    cases hphase

/-- Who is at a user after a step: the pod that has moved, or another one, which was there
before. -/
theorem At.of_set {pod' : Pod} {locks : List UUID} {advisory : SessionLocks ℤ ℕ} {stage : Stage}
    (h : At { s with pods := s.pods.set p pod', locks, advisory } q u stage) :
    q = p ∧ pod'.phase = .busy u stage ∨ q ≠ p ∧ s.At q u stage := by
  obtain ⟨pod, hp, hphase⟩ := h
  by_cases hq : q = p
  · subst hq
    simp only [List.getElem?_set, if_true] at hp
    split at hp
    · obtain rfl := Option.some.inj hp
      exact Or.inl ⟨rfl, hphase⟩
    · cases hp
  · exact Or.inr ⟨hq, pod, (List.getElem?_set_ne (Ne.symm hq)).symm.trans hp, hphase⟩

namespace PodMove

variable {pod pod' : Pod} {a : PodAction} {locks : List UUID} {advisory : SessionLocks ℤ ℕ}

/-- No other pod loses an advisory lock by the step. -/
theorem holds_of_ne (h : PodMove lockKey s p pod a pod' locks advisory) (hq : q ≠ p) {k : ℤ}
    (hk : s.advisory.Holds k q) : advisory.Holds k q := by
  cases h with
  | acquire j todo u l hl => exact SessionLocks.Holds.acquire hl hk
  | unlock => exact hk.release_of_ne hq
  | exit => exact hk.endSession_of_ne hq
  | kill => exact hk.endSession_of_ne hq
  | _ => exact hk

/-- A pod that has moved to a place with the advisory lock had it, or has just taken it. -/
theorem holds_self (h : PodMove lockKey s p pod a pod' locks advisory) {stage' : Stage}
    (hphase : pod'.phase = .busy u stage') (hl : stage'.locked = true)
    (hbefore : ∀ stage, pod.phase = .busy u stage → stage.locked = true →
      s.advisory.Holds (lockKey u) p) : advisory.Holds (lockKey u) p := by
  cases h with
  | found =>
    cases hphase
    cases hl
  | acquire j todo u l hacq =>
    cases hphase
    exact SessionLocks.holds_of_acquire hacq
  | advance j todo u a stage stage' hadv =>
    cases hphase
    exact hbefore stage rfl (Stage.locked_of_guarded (Stage.guarded_of_advance hadv).1)
  | deleteLock j todo u =>
    cases hphase
    exact hbefore .finished rfl rfl
  | unlock =>
    cases hphase
    cases hl
  | _ => cases hphase

/-- A deletion that is open after the step was open before, or the pod has just deleted. -/
theorem deleting_self (h : PodMove lockKey s p pod a pod' locks advisory) {stage' : Stage}
    (hphase : pod'.phase = .busy u stage') (hdel : stage'.deleting = true) :
    pod.phase = .busy u .finished ∨ ∃ stage, pod.phase = .busy u stage ∧ stage.deleting = true := by
  cases h with
  | found =>
    cases hphase
    cases hdel
  | acquire =>
    cases hphase
    cases hdel
  | advance j todo u a stage stage' hadv =>
    cases hphase
    rw [(Stage.guarded_of_advance hadv).2.2] at hdel
    cases hdel
  | deleteLock =>
    cases hphase
    exact Or.inl rfl
  | unlock j todo u hit =>
    cases hphase
    exact Or.inr ⟨.unlisted hit, rfl, hdel⟩
  | _ => cases hphase

/-- A pod that guards the lock row after its step did so before, or takes the advisory lock. -/
theorem guarded_self (h : PodMove lockKey s p pod a pod' locks advisory) {stage' : Stage}
    (hphase : pod'.phase = .busy u stage') (hg : stage'.guarded = true) :
    a = .acquire ∧ pod.phase = .busy u .checked ∨
      ∃ stage, pod.phase = .busy u stage ∧ stage.guarded = true := by
  cases h with
  | found =>
    cases hphase
    cases hg
  | acquire =>
    cases hphase
    exact Or.inl ⟨rfl, rfl⟩
  | advance j todo u a stage stage' hadv =>
    cases hphase
    exact Or.inr ⟨stage, rfl, (Stage.guarded_of_advance hadv).1⟩
  | deleteLock =>
    cases hphase
    cases hg
  | unlock =>
    cases hphase
    cases hg
  | _ => cases hphase

/-- Only the commit of a deletion removes a lock row. -/
theorem mem_locks (h : PodMove lockKey s p pod a pod' locks advisory) (hu : u ∈ s.locks) :
    u ∈ locks ∨ ∃ stage, pod.phase = .busy u stage ∧ stage.deleting = true := by
  cases h with
  | commit j todo v hit =>
    cases hit with
    | false => exact Or.inl hu
    | true =>
      by_cases huv : u = v
      · subst huv
        exact Or.inr ⟨_, rfl, rfl⟩
      · exact Or.inl (List.mem_filter.mpr ⟨hu, decide_eq_true huv⟩)
  | _ => exact Or.inl hu

end PodMove

/-- **Nobody works on a user without the advisory lock**, whatever the order of the steps. -/
theorem Held.step (h : Held lockKey s) (hs : s.step lockKey l = some s') : Held lockKey s' := by
  cases step_cases hs with
  | tick => exact h
  | request => exact h
  | endpoint => exact h
  | start => exact fun q u stage hat => h q u stage hat.of_start
  | pod p pod a pod' locks advisory hp hm =>
    intro q u stage hat hl
    obtain ⟨rfl, hphase⟩ | ⟨hq, hat⟩ := hat.of_set
    · exact hm.holds_self hphase hl fun stage hphase => h q u stage ⟨pod, hp, hphase⟩
    · exact hm.holds_of_ne hq (h q u stage hat hl)

/-- Two pods that hold the advisory lock of a user are one. -/
theorem Held.eq (h : Held lockKey s) {stage stage' : Stage} (hp : s.At p u stage)
    (hl : stage.locked = true) (hq : s.At q u stage') (hl' : stage'.locked = true) : p = q :=
  (h p u stage hp hl).eq (h q u stage' hq hl')

/-- A deletion of the lock row is open after the step: it was before, or the pod opens it. -/
theorem deleting_of_pod {pod pod' : Pod} {a : PodAction} {locks : List UUID}
    {advisory : SessionLocks ℤ ℕ} (hp : s.pods[p]? = some pod)
    (hm : PodMove lockKey s p pod a pod' locks advisory)
    (h : Deleting { s with pods := s.pods.set p pod', locks, advisory } u) :
    s.Deleting u ∨ s.At p u .finished ∧
      ∃ stage, pod'.phase = .busy u stage ∧ stage.deleting = true := by
  obtain ⟨q, stage, hat, hdel⟩ := h.at
  obtain ⟨rfl, hphase⟩ | ⟨-, hat⟩ := hat.of_set
  · obtain hpod | ⟨stage₀, hpod, hdel₀⟩ := hm.deleting_self hphase hdel
    · exact Or.inr ⟨⟨pod, hp, hpod⟩, stage, hphase, hdel⟩
    · exact Or.inl (At.deleting ⟨pod, hp, hpod⟩ hdel₀)
  · exact Or.inl (hat.deleting hdel)

/-- **A step** whose acquisition finds the lock row there keeps it there. -/
theorem Guarded.step (h : s.Guarded) (hheld : Held lockKey s) (hC : s.AcquiresListed l)
    (hs : s.step lockKey l = some s') : s'.Guarded := by
  cases step_cases hs with
  | tick => exact h
  | request => exact h
  | endpoint r q a q' jobs users locks hq hm =>
    intro p u stage hat hg
    obtain ⟨hu, hnot⟩ := h p u stage hat hg
    refine ⟨?_, hnot⟩
    cases hm with
    | commit => exact List.mem_append_right _ hu
    | _ => exact hu
  | start j job hj =>
    intro p u stage hat hg
    obtain ⟨hu, hnot⟩ := h p u stage hat.of_start hg
    refine ⟨hu, fun hdel => ?_⟩
    obtain ⟨q, stage', hat', hdel⟩ := hdel.at
    exact hnot (hat'.of_start.deleting hdel)
  | pod p pod a pod' locks advisory hp hm =>
    intro q u stage hat hg
    -- the row was there before the step, and nobody deleted it
    have hbefore : u ∈ s.locks ∧ ¬ s.Deleting u := by
      obtain ⟨rfl, hphase⟩ | ⟨-, hat⟩ := hat.of_set
      · obtain ⟨rfl, hpod⟩ | ⟨stage₀, hpod, hg₀⟩ := hm.guarded_self hphase hg
        · apply hC u
          simp only [acquiring, hp, Option.bind_some, hpod, Option.mem_def]
        · exact h q u stage₀ ⟨pod, hp, hpod⟩ hg₀
      · exact h q u stage hat hg
    obtain ⟨hu, hnot⟩ := hbefore
    refine ⟨?_, fun hdel => ?_⟩
    · obtain hu | ⟨stage₀, hpod, hdel⟩ := hm.mem_locks hu
      · exact hu
      · exact absurd (At.deleting ⟨pod, hp, hpod⟩ hdel) hnot
    · obtain hdel | ⟨hfin, stage₁, hphase₁, hdel⟩ := deleting_of_pod hp hm hdel
      · exact hnot hdel
      obtain ⟨rfl, hphase⟩ | ⟨hq, hat⟩ := hat.of_set
      · obtain rfl := (PodPhase.busy.inj (hphase.symm.trans hphase₁)).2
        exact Stage.not_deleting_of_guarded hg hdel
      · -- the pod that deletes the row holds the advisory lock
        exact hq (hheld.eq hat (Stage.locked_of_guarded hg) hfin rfl)

/-- No pod runs yet, and no advisory lock is held. -/
structure NoPods (s : Cluster) : Prop where
  pods : s.pods = []
  advisory : s.advisory = SessionLocks.free

theorem NoPods.not_at {stage : Stage} (h : s.NoPods) : ¬ s.At p u stage := by
  rintro ⟨pod, hp, -⟩
  rw [h.pods] at hp
  cases hp

theorem PodsSound.of_guarded (hheld : Held lockKey s) (h : s.Guarded) : s.PodsSound := by
  refine ⟨fun p u ⟨stage, hat, hr⟩ => (h p u stage hat (Stage.guarded_of_rebuilding hr)).1, ?_⟩
  rintro p q u ⟨stage, hp, hr⟩ ⟨stage', hq, hr'⟩
  exact hheld.eq hp (Stage.locked_of_guarded (Stage.guarded_of_rebuilding hr)) hq
    (Stage.locked_of_guarded (Stage.guarded_of_rebuilding hr'))

/-- **A rebuilding pod holds its lock row**: whatever the tables, the requests and the jobs are,
and however many pods are started for whichever job, if every pod that takes the advisory lock of
a user finds the lock row there, and no release of the user open, then in every state of the run
the lock row of a user exists as long as a pod rebuilds the user, and only one pod does. -/
theorem podsSound_of_acquiresListed (lockKey : UUID → ℤ) (start : Cluster) (hstart : start.NoPods)
    (labels : List ClusterLabel) (h : Along (step lockKey) AcquiresListed start labels) :
    Always (step lockKey) PodsSound start labels := by
  refine always_of_along (I := fun s => Held lockKey s ∧ s.Guarded) ?_ ?_ ?_ h
  · exact fun s l s' hI hC hs => ⟨hI.1.step hs, hI.2.step hI.1 hC hs⟩
  · exact fun s hI => .of_guarded hI.1 hI.2
  · exact ⟨fun p u stage hat => absurd hat hstart.not_at,
      fun p u stage hat => absurd hat hstart.not_at⟩

/-- One user, who triggers a reprocess; the job is created and the request commits. -/
def sampleTriggered : List ClusterLabel :=
  [.request (.user 1 1), .endpoint 0 .claim, .endpoint 0 .insert, .endpoint 0 (.submit .created),
    .endpoint 0 .commit]

/-- A pod that has seen the lock row takes the advisory lock, rebuilds the user and releases both
locks. -/
def sampleRebuild (p : ℕ) : List ClusterLabel :=
  [.pod p .acquire, .pod p .snapshot, .pod p .delete, .pod p .verify, .pod p .deleteLock,
    .pod p .unlock, .pod p .commit]

/-- A member without a lock row, before any request. -/
def sampleCluster : Cluster where
  now := 0
  users := KeyedTable.empty.insertIgnore ⟨1, .member, none⟩
  locks := []
  requests := []
  jobs := []
  pods := []
  advisory := SessionLocks.free

/-- The user triggers another reprocess an hour later. -/
def sampleTriggeredAgain : List ClusterLabel :=
  [.tick (reprocessWindow + 1), .request (.user 1 1), .endpoint 1 .claim, .endpoint 1 .insert,
    .endpoint 1 (.submit .created), .endpoint 1 .commit]

/-- Two triggers, and a pod for each of the two jobs. Each finds the lock row of its own trigger. -/
theorem podsSound_of_acquiresListed_two_pods : Always (step fun u => u) PodsSound sampleCluster
    (sampleTriggered ++ [.start 0, .pod 0 .check] ++ sampleRebuild 0 ++ sampleTriggeredAgain ++
      [.start 1, .pod 1 .check] ++ sampleRebuild 1) :=
  podsSound_of_acquiresListed _ sampleCluster ⟨rfl, rfl⟩ _ (by decide +kernel)

/-- Two pods of one job see the lock row; the second waits for the advisory lock, and rebuilds the
user after the first has deleted the row. -/
theorem rebuilds_without_lock_row : ∃ labels s,
    exec (step fun u => u) sampleCluster labels = some s ∧ s.Rebuilds 1 1 ∧ 1 ∉ s.locks ∧
      ¬ s.PodsSound := by
  have hrun : (exec (step fun u => u) sampleCluster (sampleTriggered ++
      [.start 0, .start 0, .pod 0 .check, .pod 1 .check] ++ sampleRebuild 0 ++
      [.pod 1 .acquire, .pod 1 .snapshot])).map (fun s => decide (1 ∉ s.locks ∧
        ∃ pod ∈ s.pods[1]?, pod.phase = .busy 1 .snapshotted)) = some true := by
    decide +kernel
  obtain ⟨s, he, h⟩ := Option.map_eq_some_iff.mp hrun
  obtain ⟨hgone, pod, hp, hphase⟩ := of_decide_eq_true h
  have hr : s.Rebuilds 1 1 := ⟨.snapshotted, ⟨pod, hp, hphase⟩, rfl⟩
  exact ⟨_, s, he, hr, hgone, fun hsound => hgone (hsound.listed 1 1 hr)⟩

end Cluster

end Grosh
