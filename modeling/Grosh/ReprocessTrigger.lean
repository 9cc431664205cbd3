import Grosh.ReprocessPods

/-!
# Orphan lock rows

The job of a trigger is visible to the cluster before the transaction with the lock row commits.
A pod that looks for the row in between finds none and leaves the user out; the request then
commits a row that no pod will delete.

What is kept along the run is that every lock row is owned: by a job whose pods are still to start,
or by a pod that will come to its user or is at work on it. A crash or a failed call can leave a
lock row behind for reasons of its own, and such runs are left out.

* `noOrphanLock_of_checksCommitted` — in a run without crashes and failed calls in which every pod
  looks for lock rows only after the request of its job has committed, no lock row outlives the
  jobs of its user.
-/

namespace Grosh

open Transition

/-- The release of the lock row is still to come, or open: a deletion that has found the row is not
committed yet. -/
def Stage.ahead : Stage → Bool
  | .unlisted hit | .unlocked hit => hit
  | _ => true

/-- The pod has the user before it: in its list, or in work with the lock row still to be
deleted. -/
def Pod.Ahead (pod : Pod) (u : UUID) : Prop :=
  match pod.phase with
  | .idle => u ∈ pod.todo
  | .busy v stage => u ∈ pod.todo ∨ v = u ∧ stage.ahead = true
  | .exited => False

theorem Stage.ahead_of_guarded {stage : Stage} (h : stage.guarded = true) : stage.ahead = true := by
  cases stage with
  | unlisted hit => cases h
  | unlocked hit => cases h
  | _ => rfl

namespace Cluster

variable {lockKey : UUID → ℤ} {s s' : Cluster} {l : ClusterLabel} {p r j : ℕ} {u : UUID}

/-- The job has run: it has had pods, and all have exited. A job that has not been started is not
over. -/
def Terminated (s : Cluster) (j : ℕ) : Prop :=
  (∃ pod ∈ s.pods, pod.job = j) ∧ ∀ pod ∈ s.pods, pod.job = j → pod.phase = .exited

instance (s : Cluster) (j : ℕ) : Decidable (s.Terminated j) :=
  inferInstanceAs (Decidable (_ ∧ _))

/-- A committed lock row of a user whose jobs have all terminated: nobody is left to delete it. -/
def OrphanLock (s : Cluster) (u : UUID) : Prop :=
  u ∈ s.locks ∧ ∀ j job, s.jobs[j]? = some job → u ∈ job.userIds → s.Terminated j

/-- No crash and no failed call: neither of a pod nor of the call that creates the job. -/
def crashFree : ClusterLabel → Bool
  | .pod _ .raise | .pod _ .kill => false
  | .endpoint _ (.submit .rejected) | .endpoint _ (.submit .timedOut) => false
  | _ => true

/-- The request has ended: its transaction is committed or rolled back. -/
def RequestEnded (s : Cluster) (r : ℕ) : Prop := ∃ q ∈ s.requests[r]?, q.Ended

/-- The pod that looks for a lock row next. -/
def checking (s : Cluster) : ClusterLabel → Option Pod
  | .pod p .check => s.pods[p]?
  | _ => none

/-- A pod looks for a lock row after the request of its job has ended. A pod that is not looking
meets the condition. -/
def ChecksCommitted (s : Cluster) (l : ClusterLabel) : Prop :=
  ∀ pod ∈ s.checking l, ∀ job ∈ s.jobs[pod.job]?, s.RequestEnded job.request

instance (s : Cluster) (r : ℕ) : Decidable (s.RequestEnded r) :=
  inferInstanceAs (Decidable (∃ q ∈ s.requests[r]?, q.Ended))

instance (s : Cluster) (l : ClusterLabel) : Decidable (s.ChecksCommitted l) :=
  inferInstanceAs (Decidable
    (∀ pod ∈ s.checking l, ∀ job ∈ s.jobs[pod.job]?, s.RequestEnded job.request))

/-! ## Steps of a pod

What a pod has before it, it keeps until it has deleted the lock row, or has found none. -/

namespace PodMove

variable {pod pod' : Pod} {a : PodAction} {locks : List UUID} {advisory : SessionLocks ℤ ℕ}

theorem job_eq (h : PodMove lockKey s p pod a pod' locks advisory) : pod'.job = pod.job := by
  cases h with
  | _ => rfl

theorem locks_subset (h : PodMove lockKey s p pod a pod' locks advisory) : locks ⊆ s.locks := by
  cases h with
  | commit j todo v hit =>
    cases hit with
    | false => exact fun _ hu => hu
    | true => exact fun _ hu => (List.mem_filter.mp hu).1
  | _ => exact fun _ hu => hu

/-- A user with a lock row stays before the pod until the row is deleted. -/
theorem ahead (h : PodMove lockKey s p pod a pod' locks advisory) (ha : crashFree (.pod p a) = true)
    (hpod : pod.Ahead u) (hu : u ∈ locks) : pod'.Ahead u := by
  cases h with
  | found j v rest hv =>
    obtain rfl | hrest := List.mem_cons.mp hpod
    · exact Or.inr ⟨rfl, rfl⟩
    · exact Or.inl hrest
  | absent j v rest hv =>
    obtain rfl | hrest := List.mem_cons.mp hpod
    · exact absurd hu hv
    · exact hrest
  | unchecked => cases ha
  | acquire => exact hpod
  | advance j todo v a stage stage' hadv =>
    exact hpod.imp_right fun h =>
      ⟨h.1, Stage.ahead_of_guarded (Stage.guarded_of_advance hadv).2.1⟩
  | deleteLock j todo v hnot =>
    refine hpod.imp_right fun h => ⟨h.1, ?_⟩
    obtain rfl := h.1
    exact decide_eq_true hu
  | unlock => exact hpod
  | commit j todo v hit =>
    obtain htodo | ⟨rfl, hhit⟩ := hpod
    · exact htodo
    · obtain rfl : hit = true := hhit
      exact absurd rfl (of_decide_eq_true (List.mem_filter.mp hu).2)
  | raise => cases ha
  | exit => cases hpod
  | kill => cases ha

end PodMove

/-! ## Every lock row has a job that will delete it

The invariant: each lock row has a pod that will come to it, or a job whose pods are still to come.
It also looks at the rows that are about to be committed, since a pod must not pass before. -/

/-- Every lock row has a job that will delete it, also a row that is about to be committed. -/
structure LocksOwned (s : Cluster) : Prop where
  jobs : ∀ pod ∈ s.pods, ∃ job, s.jobs[pod.job]? = some job
  /-- a request that commits lock rows has submitted their job -/
  submitted : ∀ r (q : Request) response, s.requests[r]? = some q → q.phase = .commit response →
    q.targets = [] ∨ ∃ j : ℕ, s.jobs[j]? = some (Job.mk r q.targets)
  /-- until then the pods of the job have not started with it -/
  waiting : ∀ pod ∈ s.pods, ∀ job, s.jobs[pod.job]? = some job → ¬ s.RequestEnded job.request →
    ∀ u ∈ job.userIds, pod.phase = .idle ∧ u ∈ pod.todo
  listed : ∀ u ∈ s.locks, ∃ j job, s.jobs[j]? = some job ∧ u ∈ job.userIds ∧
    ((∀ pod ∈ s.pods, pod.job ≠ j) ∨ ∃ pod ∈ s.pods, pod.job = j ∧ pod.Ahead u)

theorem LocksOwned.not_orphanLock (h : s.LocksOwned) : ¬ s.OrphanLock u := by
  rintro ⟨hu, hall⟩
  obtain ⟨j, job, hj, huj, hno | ⟨pod, hpod, hjob, hahead⟩⟩ := h.listed u hu
  · obtain ⟨⟨pod, hpod, hjob⟩, -⟩ := hall j job hj huj
    exact hno pod hpod hjob
  · obtain ⟨-, hexit⟩ := hall j job hj huj
    rw [Pod.Ahead, hexit pod hpod hjob] at hahead
    exact hahead

theorem RequestMove.not_ended {q q' : Request} {a : RequestAction} {jobs : List Job}
    {users : KeyedTable ReprocessUser.id} {locks : List UUID}
    (h : RequestMove s r q a q' jobs users locks) : ¬ q.Ended := by
  cases h with
  | quiet _ _ hq => exact hq
  | created hq => exact Request.not_ended hq rfl
  | timedOut hq => exact Request.not_ended hq rfl
  | commit response hq => exact Request.not_ended hq rfl

/-- No job is lost: a request only adds to them. -/
theorem RequestMove.jobs_kept {q q' : Request} {a : RequestAction} {jobs : List Job}
    {users : KeyedTable ReprocessUser.id} {locks : List UUID}
    (h : RequestMove s r q a q' jobs users locks) {job : Job} (hj : s.jobs[j]? = some job) :
    jobs[j]? = some job := by
  have hlt := (List.getElem?_eq_some_iff.mp hj).1
  cases h with
  | quiet => exact hj
  | created => exact (List.getElem?_append_left hlt).trans hj
  | timedOut => exact (List.getElem?_append_left hlt).trans hj
  | commit => exact hj

/-- A request that has ended stays as it is, whichever request moves. -/
theorem RequestEnded.endpoint {q q' : Request} {a : RequestAction} {jobs : List Job}
    {users : KeyedTable ReprocessUser.id} {locks : List UUID} (hq : s.requests[r]? = some q)
    (hm : RequestMove s r q a q' jobs users locks) {r' : ℕ} (h : s.RequestEnded r') :
    RequestEnded { s with requests := s.requests.set r q', jobs, users, locks } r' := by
  obtain ⟨q₀, hq₀, hend⟩ := h
  by_cases hr : r' = r
  · subst hr
    obtain rfl := Option.some.inj (hq.symm.trans hq₀)
    exact absurd hend hm.not_ended
  · exact ⟨q₀, (List.getElem?_set_ne (Ne.symm hr)).trans hq₀, hend⟩

/-- **A pod's step** leaves every lock row with a job: it passes over a user only if there is no
row, and none will come. -/
theorem LocksOwned.pod (h : s.LocksOwned) {pod pod' : Pod} {a : PodAction} {locks : List UUID}
    {advisory : SessionLocks ℤ ℕ} (hp : s.pods[p]? = some pod)
    (hm : PodMove lockKey s p pod a pod' locks advisory) (ha : crashFree (.pod p a) = true)
    (hC : s.ChecksCommitted (.pod p a)) :
    LocksOwned { s with pods := s.pods.set p pod', locks, advisory } := by
  have hmem : ∀ pod₁ ∈ s.pods.set p pod', pod₁ ∈ s.pods ∨ pod₁ = pod' := fun pod₁ h₁ =>
    List.mem_or_eq_of_mem_set h₁
  refine ⟨fun pod₁ h₁ => ?_, h.submitted, fun pod₁ h₁ job hjob hend u hu => ?_, fun u hu => ?_⟩
  · obtain h₁ | rfl := hmem pod₁ h₁
    · exact h.jobs pod₁ h₁
    · rw [hm.job_eq]
      exact h.jobs pod (List.mem_of_getElem? hp)
  · obtain h₁ | rfl := hmem pod₁ h₁
    · exact h.waiting pod₁ h₁ job hjob hend u hu
    · rw [hm.job_eq] at hjob
      obtain ⟨hidle, htodo⟩ := h.waiting pod (List.mem_of_getElem? hp) job hjob hend u hu
      -- a pod that waits for the request of its job only checks, and then the request has ended
      cases hm with
      | found => exact absurd (hC _ hp job hjob) hend
      | absent => exact absurd (hC _ hp job hjob) hend
      | unchecked => cases ha
      | exit => cases htodo
      | kill => cases ha
      | _ => cases hidle
  · obtain ⟨j, job, hj, huj, hpods⟩ := h.listed u (hm.locks_subset hu)
    refine ⟨j, job, hj, huj, ?_⟩
    have hset : pod' ∈ s.pods.set p pod' :=
      List.mem_set (List.getElem?_eq_some_iff.mp hp).1 pod'
    obtain hno | ⟨pod₁, h₁, hjob, hahead⟩ := hpods
    · apply Or.inl
      intro pod₁ h₁
      obtain h₁ | rfl := hmem pod₁ h₁
      · exact hno pod₁ h₁
      · rw [hm.job_eq]
        exact hno pod (List.mem_of_getElem? hp)
    · obtain ⟨p₁, hp₁⟩ := List.mem_iff_getElem?.mp h₁
      by_cases hpp : p₁ = p
      · subst hpp
        obtain rfl := Option.some.inj (hp.symm.trans hp₁)
        exact Or.inr ⟨pod', hset, hm.job_eq.trans hjob, hm.ahead ha hahead hu⟩
      · refine Or.inr ⟨pod₁, ?_, hjob, hahead⟩
        exact List.mem_of_getElem? ((List.getElem?_set_ne (Ne.symm hpp)).trans hp₁)

/-- **A new pod** has all users of its job before it. -/
theorem LocksOwned.start (h : s.LocksOwned) {job : Job} (hj : s.jobs[j]? = some job) :
    LocksOwned { s with pods := s.pods ++ [⟨j, job.userIds, .idle⟩] } := by
  have hmem : ∀ pod ∈ s.pods ++ [⟨j, job.userIds, .idle⟩],
      pod ∈ s.pods ∨ pod = ⟨j, job.userIds, .idle⟩ := fun pod hpod =>
    (List.mem_append.mp hpod).imp_right List.mem_singleton.mp
  have hlast : ⟨j, job.userIds, .idle⟩ ∈ s.pods ++ [(⟨j, job.userIds, .idle⟩ : Pod)] :=
    List.mem_append_right _ (List.mem_singleton.mpr rfl)
  refine ⟨fun pod hpod => ?_, h.submitted, fun pod hpod job' hjob hend u hu => ?_, fun u hu => ?_⟩
  · obtain hpod | rfl := hmem pod hpod
    · exact h.jobs pod hpod
    · exact ⟨job, hj⟩
  · obtain hpod | rfl := hmem pod hpod
    · exact h.waiting pod hpod job' hjob hend u hu
    · obtain rfl := Option.some.inj (hj.symm.trans hjob)
      exact ⟨rfl, hu⟩
  · obtain ⟨j', job', hj', huj, hpods⟩ := h.listed u hu
    refine ⟨j', job', hj', huj, ?_⟩
    obtain hno | ⟨pod, hpod, hjob, hahead⟩ := hpods
    · by_cases hjj : j = j'
      · subst hjj
        obtain rfl := Option.some.inj (hj.symm.trans hj')
        exact Or.inr ⟨_, hlast, rfl, huj⟩
      · apply Or.inl
        intro pod hpod
        obtain hpod | rfl := hmem pod hpod
        · exact hno pod hpod
        · exact hjj
    · exact Or.inr ⟨pod, List.mem_append_left _ hpod, hjob, hahead⟩

/-- **A request's step**: the lock rows it commits are those of the job it has submitted. -/
theorem LocksOwned.endpoint (h : s.LocksOwned) {q q' : Request} {a : RequestAction}
    {jobs : List Job} {users : KeyedTable ReprocessUser.id} {locks : List UUID}
    (hq : s.requests[r]? = some q) (hm : RequestMove s r q a q' jobs users locks)
    (ha : crashFree (.endpoint r a) = true) :
    LocksOwned { s with requests := s.requests.set r q', jobs, users, locks } := by
  have hjob : ∀ pod ∈ s.pods, ∀ job, jobs[pod.job]? = some job → s.jobs[pod.job]? = some job := by
    intro pod hpod job hjob
    obtain ⟨job', hj⟩ := h.jobs pod hpod
    exact hj.trans ((hm.jobs_kept hj).symm.trans hjob)
  refine ⟨fun pod hpod => ?_, fun r₁ q₁ response hq₁ hphase => ?_,
    fun pod hpod job hj hend => ?_, fun u hu => ?_⟩
  · obtain ⟨job, hj⟩ := h.jobs pod hpod
    exact ⟨job, hm.jobs_kept hj⟩
  · by_cases hr : r₁ = r
    · subst hr
      obtain rfl : q' = q₁ := by
        rw [List.getElem?_set_self (List.getElem?_eq_some_iff.mp hq).1] at hq₁
        exact Option.some.inj hq₁
      cases hm with
      | quiet _ _ _ htargets => exact Or.inl (htargets response hphase)
      | created => exact Or.inr ⟨s.jobs.length, List.getElem?_concat_length⟩
      | timedOut => cases hphase
      | commit => cases hphase
    · obtain htargets | ⟨j, hj⟩ := h.submitted r₁ q₁ response
        ((List.getElem?_set_ne (Ne.symm hr)).symm.trans hq₁) hphase
      · exact Or.inl htargets
      · exact Or.inr ⟨j, hm.jobs_kept hj⟩
  · exact h.waiting pod hpod job (hjob pod hpod job hj) fun hended => hend (hended.endpoint hq hm)
  · have hold : u ∈ s.locks → ∃ j job, jobs[j]? = some job ∧ u ∈ job.userIds ∧
        ((∀ pod ∈ s.pods, pod.job ≠ j) ∨ ∃ pod ∈ s.pods, pod.job = j ∧ pod.Ahead u) := by
      intro hu
      obtain ⟨j, job, hj, huj, hpods⟩ := h.listed u hu
      exact ⟨j, job, hm.jobs_kept hj, huj, hpods⟩
    cases hm with
    | quiet => exact hold hu
    | created => exact hold hu
    | timedOut => cases ha
    | commit response hphase =>
      obtain hu | hu := List.mem_append.mp hu
      swap
      · exact hold hu
      obtain htargets | ⟨j, hj⟩ := h.submitted r q response hq hphase
      · rw [htargets] at hu
        cases hu
      refine ⟨j, _, hj, hu, ?_⟩
      by_cases hpods : ∃ pod ∈ s.pods, pod.job = j
      swap
      · exact Or.inl fun pod hpod hjob => hpods ⟨pod, hpod, hjob⟩
      obtain ⟨pod, hpod, rfl⟩ := hpods
      -- the request has not ended before, so the pod has not looked at the user
      have hopen : ¬ s.RequestEnded r := by
        rintro ⟨q₀, hq₀, hended⟩
        obtain rfl := Option.some.inj (hq.symm.trans hq₀)
        exact Request.not_ended hphase rfl hended
      obtain ⟨hidle, htodo⟩ := h.waiting pod hpod _ hj hopen u hu
      refine Or.inr ⟨pod, hpod, rfl, ?_⟩
      rw [Pod.Ahead, hidle]
      exact htodo

/-- **A new request** has written nothing yet. -/
theorem LocksOwned.request (h : s.LocksOwned) (t : Trigger) :
    LocksOwned { s with requests := s.requests ++ [openRequest s.users s.now t] } := by
  refine ⟨h.jobs, fun r q response hq hphase => ?_, fun pod hpod job hj hend => ?_, h.listed⟩
  · by_cases hlt : r < s.requests.length
    · exact h.submitted r q response ((List.getElem?_append_left hlt).symm.trans hq) hphase
    · have hmem := List.mem_of_getElem? ((List.getElem?_append_right (by omega)).symm.trans hq)
      obtain rfl := List.mem_singleton.mp hmem
      exact Or.inl (Request.targets_of_openRequest hphase)
  · refine h.waiting pod hpod job hj fun ⟨q, hq, hended⟩ => hend ⟨q, ?_, hended⟩
    exact (List.getElem?_append_left (List.getElem?_eq_some_iff.mp hq).1).trans hq

/-- **A step** without a crash, in which a pod looks for a lock row only after the request of its
job has ended. -/
theorem LocksOwned.step (h : s.LocksOwned) (ha : crashFree l = true) (hC : s.ChecksCommitted l)
    (hs : s.step lockKey l = some s') : s'.LocksOwned := by
  cases step_cases hs with
  | tick => exact ⟨h.jobs, h.submitted, h.waiting, h.listed⟩
  | request t => exact h.request t
  | endpoint r q a q' jobs users locks hq hm => exact h.endpoint hq hm ha
  | start j job hj => exact h.start hj
  | pod p pod a pod' locks advisory hp hm => exact h.pod hp hm ha hC

/-- No request has come yet, and no lock row is left. -/
structure Quiet (s : Cluster) : Prop where
  locks : s.locks = []
  requests : s.requests = []
  pods : s.pods = []

theorem Quiet.locksOwned (h : s.Quiet) : s.LocksOwned := by
  refine ⟨fun pod hpod => ?_, fun r q response hq => ?_, fun pod hpod => ?_, fun u hu => ?_⟩
  · rw [h.pods] at hpod
    cases hpod
  · rw [h.requests] at hq
    cases hq
  · rw [h.pods] at hpod
    cases hpod
  · rw [h.locks] at hu
    cases hu

/-- **No lock row outlives the jobs of its user**: in a run without crashes and failed calls, of
any number of requests of both kinds and of pods that start at any time after the submission, in
which every pod looks for lock rows only after the request of its job has committed, there is in no
state a committed lock row of a user all of whose jobs have terminated. -/
theorem noOrphanLock_of_checksCommitted (lockKey : UUID → ℤ) (start : Cluster)
    (hstart : start.Quiet) (labels : List ClusterLabel)
    (h : Along (step lockKey) (fun s l => crashFree l = true ∧ s.ChecksCommitted l) start labels) :
    Always (step lockKey) (fun s => ∀ u, ¬ s.OrphanLock u) start labels :=
  always_of_along (fun _ _ _ hI hC hs => hI.step hC.1 hC.2 hs)
    (fun _ hI _ => hI.not_orphanLock) hstart.locksOwned h

/-- The pod starts after the request has committed. -/
theorem noOrphanLock_of_checksCommitted_one_pod :
    Always (step fun u => u) (fun s => ∀ u, ¬ s.OrphanLock u) sampleCluster
      (sampleTriggered ++ [.start 0, .pod 0 .check] ++ sampleRebuild 0 ++ [.pod 0 .exit]) :=
  noOrphanLock_of_checksCommitted _ sampleCluster ⟨rfl, rfl, rfl⟩ _ (by decide +kernel)

/-- The pod looks for the lock row and exits before the request commits it. -/
theorem lock_row_orphaned : ∃ labels s,
    exec (step fun u => u) sampleCluster labels = some s ∧ (∀ l ∈ labels, crashFree l = true) ∧
      s.OrphanLock 1 := by
  have hrun : (exec (step fun u => u) sampleCluster [.request (.user 1 1), .endpoint 0 .claim,
      .endpoint 0 .insert, .endpoint 0 (.submit .created), .start 0, .pod 0 .check, .pod 0 .exit,
      .endpoint 0 .commit]).map (fun s => decide (1 ∈ s.locks ∧ s.jobs.length = 1 ∧
        s.Terminated 0)) = some true := by
    decide +kernel
  obtain ⟨s, he, h⟩ := Option.map_eq_some_iff.mp hrun
  obtain ⟨hlock, hone, hterm⟩ := of_decide_eq_true h
  refine ⟨_, s, he, by decide, hlock, fun j job hj _ => ?_⟩
  have hj0 : j = 0 := by
    have hlt := (List.getElem?_eq_some_iff.mp hj).1
    omega
  exact hj0 ▸ hterm

end Cluster

end Grosh
