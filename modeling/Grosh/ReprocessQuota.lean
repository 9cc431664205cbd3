import Grosh.ReprocessJobs

/-!
# The hourly slot of a reprocess

A trigger claims the hourly slot of a user before it inserts the lock row. A request for one user
that finds the row is rolled back, slot and all; a bulk request skips the user and commits what it
has claimed, also where it submits no job at all.

The request is looked at alone, from its opening to its end: what others do meanwhile is another
matter. All that is kept of its way is the list of users it has claimed, with those it has inserted
a lock row for, so that the end can be read off the list as it was at the start.

* `slots_kept_iff` — a request consumes the slots of the users of its job alone, exactly if it is
  for one user, or claims the slot of no user with a lock row, or is rolled back.
-/

namespace Grosh

open Transition

/-- The users a request has still to go through, with the one it is at. -/
def RequestPhase.todo : RequestPhase → List UUID
  | .claim userId rest => userId :: rest
  | .insert userId rest => userId :: rest
  | _ => []

/-- The job is created, and the request is told so. -/
def SubmitOutcome.accepted : SubmitOutcome → Bool
  | .created => true
  | _ => false

/-- A per-user trigger, and not a bulk one. -/
def Trigger.isUser : Trigger → Bool
  | .user _ _ => true
  | .bulk _ _ _ => false

theorem todo_next (q : Request) (list : List UUID) : (q.next list).phase.todo = list := by
  cases list with
  | cons u rest => rfl
  | nil =>
    simp only [Request.next]
    split
    · rfl
    · rfl

/-- A request that has just been opened has claimed nothing yet. -/
theorem openRequest_fields (users : KeyedTable ReprocessUser.id) (now : Timestamp)
    (trigger : Trigger) :
    (openRequest users now trigger).trigger = trigger ∧
      (openRequest users now trigger).startedAt = now ∧
      (openRequest users now trigger).claimed = [] := by
  have hnext : ∀ (q : Request) (rest : List UUID), (q.next rest).trigger = q.trigger ∧
      (q.next rest).startedAt = q.startedAt ∧ (q.next rest).claimed = q.claimed := by
    intro q rest
    cases rest with
    | nil => exact ⟨rfl, rfl, rfl⟩
    | cons u rest => exact ⟨rfl, rfl, rfl⟩
  simp only [openRequest]
  split
  · split
    · exact ⟨rfl, rfl, rfl⟩
    · exact ⟨rfl, rfl, rfl⟩
  · split
    · exact hnext _ _
    · exact ⟨rfl, rfl, rfl⟩

namespace Cluster

/-! ## What is promised, and when it is kept

Everything is said about the state in which the request is opened, since the request runs alone:
which users it goes through, whose slots it claims, and who has a lock row. -/

/-- The users the new request goes through: none, where the caller may not. -/
def targetList (s : Cluster) (trigger : Trigger) : List UUID :=
  (openRequest s.users s.now trigger).phase.todo

/-- The new request claims the slot of the user: there is such a user, and the request is forced or
the last claim is more than an hour ago. -/
def Claims (s : Cluster) (trigger : Trigger) (u : UUID) : Prop :=
  (s.users.find? u).any (openRequest s.users s.now trigger).mayClaim = true

instance (s : Cluster) (trigger : Trigger) (u : UUID) : Decidable (s.Claims trigger u) :=
  inferInstanceAs (Decidable (_ = true))

/-- `users.last_reprocess_started_at`, where there is such a user. -/
def slot (s : Cluster) (u : UUID) : Option (Option Timestamp) :=
  (s.users.find? u).map ReprocessUser.lastReprocessStartedAt

/-- The slot has changed only for users of a job that was submitted since. -/
def SlotsKept (s s' : Cluster) : Prop :=
  ∀ u, s'.slot u ≠ s.slot u → ∃ job ∈ s'.jobs.drop s.jobs.length, u ∈ job.userIds

/-- No user with a lock row has a slot that the request would change. -/
def ClaimsUnlocked (s : Cluster) (trigger : Trigger) : Prop :=
  ∀ u ∈ s.targetList trigger, s.Claims trigger u → s.slot u ≠ some (some s.now) → u ∉ s.locks

instance (s : Cluster) (trigger : Trigger) : Decidable (s.ClaimsUnlocked trigger) :=
  inferInstanceAs (Decidable (∀ u ∈ s.targetList trigger, _))

/-- The request gets to the submission of a job: there is a user whose slot it claims and who has no
lock row. -/
def Submits (s : Cluster) (trigger : Trigger) : Prop :=
  ∃ u ∈ s.targetList trigger, s.Claims trigger u ∧ u ∉ s.locks

/-- The trigger is for one user, or claims the slot of no user with a lock row, or is rolled back
because the submission fails. -/
def SlotsFit (s : Cluster) (trigger : Trigger) (outcome : SubmitOutcome) : Prop :=
  trigger.isUser = true ∨ s.ClaimsUnlocked trigger ∨
    outcome.accepted = false ∧ s.Submits trigger

/-! ## Where the request is

What the request has done so far is given by the list of its users: those it is done with, the one
it is at, and the rest. -/

/-- What the request has claimed and inserted, after claims for the users `asked` and inserts for
the users `done`. -/
structure Progress (s : Cluster) (trigger : Trigger) (asked done : List UUID) (q : Request) :
    Prop where
  sameTrigger : q.trigger = trigger
  sameStart : q.startedAt = s.now
  claimed : ∀ u, u ∈ q.claimed ↔ u ∈ asked ∧ s.Claims trigger u
  targets : ∀ u, u ∈ q.targets ↔ u ∈ done ∧ s.Claims trigger u ∧ u ∉ s.locks

/-- A per-user request has found no lock row so far; it would have been rolled back. -/
def Unlocked (s : Cluster) (trigger : Trigger) (done : List UUID) : Prop :=
  trigger.isUser = true → ∀ u ∈ done, u ∉ s.locks

/-- Where the request is, before its transaction ends. -/
inductive Underway (s : Cluster) (trigger : Trigger) (outcome : SubmitOutcome) (r : ℕ)
    (jobs : List Job) (q : Request) : Prop where
  | claim (done : List UUID) (u : UUID) (rest : List UUID) (hq : q.phase = .claim u rest)
      (hlist : s.targetList trigger = done ++ u :: rest) (h : Progress s trigger done done q)
      (hunlocked : s.Unlocked trigger done) (hjobs : jobs = s.jobs)
  | insert (done : List UUID) (u : UUID) (rest : List UUID) (hq : q.phase = .insert u rest)
      (hlist : s.targetList trigger = done ++ u :: rest) (hu : s.Claims trigger u)
      (h : Progress s trigger (done ++ [u]) done q) (hunlocked : s.Unlocked trigger done)
      (hjobs : jobs = s.jobs)
  | findJob (u : UUID) (hq : q.phase = .findJob u) (huser : trigger.isUser = true)
      (hjobs : jobs = s.jobs)
  | submit (hq : q.phase = .submit) (hne : q.targets ≠ [])
      (h : Progress s trigger (s.targetList trigger) (s.targetList trigger) q)
      (hunlocked : s.Unlocked trigger (s.targetList trigger)) (hjobs : jobs = s.jobs)
  | nothing (response : TriggerResponse) (hq : q.phase = .commit response) (hnil : q.targets = [])
      (h : Progress s trigger (s.targetList trigger) (s.targetList trigger) q)
      (hunlocked : s.Unlocked trigger (s.targetList trigger)) (hjobs : jobs = s.jobs)
  | created (response : TriggerResponse) (hq : q.phase = .commit response)
      (h : Progress s trigger (s.targetList trigger) (s.targetList trigger) q)
      (hunlocked : s.Unlocked trigger (s.targetList trigger))
      (haccepted : outcome.accepted = true) (hjobs : jobs = s.jobs ++ [⟨r, q.targets⟩])

/-- What a run of the request alone has made of the state. -/
inductive AloneAt (s : Cluster) (trigger : Trigger) (outcome : SubmitOutcome) (r : ℕ)
    (s' : Cluster) : Prop where
  | underway (q : Request) (hq : s'.requests[r]? = some q) (husers : s'.users = s.users)
      (hlocks : s'.locks = s.locks) (h : Underway s trigger outcome r s'.jobs q)
  | rolledBack (q : Request) (hq : s'.requests[r]? = some q) (hended : q.Ended)
      (husers : s'.users = s.users) (hfit : s.SlotsFit trigger outcome)
  | committed (q : Request) (hq : s'.requests[r]? = some q) (hended : q.Ended)
      (hslot : ∀ u, s'.slot u = if u ∈ s.targetList trigger ∧ s.Claims trigger u then
        (s.slot u).map fun _ => some s.now else s.slot u)
      (hjobs : ∀ u, (∃ job ∈ s'.jobs.drop s.jobs.length, u ∈ job.userIds) ↔
        u ∈ s.targetList trigger ∧ s.Claims trigger u ∧ u ∉ s.locks)
      (hunlocked : s.Unlocked trigger (s.targetList trigger))
      (hcommit : outcome.accepted = true ∨ ¬ s.Submits trigger)

variable {s s' s'' : Cluster} {trigger : Trigger} {outcome : SubmitOutcome} {r : ℕ}
  {jobs : List Job} {q : Request} {u : UUID} {done rest : List UUID} {a : RequestAction}

theorem mem_concat_and_of_imp {P : UUID → Prop} (h : P u → u ∈ done) (v : UUID) :
    v ∈ done ∧ P v ↔ v ∈ done ++ [u] ∧ P v := by
  rw [List.mem_append, List.mem_singleton]
  refine and_congr_left fun hv => ⟨Or.inl, ?_⟩
  rintro (hmem | rfl)
  · exact hmem
  · exact h hv

theorem mem_concat_and {P : UUID → Prop} (h : P u) (v : UUID) :
    v ∈ done ∧ P v ∨ v = u ↔ v ∈ done ++ [u] ∧ P v := by
  rw [List.mem_append, List.mem_singleton, or_and_right]
  refine or_congr_right ⟨?_, And.left⟩
  rintro rfl
  exact ⟨rfl, h⟩

/-- The claim of a user that has not been claimed yet is decided by the row the user had at the
start. -/
theorem Progress.mayClaim (h : Progress s trigger done done q) (hu : u ∉ q.claimed) :
    (s.users.find? u).any q.mayClaim = true ↔ s.Claims trigger u := by
  obtain ⟨htrigger, hstart, hclaimed⟩ := openRequest_fields s.users s.now trigger
  rw [Claims]
  rcases hfind : s.users.find? u with _ | row
  · exact Iff.rfl
  obtain ⟨-, rfl⟩ := KeyedTable.find?_eq_some.mp hfind
  have hsame : q.mayClaim row = (openRequest s.users s.now trigger).mayClaim row := by
    simp only [Request.mayClaim, Request.lastStarted, htrigger, hstart, hclaimed, h.sameTrigger,
      h.sameStart, if_neg hu, List.not_mem_nil, if_false]
  rw [Option.any_some, Option.any_some, hsame]

theorem unlocked_of_bulk (h : trigger.isUser = false) : s.Unlocked trigger done := by
  intro huser
  rw [h] at huser
  cases huser

/-- A user's slot is claimed. -/
theorem Progress.claim (h : Progress s trigger done done q) (hclaims : s.Claims trigger u) :
    Progress s trigger (done ++ [u]) done (q.claim u rest) := by
  refine ⟨h.sameTrigger, h.sameStart, fun v => ?_, h.targets⟩
  rw [Request.claim, List.mem_cons, h.claimed, or_comm]
  exact mem_concat_and hclaims v

/-- A user is passed over: the slot was claimed for an earlier mention of the user, or may not be
claimed at all. -/
theorem Progress.pass (h : Progress s trigger done done q)
    (hclaimed : s.Claims trigger u → u ∈ done) :
    Progress s trigger (done ++ [u]) (done ++ [u]) q := by
  refine ⟨h.sameTrigger, h.sameStart, fun v => ?_, fun v => ?_⟩
  · rw [h.claimed]
    exact mem_concat_and_of_imp hclaimed v
  · rw [h.targets]
    exact mem_concat_and_of_imp (P := fun v => s.Claims trigger v ∧ v ∉ s.locks)
      (fun hu => hclaimed hu.1) v

/-- A lock row is in the way: the user is claimed, and no target. -/
theorem Progress.conflict (h : Progress s trigger (done ++ [u]) done q)
    (hdone : s.Claims trigger u ∧ u ∉ s.locks → u ∈ done) :
    Progress s trigger (done ++ [u]) (done ++ [u]) q := by
  refine ⟨h.sameTrigger, h.sameStart, h.claimed, fun v => ?_⟩
  rw [h.targets]
  exact mem_concat_and_of_imp (P := fun v => s.Claims trigger v ∧ v ∉ s.locks) hdone v

/-- The end of a user's turn: on to the next user, or to the submission. -/
theorem Progress.next (h : Progress s trigger done done q)
    (hlist : s.targetList trigger = done ++ rest) (hunlocked : s.Unlocked trigger done) :
    Underway s trigger outcome r s.jobs (q.next rest) := by
  cases rest with
  | cons u rest =>
    exact .claim done u rest rfl hlist ⟨h.sameTrigger, h.sameStart, h.claimed, h.targets⟩
      hunlocked rfl
  | nil =>
    rw [List.append_nil] at hlist
    subst hlist
    by_cases ht : q.targets = []
    · exact .nothing (.bulk none q.skipped) (by simp only [Request.next, if_pos ht]) ht
        ⟨h.sameTrigger, h.sameStart, h.claimed, h.targets⟩ hunlocked rfl
    · exact .submit (by simp only [Request.next, if_neg ht]) ht
        ⟨h.sameTrigger, h.sameStart, h.claimed, h.targets⟩ hunlocked rfl

/-! ## The statements

One lemma for each phase of the request, from where it is to where it comes. -/

section Step

variable {response : TriggerResponse}

/-- A rollback leaves every slot as it was, which is what the promise asks for. -/
theorem alone_raise (hr : r < s'.requests.length) (husers : s'.users = s.users)
    (hfit : s.SlotsFit trigger outcome) (response : TriggerResponse) :
    AloneAt s trigger outcome r (s'.setRequest r (q.raise response)) :=
  .rolledBack (q.raise response) (List.getElem?_set_self hr) rfl husers hfit

theorem alone_set (hr : r < s'.requests.length) (husers : s'.users = s.users)
    (hlocks : s'.locks = s.locks) (h : Underway s trigger outcome r s'.jobs q) :
    AloneAt s trigger outcome r (s'.setRequest r q) :=
  .underway q (List.getElem?_set_self hr) husers hlocks h

/-- The claim of a user's slot: it goes through, or the user is skipped, or the request refused. -/
theorem alone_claim (hq : s'.requests[r]? = some q) (husers : s'.users = s.users)
    (hlocks : s'.locks = s.locks) (hphase : q.phase = .claim u rest)
    (hlist : s.targetList trigger = done ++ u :: rest) (h : Progress s trigger done done q)
    (hunlocked : s.Unlocked trigger done) (hjobs : s'.jobs = s.jobs)
    (hs : s'.requestStep r q .claim = some s'') : AloneAt s trigger outcome r s'' := by
  have hr : r < s'.requests.length := (List.getElem?_eq_some_iff.mp hq).1
  simp only [requestStep, hphase, husers] at hs
  split at hs
  · next hmay =>
    split at hs
    · cases hs
    obtain rfl := Option.some.inj hs
    have hclaims : s.Claims trigger u := by
      by_cases hu : u ∈ q.claimed
      · exact ((h.claimed u).mp hu).2
      · exact (h.mayClaim hu).mp hmay
    exact alone_set hr husers hlocks
      (.insert done u rest rfl hlist hclaims (h.claim hclaims) hunlocked hjobs)
  · next hno =>
    obtain rfl := Option.some.inj hs
    have hall : Progress s trigger (done ++ [u]) (done ++ [u]) q := by
      apply h.pass
      intro hclaims
      by_contra hdone
      exact hno ((h.mayClaim fun hu => hdone ((h.claimed u).mp hu).1).mpr hclaims)
    have hlist' : s.targetList trigger = (done ++ [u]) ++ rest := by
      rw [hlist, List.append_assoc]
      rfl
    have hskip : trigger.isUser = false → ∀ reason, AloneAt s trigger outcome r
        (s'.setRequest r (q.skip u reason rest)) := by
      intro hbulk reason
      refine alone_set hr husers hlocks
        (hjobs ▸ Progress.next ?_ hlist' (unlocked_of_bulk hbulk))
      exact ⟨hall.sameTrigger, hall.sameStart, hall.claimed, hall.targets⟩
    simp only [Request.refuse, h.sameTrigger]
    split
    · exact alone_raise hr husers (Or.inl rfl) _
    · exact hskip rfl _
    · exact hskip rfl _

/-- The insert of a user's lock row: it goes through, or runs into a row that is there. -/
theorem alone_insert (hq : s'.requests[r]? = some q) (husers : s'.users = s.users)
    (hlocks : s'.locks = s.locks) (hphase : q.phase = .insert u rest)
    (hlist : s.targetList trigger = done ++ u :: rest) (hclaims : s.Claims trigger u)
    (h : Progress s trigger (done ++ [u]) done q) (hunlocked : s.Unlocked trigger done)
    (hjobs : s'.jobs = s.jobs) (hs : s'.requestStep r q .insert = some s'') :
    AloneAt s trigger outcome r s'' := by
  have hr : r < s'.requests.length := (List.getElem?_eq_some_iff.mp hq).1
  have hlist' : s.targetList trigger = (done ++ [u]) ++ rest := by
    rw [hlist, List.append_assoc]
    rfl
  simp only [requestStep, hphase] at hs
  split at hs
  · next hconflict =>
    obtain rfl := Option.some.inj hs
    have hall : Progress s trigger (done ++ [u]) (done ++ [u]) q := by
      apply h.conflict
      rintro ⟨-, hunlocked⟩
      obtain htarget | ⟨hlocked, -⟩ := hconflict
      · exact ((h.targets u).mp htarget).1
      · exact absurd (hlocks ▸ hlocked) hunlocked
    simp only [Request.conflict, h.sameTrigger]
    split
    · exact alone_set hr husers hlocks (.findJob u rfl rfl hjobs)
    · refine alone_set hr husers hlocks
        (hjobs ▸ Progress.next ?_ hlist' (unlocked_of_bulk rfl))
      exact ⟨hall.sameTrigger, hall.sameStart, hall.claimed, hall.targets⟩
  next hfree =>
  split at hs
  · cases hs
  next hblocked =>
  obtain rfl := Option.some.inj hs
  have hlocked : u ∉ s.locks := fun hu =>
    hfree (Or.inr ⟨hlocks ▸ hu, fun hdel => hblocked (Or.inl hdel)⟩)
  have hun : s.Unlocked trigger (done ++ [u]) := by
    intro huser v hv
    obtain hv | hv := List.mem_append.mp hv
    · exact hunlocked huser v hv
    · exact List.mem_singleton.mp hv ▸ hlocked
  refine alone_set hr husers hlocks (hjobs ▸ Progress.next ?_ hlist' hun)
  refine ⟨h.sameTrigger, h.sameStart, h.claimed, fun v => ?_⟩
  rw [List.mem_append, List.mem_singleton, h.targets]
  exact mem_concat_and (P := fun v => s.Claims trigger v ∧ v ∉ s.locks) ⟨hclaims, hlocked⟩ v

/-- The commit makes the claims of the request visible. -/
theorem alone_commit (hq : s'.requests[r]? = some q) (husers : s'.users = s.users)
    (hphase : q.phase = .commit response)
    (h : Progress s trigger (s.targetList trigger) (s.targetList trigger) q)
    (hunlocked : s.Unlocked trigger (s.targetList trigger))
    (hjobs : q.targets = [] ∧ s'.jobs = s.jobs ∨
      outcome.accepted = true ∧ s'.jobs = s.jobs ++ [⟨r, q.targets⟩])
    (hs : s'.requestStep r q .commit = some s'') : AloneAt s trigger outcome r s'' := by
  have hr : r < s'.requests.length := (List.getElem?_eq_some_iff.mp hq).1
  simp only [requestStep, hphase] at hs
  obtain rfl := Option.some.inj hs
  refine .committed _ (List.getElem?_set_self hr) rfl (fun u => ?_) (fun u => ?_) hunlocked ?_
  · simp only [slot, husers, KeyedTable.find?_updateWhere, Option.map_map]
    rcases hfind : s.users.find? u with _ | row
    · simp
    obtain ⟨-, rfl⟩ := KeyedTable.find?_eq_some.mp hfind
    simp only [Option.map_some, Function.comp_apply, decide_eq_true_eq, h.claimed, h.sameStart]
    split
    · rfl
    · rfl
  · show (∃ job ∈ s'.jobs.drop s.jobs.length, u ∈ job.userIds) ↔ _
    rw [← h.targets u]
    obtain ⟨hnil, hsame⟩ | ⟨-, hnew⟩ := hjobs
    · rw [hsame, hnil, List.drop_length]
      simp
    · rw [hnew, List.drop_left]
      simp
  · obtain ⟨hnil, -⟩ | ⟨haccepted, -⟩ := hjobs
    · right
      rintro ⟨u, hu, hclaims, hlocked⟩
      have hmem := (h.targets u).mpr ⟨hu, hclaims, hlocked⟩
      rw [hnil] at hmem
      exact absurd hmem List.not_mem_nil
    · exact Or.inl haccepted

/-- **A step** of the request alone: the answer of the Kubernetes API is the one that is given. -/
theorem AloneAt.step (h : AloneAt s trigger outcome r s')
    (ha : ∀ o, a = .submit o → o = outcome)
    (hs : (s'.requests[r]?.bind fun q => s'.requestStep r q a) = some s'') :
    AloneAt s trigger outcome r s'' := by
  obtain ⟨q, hq, hs⟩ := Option.bind_eq_some_iff.mp hs
  have hr : r < s'.requests.length := (List.getElem?_eq_some_iff.mp hq).1
  obtain ⟨_, _, _, _, hm, -⟩ := requestStep_cases hs
  -- a request that takes a step had not ended
  have hne : ¬ q.Ended := by
    cases hm with
    | quiet a q' hne => exact hne
    | created hq => exact Request.not_ended hq rfl
    | timedOut hq => exact Request.not_ended hq rfl
    | commit response hq => exact Request.not_ended hq rfl
  cases h with
  | rolledBack q' hq' hended =>
    cases hq.symm.trans hq'
    exact absurd hended hne
  | committed q' hq' hended =>
    cases hq.symm.trans hq'
    exact absurd hended hne
  | underway q' hq' husers hlocks h =>
    cases hq.symm.trans hq'
    cases h with
    -- in each phase one action fits; `requestStep` has no result for any other
    | claim done u rest hphase hlist h hunlocked hjobs =>
      cases a with
      | claim => exact alone_claim hq husers hlocks hphase hlist h hunlocked hjobs hs
      | _ => simp [requestStep, hphase] at hs
    | insert done u rest hphase hlist hu h hunlocked hjobs =>
      cases a with
      | insert => exact alone_insert hq husers hlocks hphase hlist hu h hunlocked hjobs hs
      | _ => simp [requestStep, hphase] at hs
    | findJob u hphase huser hjobs =>
      cases a with
      | findJob answer =>
        simp only [requestStep, hphase] at hs
        obtain rfl := Option.some.inj hs
        exact alone_raise hr husers (Or.inl huser) _
      | _ => simp [requestStep, hphase] at hs
    | submit hphase hne h hunlocked hjobs =>
      -- some user is targeted, so the trigger does submit
      have hsubmits : s.Submits trigger := by
        obtain ⟨u, hu⟩ := List.exists_mem_of_ne_nil _ hne
        exact ⟨u, (h.targets u).mp hu⟩
      cases a with
      | submit o =>
        obtain rfl := ha o rfl
        simp only [requestStep, hphase] at hs
        split at hs
        · obtain rfl := Option.some.inj hs
          refine .underway _ (List.getElem?_set_self hr) husers hlocks
            (.created _ rfl ?_ hunlocked rfl (by rw [hjobs]))
          exact ⟨h.sameTrigger, h.sameStart, h.claimed, h.targets⟩
        · obtain rfl := Option.some.inj hs
          exact alone_raise hr husers (Or.inr (Or.inr ⟨rfl, hsubmits⟩)) _
        · obtain rfl := Option.some.inj hs
          exact .rolledBack _ (List.getElem?_set_self hr) rfl husers
            (Or.inr (Or.inr ⟨rfl, hsubmits⟩))
      | _ => simp [requestStep, hphase] at hs
    | nothing response hphase hnil h hunlocked hjobs =>
      cases a with
      | commit => exact alone_commit hq husers hphase h hunlocked (Or.inl ⟨hnil, hjobs⟩) hs
      | _ => simp [requestStep, hphase] at hs
    | created response hphase h hunlocked haccepted hjobs =>
      cases a with
      | commit => exact alone_commit hq husers hphase h hunlocked (Or.inr ⟨haccepted, hjobs⟩) hs
      | _ => simp [requestStep, hphase] at hs

end Step

/-! ## The whole request

From the opening of the request to its answer. -/

/-- A request as its endpoint opens it: nothing is claimed, and nothing inserted. -/
theorem alone_request {lockKey : UUID → ℤ}
    (hs : s.step lockKey (.request trigger) = some s') :
    AloneAt s trigger outcome s.requests.length s' := by
  obtain rfl := Option.some.inj hs
  have hq : (s.requests ++ [openRequest s.users s.now trigger])[s.requests.length]? =
      some (openRequest s.users s.now trigger) := by
    rw [List.getElem?_append_right (Nat.le_refl _), Nat.sub_self]
    rfl
  have hnext : ∀ (q : Request) (list : List UUID), q.trigger = trigger → q.startedAt = s.now →
      q.claimed = [] → q.targets = [] → openRequest s.users s.now trigger = q.next list →
      AloneAt s trigger outcome s.requests.length
        { s with requests := s.requests ++ [openRequest s.users s.now trigger] } := by
    intro q list htrigger hstart hclaimed htargets hopen
    have hlist : s.targetList trigger = list := by
      rw [targetList, hopen, todo_next]
    have hprogress : Progress s trigger [] [] q := by
      refine ⟨htrigger, hstart, fun u => ?_, fun u => ?_⟩
      · rw [hclaimed]
        simp
      · rw [htargets]
        simp
    refine .underway _ hq rfl rfl (hopen ▸ hprogress.next hlist ?_)
    exact fun _ u hu => absurd hu List.not_mem_nil
  have hrefused : openRequest s.users s.now trigger =
      ⟨trigger, s.now, .ended .insufficientPermissions, [], [], []⟩ →
      AloneAt s trigger outcome s.requests.length
        { s with requests := s.requests ++ [openRequest s.users s.now trigger] } := by
    intro hopen
    refine .rolledBack _ hq (by rw [hopen]; rfl) rfl (Or.inr (Or.inl fun u hu => ?_))
    rw [targetList, hopen] at hu
    exact absurd hu List.not_mem_nil
  cases trigger with
  | user callerId userId =>
    by_cases hmay : callerId = userId ∨
        (s.users.find? callerId).any (fun row => decide (row.role = .admin)) = true
    · exact hnext ⟨.user callerId userId, s.now, .ended .insufficientPermissions, [], [], []⟩
        [userId] rfl rfl rfl rfl (if_pos hmay)
    · exact hrefused (if_neg hmay)
  | bulk callerId userIds force =>
    by_cases hmay : (s.users.find? callerId).any (fun row => decide (row.role = .admin)) = true
    · exact hnext ⟨.bulk callerId userIds force, s.now, .ended .insufficientPermissions, [], [], []⟩
        _ rfl rfl rfl rfl (if_pos hmay)
    · exact hrefused (if_neg hmay)

/-- **The run** of the request alone, by induction on its steps. -/
theorem AloneAt.run {lockKey : UUID → ℤ} (actions : List RequestAction) :
    ∀ {s' : Cluster}, AloneAt s trigger outcome r s' →
      (∀ o, .submit o ∈ actions → o = outcome) →
      exec (Cluster.step lockKey) s' (actions.map (.endpoint r)) = some s'' →
      AloneAt s trigger outcome r s'' := by
  induction actions with
  | nil =>
    intro s' h _ he
    obtain rfl := Option.some.inj he
    exact h
  | cons a actions ih =>
    intro s' h ha he
    obtain ⟨s₁, hs₁, he₁⟩ := exec_cons_eq_some he
    refine ih (h.step (fun o ho => ha o (ho ▸ List.mem_cons_self ..)) hs₁) (fun o ho => ?_) he₁
    exact ha o (List.mem_cons_of_mem _ ho)

/-- What a committed request has kept. -/
theorem slotsKept_iff_of_committed
    (hslot : ∀ u, s'.slot u = if u ∈ s.targetList trigger ∧ s.Claims trigger u then
      (s.slot u).map fun _ => some s.now else s.slot u)
    (hjobs : ∀ u, (∃ job ∈ s'.jobs.drop s.jobs.length, u ∈ job.userIds) ↔
      u ∈ s.targetList trigger ∧ s.Claims trigger u ∧ u ∉ s.locks) :
    SlotsKept s s' ↔ s.ClaimsUnlocked trigger := by
  have hchanged : ∀ u, s'.slot u ≠ s.slot u ↔
      u ∈ s.targetList trigger ∧ s.Claims trigger u ∧ s.slot u ≠ some (some s.now) := by
    intro u
    rw [hslot u, ← and_assoc]
    by_cases hu : u ∈ s.targetList trigger ∧ s.Claims trigger u
    · rw [if_pos hu, and_iff_right hu]
      obtain ⟨row, hrow, -⟩ := (Option.any_eq_true _ _).mp hu.2
      simp [slot, hrow, eq_comm]
    · rw [if_neg hu]
      exact iff_of_false (fun h => h rfl) fun h => hu h.1
  refine ⟨fun hkept u hu hclaims hnow => ?_, fun hfit u hu => ?_⟩
  · exact ((hjobs u).mp (hkept u ((hchanged u).mpr ⟨hu, hclaims, hnow⟩))).2.2
  · obtain ⟨hu, hclaims, hnow⟩ := (hchanged u).mp hu
    exact (hjobs u).mpr ⟨hu, hclaims, hfit u hu hclaims hnow⟩

/-- **An attempt that does not run keeps the slot, except for users with a lock row of a bulk
trigger**: from every state of the tables and of the cluster, whatever users a trigger names, forced
or not, and whatever becomes of the submission, when the request has ended the slots have changed
for users of the submitted job alone, and for no user if there is none, if and only if the trigger
is for one user, or the request claims the slot of no user with a lock row, or it is rolled back
because it gets to the submission and the submission fails. -/
theorem slots_kept_iff (lockKey : UUID → ℤ) (s : Cluster) (trigger : Trigger)
    (outcome : SubmitOutcome) (actions : List RequestAction)
    (hsubmit : ∀ o, .submit o ∈ actions → o = outcome)
    (he : exec (step lockKey) s
      (.request trigger :: actions.map (.endpoint s.requests.length)) = some s')
    (hq : s'.requests[s.requests.length]? = some q) (hend : q.Ended) :
    SlotsKept s s' ↔ s.SlotsFit trigger outcome := by
  obtain ⟨s₁, hs₁, he₁⟩ := exec_cons_eq_some he
  cases AloneAt.run actions (alone_request hs₁) hsubmit he₁ with
  | underway q' hq' husers hlocks h =>
    cases hq.symm.trans hq'
    cases h with
    | claim done u rest hphase => exact absurd hend (Request.not_ended hphase rfl)
    | insert done u rest hphase => exact absurd hend (Request.not_ended hphase rfl)
    | findJob u hphase => exact absurd hend (Request.not_ended hphase rfl)
    | submit hphase => exact absurd hend (Request.not_ended hphase rfl)
    | nothing response hphase => exact absurd hend (Request.not_ended hphase rfl)
    | created response hphase => exact absurd hend (Request.not_ended hphase rfl)
  | rolledBack q' hq' hended husers hfit =>
    refine iff_of_true (fun u hu => absurd ?_ hu) hfit
    rw [slot, husers, slot]
  | committed q' hq' hended hslot hjobs hunlocked hcommit =>
    rw [slotsKept_iff_of_committed hslot hjobs]
    refine ⟨fun hfit => Or.inr (Or.inl hfit), ?_⟩
    rintro (huser | hfit | ⟨hfailed, hsubmits⟩)
    · exact fun u hu _ _ => hunlocked huser u hu
    · exact hfit
    · obtain haccepted | hno := hcommit
      · rw [hfailed] at haccepted
        cases haccepted
      · exact absurd hsubmits hno

/-- An admin and a user with a lock row, both with their slots. -/
def sampleLocked : Cluster where
  now := 7200 * second
  users := ⟨[⟨1, .admin, none⟩, ⟨2, .member, none⟩], by decide⟩
  locks := [2]
  requests := []
  jobs := []
  pods := []
  advisory := SessionLocks.free

/-- The admin reprocesses only themselves, and has no lock row. -/
theorem slots_kept_iff_unlocked :
    ∃ s, exec (step fun u => u) sampleLocked (.request (.bulk 1 (some [1]) false) ::
        [RequestAction.claim, .insert, .submit .created, .commit].map (.endpoint 0)) = some s ∧
      SlotsKept sampleLocked s := by
  have hrun : ((exec (step fun u => u) sampleLocked (.request (.bulk 1 (some [1]) false) ::
      [RequestAction.claim, .insert, .submit .created, .commit].map (.endpoint 0))).bind
      fun s => s.requests[0]?.map fun q => (s, q.phase.isEnded)).map Prod.snd = some true := by
    decide +kernel
  obtain ⟨⟨s, b⟩, h, rfl⟩ := Option.map_eq_some_iff.mp hrun
  obtain ⟨s', he, h⟩ := Option.bind_eq_some_iff.mp h
  obtain ⟨q, hq, heq⟩ := Option.map_eq_some_iff.mp h
  obtain ⟨rfl, hend⟩ := Prod.mk.inj heq
  refine ⟨s', he, (slots_kept_iff _ sampleLocked _ .created
    [.claim, .insert, .submit .created, .commit] (fun o ho => ?_) he hq hend).mpr
    (Or.inr (Or.inl (by decide +kernel)))⟩
  simpa using ho

/-- The admin reprocesses the other user: no job is submitted, and the slot is gone. -/
theorem slot_consumed :
    ∃ s, exec (step fun u => u) sampleLocked (.request (.bulk 1 (some [2]) false) ::
        [RequestAction.claim, .insert, .commit].map (.endpoint 0)) = some s ∧
      s.jobs = [] ∧ ¬ SlotsKept sampleLocked s := by
  have hrun : (exec (step fun u => u) sampleLocked (.request (.bulk 1 (some [2]) false) ::
      [RequestAction.claim, .insert, .commit].map (.endpoint 0))).map
      (fun s => (s.jobs.length, s.slot 2)) = some (0, some (some sampleLocked.now)) := by
    decide +kernel
  obtain ⟨s, he, h⟩ := Option.map_eq_some_iff.mp hrun
  obtain ⟨hjobs, hslot⟩ := Prod.mk.inj h
  have hnil : s.jobs = [] := List.length_eq_zero_iff.mp hjobs
  refine ⟨s, he, hnil, fun hkept => ?_⟩
  obtain ⟨job, hjob, -⟩ := hkept 2 (by rw [hslot]; decide +kernel)
  rw [hnil] at hjob
  exact absurd hjob List.not_mem_nil

end Cluster

end Grosh
