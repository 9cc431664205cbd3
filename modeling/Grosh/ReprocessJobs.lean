import Mathlib.Data.List.Sort
import Grosh.Domain
import Grosh.Lib.SessionLock
import Grosh.Lib.Transition

/-!
# Reprocess triggers and their pods

A trigger request claims the hourly slot of a user, inserts the lock row and submits the
Kubernetes job, all in one database transaction that commits when the request ends; the job is
visible to the cluster before that. A pod of the job takes its users in order: it looks for the
lock row, takes the advisory lock of its session, rebuilds the user's transactions and releases.
`pg_advisory_unlock` takes effect at once, the deletion of the lock row with the commit.

The requests, the cluster and the pods are a labelled transition system (`Cluster.step`): any
number of requests and of pods, also several pods of one job, in any order. What `reprocess_user`
does to the transactions is not repeated here.
-/

namespace Grosh

open Transition

/-! ## Requests

A request is one database transaction. What it has written and not yet committed is kept in the
request itself, the claimed slots and the inserted lock rows, so that a rollback only has to forget
them. -/

/-- The values of `users.role`. An admin may trigger a reprocess for anybody, a member only their
own. -/
inductive UserRole : Type where
  | admin
  | member
  deriving DecidableEq, Repr

/-- The columns of `users` a trigger reads or writes. `lastReprocessStartedAt` is the slot: the time
of the last trigger that was committed, or nothing for a user who has never been reprocessed. -/
structure ReprocessUser : Type where
  id : UUID
  role : UserRole
  lastReprocessStartedAt : Option Timestamp

/-- The two endpoints. A bulk trigger names the users it is for, or is for all of them, and may be
forced to pass over the hourly limit. -/
inductive Trigger : Type where
  /-- `POST /users/{user_id}/reprocess` -/
  | user (callerId userId : UUID)
  /-- `POST /admin/reprocess` -/
  | bulk (callerId : UUID) (userIds : Option (List UUID)) (force : Bool)

/-- Why a bulk trigger leaves a user out: the slot of the hour is taken, or there is a lock row of
the user already. -/
inductive SkipReason : Type where
  | rateLimited
  | reprocessLocked

/-- A user that a bulk trigger has left out, with the reason. The answer lists all of them. -/
structure SkippedUser : Type where
  userId : UUID
  reason : SkipReason

/-- What a request answers; a job is known by its place in the list of jobs. Only the two answers
202 are committed, every other rolls the transaction back. -/
inductive TriggerResponse : Type where
  /-- 202 of a user's trigger -/
  | triggered (job : ℕ)
  /-- 202 of a bulk trigger -/
  | bulk (job : Option ℕ) (skipped : List SkippedUser)
  /-- 403 -/
  | insufficientPermissions
  /-- 429 -/
  | rateLimited (userId : UUID) (nextEligibleAt : Option Timestamp)
  /-- 409 -/
  | reprocessLocked (userId : UUID) (activeJob : Option ℕ)
  /-- 502 -/
  | jobSubmissionFailed

/-- Where a request is: each phase names the statement that comes next, and between two phases other
requests and pods may take their steps. -/
inductive RequestPhase : Type where
  /-- before `claim_reprocess_slot` of a user, and the users after it -/
  | claim (userId : UUID) (rest : List UUID)
  /-- before `insert_lock_atomic` -/
  | insert (userId : UUID) (rest : List UUID)
  /-- before `find_active_job` -/
  | findJob (userId : UUID)
  | submit
  /-- the endpoint has returned, its transaction is about to commit -/
  | commit (response : TriggerResponse)
  | ended (response : TriggerResponse)

/-- The transaction is over, committed or rolled back. A request that has ended takes no more
steps. -/
def RequestPhase.isEnded : RequestPhase → Bool
  | .ended _ => true
  | _ => false

/-- A request, with the uncommitted changes of its transaction: the users whose slot it has claimed
and those whose lock row it has inserted. Nobody else sees them before the commit, but a statement
on the same rows waits for it. -/
structure Request : Type where
  trigger : Trigger
  /-- `now()` of the transaction -/
  startedAt : Timestamp
  phase : RequestPhase
  claimed : List UUID
  targets : List UUID
  skipped : List SkippedUser

/-- The window of `claim_reprocess_slot`. -/
def reprocessWindow : Timestamp := 60 * 60 * second

namespace Request

/-- `raise_problem`: the exception leaves the endpoint and the transaction is rolled back, with
every slot and every lock row the request has written. -/
def raise (q : Request) (response : TriggerResponse) : Request :=
  { q with phase := .ended response, claimed := [], targets := [] }

/-- The next user, or the end of the loop: without targets there is no job, and what has been
claimed on the way is committed all the same. -/
def next (q : Request) : List UUID → Request
  | userId :: rest => { q with phase := .claim userId rest }
  | [] => { q with phase := if q.targets = [] then .commit (.bulk none q.skipped) else .submit }

/-- A bulk trigger leaves the user out and goes on with the next one. A slot that has just been
claimed stays claimed. -/
def skip (q : Request) (userId : UUID) (reason : SkipReason) (rest : List UUID) : Request :=
  next { q with skipped := q.skipped ++ [⟨userId, reason⟩] } rest

/-- `last_reprocess_started_at` as the request's transaction sees it: its own update, where it has
made one, and otherwise the committed value. -/
def lastStarted (q : Request) (row : ReprocessUser) : Option Timestamp :=
  if row.id ∈ q.claimed then some q.startedAt else row.lastReprocessStartedAt

/-- The condition of the `UPDATE` of `claim_reprocess_slot`, or of `force_claim_reprocess_slot`,
which has none. The comparison is strict: a slot is free again only after more than an hour. -/
def mayClaim (q : Request) (row : ReprocessUser) : Bool :=
  match q.trigger with
  | .bulk _ _ true => true
  | _ => (q.lastStarted row).all fun t => decide (t < q.startedAt - reprocessWindow)

/-- The slot is claimed: the `UPDATE` has found the row, and the lock row of the user comes next. -/
def claim (q : Request) (userId : UUID) (rest : List UUID) : Request :=
  { q with phase := .insert userId rest, claimed := userId :: q.claimed }

/-- The slot is not claimed; `row` is the user's, if there is one. A single trigger answers 429 with
the time of the next slot. A forced claim fails only where there is no such user, which the answer
calls locked. -/
def refuse (q : Request) (userId : UUID) (row : Option ReprocessUser) (rest : List UUID) :
    Request :=
  match q.trigger with
  | .user _ _ =>
    q.raise (.rateLimited userId ((row.bind q.lastStarted).map fun t => t + reprocessWindow))
  | .bulk _ _ true => q.skip userId .reprocessLocked rest
  | .bulk _ _ false => q.skip userId .rateLimited rest

/-- The lock row is inserted: the user is one of those the job will be submitted for. -/
def insert (q : Request) (userId : UUID) (rest : List UUID) : Request :=
  next { q with targets := q.targets ++ [userId] } rest

/-- There is a lock row already. A single trigger looks for the job that may be running, to name it
in its answer; a bulk one leaves the user out. -/
def conflict (q : Request) (userId : UUID) (rest : List UUID) : Request :=
  match q.trigger with
  | .user _ _ => { q with phase := .findJob userId }
  | .bulk _ _ _ => q.skip userId .reprocessLocked rest

/-- What the endpoint returns after `submit`. It is sent only once the transaction has been
committed. -/
def accepted (q : Request) (job : ℕ) : TriggerResponse :=
  match q.trigger with
  | .user _ _ => .triggered job
  | .bulk _ _ _ => .bulk (some job) q.skipped

/-- The request has ended, with an answer to the caller and nothing left that is not committed. -/
def Ended (q : Request) : Prop := q.phase.isEnded = true

instance (q : Request) : Decidable q.Ended := inferInstanceAs (Decidable (_ = _))

end Request

/-- The request as its endpoint starts: the role of the caller is checked. A member may only ask for
their own transactions, and the bulk endpoint is the admins'. -/
def openRequest (users : KeyedTable ReprocessUser.id) (now : Timestamp) (trigger : Trigger) :
    Request :=
  let q : Request := ⟨trigger, now, .ended .insufficientPermissions, [], [], []⟩
  let isAdmin (callerId : UUID) : Bool :=
    (users.find? callerId).any fun row => decide (row.role = .admin)
  match trigger with
  | .user callerId userId =>
    if callerId = userId ∨ isAdmin callerId then { q with phase := .claim userId [] } else q
  | .bulk callerId userIds _ =>
    if isAdmin callerId then
      q.next (userIds.getD ((users.rows.map ReprocessUser.id).insertionSort (· ≤ ·)))
    else q

/-! ## Pods

A pod walks through `USER_IDS_JSON`. What it does to the transactions of a user is one stage after
another here, since only the locks matter; the stages between the snapshot and the release are those
in which it rebuilds. -/

/-- How far a pod has come with a user. The lock row is deleted and the advisory lock released
before the transaction of the deletion commits, hence the last two stages, which remember whether
the deletion has found a row. -/
inductive Stage : Type where
  /-- `lock_exists` has found the lock row -/
  | checked
  /-- `acquire_advisory_lock` has returned -/
  | acquired
  | snapshotted
  /-- the transactions are deleted; they are published, awaited and verified -/
  | replaying
  /-- the replay has failed, `restore_from_backup` comes next -/
  | failed
  /-- `release_lock_atomic` comes next -/
  | finished
  /-- the `DELETE` of the release is done, and whether it has found the lock row -/
  | unlisted (hit : Bool)
  /-- the advisory lock is released, the transaction still open -/
  | unlocked (hit : Bool)
  deriving DecidableEq

/-- Where a pod is: between two users, with one of them, or gone. A pod that is gone has given up
its session, and with it every lock of the session. -/
inductive PodPhase : Type where
  /-- between two users -/
  | idle
  | busy (userId : UUID) (stage : Stage)
  | exited
  deriving DecidableEq

/-- A pod of a job and the users it has still to look at. A job may have several pods, since the
cluster starts another where one has failed. -/
structure Pod : Type where
  job : ℕ
  todo : List UUID
  phase : PodPhase

/-- A Kubernetes job: the request that submitted it and `USER_IDS_JSON`. It is there for good,
whatever becomes of the request. -/
structure Job : Type where
  request : ℕ
  userIds : List UUID

namespace Stage

/-- From the snapshot to the release: the stages in which the transactions of the user are deleted
and published again. -/
def rebuilding : Stage → Bool
  | .snapshotted | .replaying | .failed | .finished => true
  | _ => false

/-- The session holds the advisory lock for this user: from its acquisition to `pg_advisory_unlock`,
which comes before the commit of the deletion. -/
def locked : Stage → Bool
  | .acquired | .snapshotted | .replaying | .failed | .finished | .unlisted _ => true
  | _ => false

/-- An uncommitted `DELETE` of the lock row. A second one on the same row, or an `INSERT` of the
key, waits until it commits. -/
def deleting : Stage → Bool
  | .unlisted hit | .unlocked hit => hit
  | _ => false

end Stage

/-- What a pod does, or what happens to it: it may raise at any statement, and be killed at any
time. -/
inductive PodAction : Type where
  | check
  | acquire
  | snapshot
  | delete
  | verify
  /-- the publication, the catch-up or the verification raises -/
  | fail
  | restore
  | deleteLock
  | unlock
  | commit
  | exit
  /-- any other statement raises; the pod goes on with the next user -/
  | raise
  | kill
  deriving DecidableEq

/-- The actions that do not touch a lock. A replay that fails is followed by the restoration of the
snapshot, and both ways end where the locks are given back. -/
def Stage.advance : Stage → PodAction → Option Stage
  | .acquired, .snapshot => some .snapshotted
  | .snapshotted, .delete => some .replaying
  | .replaying, .verify => some .finished
  | .replaying, .fail => some .failed
  | .failed, .restore => some .finished
  | _, _ => none

/-! ## The system

The cluster starts a pod of any job at any time, and each step is one statement of one request or
one pod. All orders of such steps are runs: what is shown of them holds whatever the speed of the
parties. -/

/-- What becomes of the call that creates a job. The service takes the last two for one and the
same: it answers 502 and rolls back, though after a time-out there may be a job. -/
inductive SubmitOutcome : Type where
  | created
  | rejected
  /-- the job is created, the answer is lost -/
  | timedOut

/-- What a request does next. Its phase says which of these is possible, so that the actions of a
request come in the order of the endpoint. -/
inductive RequestAction : Type where
  | claim
  | insert
  /-- `find_active_job` answers -/
  | findJob (answer : Option ℕ)
  | submit (outcome : SubmitOutcome)
  | commit

/-- Who moves: the clock, a new request, a request in its transaction, the cluster that starts a
pod, or a pod. -/
inductive ClusterLabel : Type where
  | tick (now : Timestamp)
  | request (trigger : Trigger)
  | endpoint (request : ℕ) (action : RequestAction)
  | start (job : ℕ)
  | pod (pod : ℕ) (action : PodAction)

/-- The database, the requests, the cluster. Requests, jobs and pods are numbered as they come, and
none of them is ever removed, so that a number stays the name of one party. -/
structure Cluster : Type where
  now : Timestamp
  users : KeyedTable ReprocessUser.id
  /-- the committed rows of `reprocessing_locks` -/
  locks : List UUID
  requests : List Request
  jobs : List Job
  pods : List Pod
  advisory : SessionLocks ℤ ℕ

namespace Cluster

/-- The request of this number has moved on. The others, and the rest of the system, stay as they
are. -/
def setRequest (s : Cluster) (r : ℕ) (q : Request) : Cluster :=
  { s with requests := s.requests.set r q }

/-- The pod of this number has moved on. The others, and the rest of the system, stay as they
are. -/
def setPod (s : Cluster) (p : ℕ) (pod : Pod) : Cluster := { s with pods := s.pods.set p pod }

/-- Another transaction has updated the user's row and has not ended: the `UPDATE` waits for it, so
that the step is not possible yet. -/
def ClaimBlocked (s : Cluster) (q : Request) (userId : UUID) : Prop :=
  userId ∉ q.claimed ∧ ∃ q' ∈ s.requests, userId ∈ q'.claimed

instance (s : Cluster) (q : Request) (userId : UUID) : Decidable (s.ClaimBlocked q userId) :=
  inferInstanceAs (Decidable (_ ∧ _))

/-- A pod has deleted the user's lock row and has not committed: the row is still in the committed
table, but an `INSERT` of its key waits. -/
def Deleting (s : Cluster) (userId : UUID) : Prop :=
  ∃ pod ∈ s.pods, match pod.phase with
    | .busy u stage => u = userId ∧ stage.deleting = true
    | _ => False

instance (s : Cluster) (userId : UUID) : Decidable (s.Deleting userId) :=
  have : ∀ pod : Pod, Decidable (match pod.phase with
      | .busy u stage => u = userId ∧ stage.deleting = true
      | _ => False) := fun pod => by split <;> infer_instance
  inferInstanceAs (Decidable (∃ pod ∈ s.pods, _))

/-- The key is there for good, or inserted by the transaction itself: `ON CONFLICT DO NOTHING`
inserts nothing and returns no row. -/
def LockConflict (s : Cluster) (q : Request) (userId : UUID) : Prop :=
  userId ∈ q.targets ∨ userId ∈ s.locks ∧ ¬ s.Deleting userId

instance (s : Cluster) (q : Request) (userId : UUID) : Decidable (s.LockConflict q userId) :=
  inferInstanceAs (Decidable (_ ∨ _))

/-- Another transaction has inserted or deleted the key and has not ended. The `INSERT` waits, and
what it finds depends on how the other ends. -/
def InsertBlocked (s : Cluster) (userId : UUID) : Prop :=
  s.Deleting userId ∨ ∃ q' ∈ s.requests, userId ∈ q'.targets

instance (s : Cluster) (userId : UUID) : Decidable (s.InsertBlocked userId) :=
  inferInstanceAs (Decidable (_ ∨ _))

/-- A step of a request: one statement of its endpoint, or its commit. `none` says that the
statement is not the next one, or that it waits for another transaction. The job is created by
`submit`, while the slot and the lock row are published only by `commit`: a pod that starts between
the two finds no lock row. -/
def requestStep (s : Cluster) (r : ℕ) (q : Request) : RequestAction → Option Cluster
  | .claim =>
    match q.phase with
    | .claim userId rest =>
      if (s.users.find? userId).any q.mayClaim then
        if s.ClaimBlocked q userId then none else some (s.setRequest r (q.claim userId rest))
      else some (s.setRequest r (q.refuse userId (s.users.find? userId) rest))
    | _ => none
  | .insert =>
    match q.phase with
    | .insert userId rest =>
      if s.LockConflict q userId then some (s.setRequest r (q.conflict userId rest))
      else if s.InsertBlocked userId then none
      else some (s.setRequest r (q.insert userId rest))
    | _ => none
  | .findJob answer =>
    match q.phase with
    | .findJob userId => some (s.setRequest r (q.raise (.reprocessLocked userId answer)))
    | _ => none
  | .submit outcome =>
    match q.phase with
    | .submit =>
      match outcome with
      | .created =>
        some { s.setRequest r { q with phase := .commit (q.accepted s.jobs.length) } with
          jobs := s.jobs ++ [⟨r, q.targets⟩] }
      | .rejected => some (s.setRequest r (q.raise .jobSubmissionFailed))
      | .timedOut => some { s.setRequest r (q.raise .jobSubmissionFailed) with
          jobs := s.jobs ++ [⟨r, q.targets⟩] }
    | _ => none
  | .commit =>
    match q.phase with
    | .commit response => some
        { s.setRequest r { q with phase := .ended response, claimed := [], targets := [] } with
          users := s.users.updateWhere (fun row => decide (row.id ∈ q.claimed))
            (fun row => { row with lastReprocessStartedAt := some q.startedAt }) fun _ => rfl
          locks := q.targets ++ s.locks }
    | _ => none

/-- A step of a pod with a user. `lockKey` is `hashtext('reprocess:' || user_id)`. The lock row is
looked at before the advisory lock is waited for and not again afterwards, and the advisory lock is
released before the deletion of the row is committed. -/
def busyStep (lockKey : UUID → ℤ) (s : Cluster) (p : ℕ) (pod : Pod) (userId : UUID)
    (stage : Stage) : PodAction → Option Cluster
  | .acquire =>
    if stage = .checked then
      (s.advisory.acquire (lockKey userId) p).map fun advisory =>
        { s.setPod p { pod with phase := .busy userId .acquired } with advisory }
    else none
  | .deleteLock =>
    if stage = .finished ∧ ¬ s.Deleting userId then
      some (s.setPod p
        { pod with phase := .busy userId (.unlisted (decide (userId ∈ s.locks))) })
    else none
  | .unlock =>
    match stage with
    | .unlisted hit => some
        { s.setPod p { pod with phase := .busy userId (.unlocked hit) } with
          advisory := s.advisory.release (lockKey userId) p }
    | _ => none
  | .commit =>
    match stage with
    | .unlocked hit => some
        { s.setPod p { pod with phase := .idle } with
          locks := if hit then s.locks.filter fun u => decide (u ≠ userId) else s.locks }
    | _ => none
  | .raise => if stage = .replaying then none else some (s.setPod p { pod with phase := .idle })
  | .kill => some { s.setPod p { pod with phase := .exited } with
      advisory := s.advisory.endSession p }
  | action => (stage.advance action).map fun stage' =>
      s.setPod p { pod with phase := .busy userId stage' }

/-- A step of a pod between two users: it looks for the lock row of the next one, and passes over a
user who has none. -/
def idleStep (s : Cluster) (p : ℕ) (pod : Pod) : PodAction → Option Cluster
  | .check =>
    match pod.todo with
    | userId :: rest => some (s.setPod p { pod with
        todo := rest
        phase := if userId ∈ s.locks then .busy userId .checked else .idle })
    | [] => none
  | .raise =>
    match pod.todo with
    | _ :: rest => some (s.setPod p { pod with todo := rest })
    | [] => none
  | .exit =>
    match pod.todo with
    | _ :: _ => none
    | [] => some { s.setPod p { pod with phase := .exited } with
        advisory := s.advisory.endSession p }
  | .kill => some { s.setPod p { pod with phase := .exited } with
      advisory := s.advisory.endSession p }
  | _ => none

/-- A step of a pod, in the phase it is in. A pod that is gone takes no more. -/
def podStep (lockKey : UUID → ℤ) (s : Cluster) (p : ℕ) (pod : Pod) (action : PodAction) :
    Option Cluster :=
  match pod.phase with
  | .idle => s.idleStep p pod action
  | .busy userId stage => s.busyStep lockKey p pod userId stage action
  | .exited => none

/-- **A step of the system.** Time never goes back. A request opens its transaction, and from then
on takes one statement at a time; a pod may be started for any job at any time, also while the
request that has submitted the job is still open. `none` says that the step is not possible: the
party is not there, or it has to wait for a row or an advisory lock that another one holds. -/
def step (lockKey : UUID → ℤ) (s : Cluster) : ClusterLabel → Option Cluster
  | .tick now => if s.now ≤ now then some { s with now } else none
  | .request trigger => some { s with
      requests := s.requests ++ [openRequest s.users s.now trigger] }
  | .endpoint r action => s.requests[r]?.bind fun q => s.requestStep r q action
  | .start j => s.jobs[j]?.map fun job => { s with pods := s.pods ++ [⟨j, job.userIds, .idle⟩] }
  | .pod p action => s.pods[p]?.bind fun pod => s.podStep lockKey p pod action

/-! ## What a step does

The inversion lemmas say once what a step of a request or of a pod can do to the parts of the
system. The invariants are read off the moves, and no later proof unfolds a step. -/

/-- What a step of a request makes of the request, the jobs, the users and the lock rows. Most steps
change the request alone; `created` and the commit are those that others can see. -/
inductive RequestMove (s : Cluster) (r : ℕ) (q : Request) :
    RequestAction → Request → List Job → KeyedTable ReprocessUser.id → List UUID → Prop where
  /-- nothing but the request changes, and it does not commit a lock row next -/
  | quiet (a : RequestAction) (q' : Request) (hq : ¬ q.Ended)
      (h : ∀ response, q'.phase = .commit response → q'.targets = []) :
      RequestMove s r q a q' s.jobs s.users s.locks
  | created (hq : q.phase = .submit) : RequestMove s r q (.submit .created)
      { q with phase := .commit (q.accepted s.jobs.length) } (s.jobs ++ [⟨r, q.targets⟩])
      s.users s.locks
  | timedOut (hq : q.phase = .submit) : RequestMove s r q (.submit .timedOut)
      (q.raise .jobSubmissionFailed) (s.jobs ++ [⟨r, q.targets⟩]) s.users s.locks
  | commit (response : TriggerResponse) (hq : q.phase = .commit response) :
      RequestMove s r q .commit { q with phase := .ended response, claimed := [], targets := [] }
        s.jobs
        (s.users.updateWhere (fun row => decide (row.id ∈ q.claimed))
          (fun row => { row with lastReprocessStartedAt := some q.startedAt }) fun _ => rfl)
        (q.targets ++ s.locks)

/-- What a step of a pod makes of the pod, the lock rows and the advisory locks. The users, the
requests and the jobs are never touched by a pod. -/
inductive PodMove (lockKey : UUID → ℤ) (s : Cluster) (p : ℕ) :
    Pod → PodAction → Pod → List UUID → SessionLocks ℤ ℕ → Prop where
  | found (j : ℕ) (u : UUID) (rest : List UUID) (hu : u ∈ s.locks) :
      PodMove lockKey s p ⟨j, u :: rest, .idle⟩ .check ⟨j, rest, .busy u .checked⟩
        s.locks s.advisory
  | absent (j : ℕ) (u : UUID) (rest : List UUID) (hu : u ∉ s.locks) :
      PodMove lockKey s p ⟨j, u :: rest, .idle⟩ .check ⟨j, rest, .idle⟩ s.locks s.advisory
  | unchecked (j : ℕ) (u : UUID) (rest : List UUID) :
      PodMove lockKey s p ⟨j, u :: rest, .idle⟩ .raise ⟨j, rest, .idle⟩ s.locks s.advisory
  | acquire (j : ℕ) (todo : List UUID) (u : UUID) (l : SessionLocks ℤ ℕ)
      (hl : s.advisory.acquire (lockKey u) p = some l) :
      PodMove lockKey s p ⟨j, todo, .busy u .checked⟩ .acquire ⟨j, todo, .busy u .acquired⟩
        s.locks l
  | advance (j : ℕ) (todo : List UUID) (u : UUID) (a : PodAction) (stage stage' : Stage)
      (h : stage.advance a = some stage') :
      PodMove lockKey s p ⟨j, todo, .busy u stage⟩ a ⟨j, todo, .busy u stage'⟩ s.locks s.advisory
  | deleteLock (j : ℕ) (todo : List UUID) (u : UUID) (h : ¬ s.Deleting u) :
      PodMove lockKey s p ⟨j, todo, .busy u .finished⟩ .deleteLock
        ⟨j, todo, .busy u (.unlisted (decide (u ∈ s.locks)))⟩ s.locks s.advisory
  | unlock (j : ℕ) (todo : List UUID) (u : UUID) (hit : Bool) :
      PodMove lockKey s p ⟨j, todo, .busy u (.unlisted hit)⟩ .unlock
        ⟨j, todo, .busy u (.unlocked hit)⟩ s.locks (s.advisory.release (lockKey u) p)
  | commit (j : ℕ) (todo : List UUID) (u : UUID) (hit : Bool) :
      PodMove lockKey s p ⟨j, todo, .busy u (.unlocked hit)⟩ .commit ⟨j, todo, .idle⟩
        (if hit then s.locks.filter fun v => decide (v ≠ u) else s.locks) s.advisory
  | raise (j : ℕ) (todo : List UUID) (u : UUID) (stage : Stage) (h : stage ≠ .replaying) :
      PodMove lockKey s p ⟨j, todo, .busy u stage⟩ .raise ⟨j, todo, .idle⟩ s.locks s.advisory
  | exit (j : ℕ) : PodMove lockKey s p ⟨j, [], .idle⟩ .exit ⟨j, [], .exited⟩
      s.locks (s.advisory.endSession p)
  | kill (pod : Pod) (h : pod.phase ≠ .exited) :
      PodMove lockKey s p pod .kill { pod with phase := .exited } s.locks
        (s.advisory.endSession p)

end Cluster

namespace Request

variable {q : Request} {response : TriggerResponse} {rest : List UUID}

/-- Without targets a request commits no lock row: the loop goes on to `submit` as soon as there is
one. -/
theorem targets_of_next (h : (q.next rest).phase = .commit response) :
    (q.next rest).targets = [] := by
  cases rest with
  | nil =>
    by_cases ht : q.targets = []
    · exact ht
    · simp only [next, if_neg ht] at h
      cases h
  | cons u rest => cases h

theorem targets_of_skip {u : UUID} {reason : SkipReason}
    (h : (q.skip u reason rest).phase = .commit response) : (q.skip u reason rest).targets = [] :=
  targets_of_next h

theorem targets_of_refuse {u : UUID} {row : Option ReprocessUser}
    (h : (q.refuse u row rest).phase = .commit response) : (q.refuse u row rest).targets = [] := by
  simp only [refuse] at h ⊢
  split at h
  · cases h
  · exact targets_of_skip h
  · exact targets_of_skip h

theorem targets_of_conflict {u : UUID}
    (h : (q.conflict u rest).phase = .commit response) : (q.conflict u rest).targets = [] := by
  simp only [conflict] at h ⊢
  split at h
  · cases h
  · exact targets_of_skip h

/-- A request that has just been opened commits no lock row: it has not inserted any. -/
theorem targets_of_openRequest {users : KeyedTable ReprocessUser.id} {now : Timestamp}
    {t : Trigger} (h : (openRequest users now t).phase = .commit response) :
    (openRequest users now t).targets = [] := by
  simp only [openRequest] at h ⊢
  split at h
  · split at h
    · cases h
    · cases h
  · split at h
    · next ha =>
      rw [if_pos ha]
      exact targets_of_next h
    · cases h

theorem not_ended {phase : RequestPhase} (h : q.phase = phase)
    (hne : phase.isEnded = false) : ¬ q.Ended := by
  rw [Ended, h, hne]
  exact Bool.false_ne_true

end Request

namespace Cluster

variable {lockKey : UUID → ℤ} {s s' : Cluster}

/-- **Inversion of a request's step**: whatever the action, it is one of the moves. -/
theorem requestStep_cases {r : ℕ} {q : Request} {a : RequestAction}
    (hs : s.requestStep r q a = some s') : ∃ q' jobs users locks,
      RequestMove s r q a q' jobs users locks ∧
        s' = { s with requests := s.requests.set r q', jobs, users, locks } := by
  cases a with
  -- an action that submits nothing and ends no request is `quiet`
  | claim =>
    simp only [requestStep] at hs
    split at hs
    · next u rest hq =>
      have hne : ¬ q.Ended := Request.not_ended hq rfl
      split at hs
      · split at hs
        · cases hs
        · obtain rfl := Option.some.inj hs
          exact ⟨_, _, _, _, .quiet _ _ hne (fun _ h => by cases h), rfl⟩
      · obtain rfl := Option.some.inj hs
        exact ⟨_, _, _, _, .quiet _ _ hne fun _ h => Request.targets_of_refuse h, rfl⟩
    · cases hs
  | insert =>
    simp only [requestStep] at hs
    split at hs
    · next u rest hq =>
      have hne : ¬ q.Ended := Request.not_ended hq rfl
      split at hs
      · obtain rfl := Option.some.inj hs
        exact ⟨_, _, _, _, .quiet _ _ hne fun _ h => Request.targets_of_conflict h, rfl⟩
      · split at hs
        · cases hs
        · obtain rfl := Option.some.inj hs
          exact ⟨_, _, _, _, .quiet _ _ hne fun _ h => Request.targets_of_next h, rfl⟩
    · cases hs
  | findJob answer =>
    simp only [requestStep] at hs
    split at hs
    · next u hq =>
      obtain rfl := Option.some.inj hs
      exact ⟨_, _, _, _, .quiet _ _ (Request.not_ended hq rfl)
        fun _ _ => rfl, rfl⟩
    · cases hs
  | submit outcome =>
    simp only [requestStep] at hs
    split at hs
    · next hq =>
      cases outcome with
      | created =>
        obtain rfl := Option.some.inj hs
        exact ⟨_, _, _, _, .created hq, rfl⟩
      | rejected =>
        obtain rfl := Option.some.inj hs
        exact ⟨_, _, _, _, .quiet _ _ (Request.not_ended hq rfl)
          fun _ _ => rfl, rfl⟩
      | timedOut =>
        obtain rfl := Option.some.inj hs
        exact ⟨_, _, _, _, .timedOut hq, rfl⟩
    · cases hs
  | commit =>
    simp only [requestStep] at hs
    split at hs
    · next response hq =>
      obtain rfl := Option.some.inj hs
      exact ⟨_, _, _, _, .commit response hq, rfl⟩
    · cases hs

/-- Inversion of a pod's step with a user: the stages and the actions that fit them are gone through
once, here. -/
theorem busyStep_cases {p j : ℕ} {todo : List UUID} {u : UUID} {stage : Stage} {a : PodAction}
    (hs : s.busyStep lockKey p ⟨j, todo, .busy u stage⟩ u stage a = some s') :
    ∃ pod' locks advisory,
      PodMove lockKey s p ⟨j, todo, .busy u stage⟩ a pod' locks advisory ∧
        s' = { s with pods := s.pods.set p pod', locks, advisory } := by
  have hadvance : ∀ a, (stage.advance a).map (fun stage' =>
      s.setPod p ⟨j, todo, .busy u stage'⟩) = some s' → ∃ pod' locks advisory,
        PodMove lockKey s p ⟨j, todo, .busy u stage⟩ a pod' locks advisory ∧
          s' = { s with pods := s.pods.set p pod', locks, advisory } := by
    intro a ha
    obtain ⟨stage', hstage, rfl⟩ := Option.map_eq_some_iff.mp ha
    exact ⟨_, _, _, .advance j todo u a stage stage' hstage, rfl⟩
  -- each action belongs to a stage of the job; a kill may come at any
  cases a with
  | acquire =>
    simp only [busyStep] at hs
    split at hs
    · next hstage =>
      obtain ⟨l, hl, rfl⟩ := Option.map_eq_some_iff.mp hs
      subst hstage
      exact ⟨_, _, _, .acquire j todo u l hl, rfl⟩
    · cases hs
  | deleteLock =>
    simp only [busyStep] at hs
    split at hs
    · next h =>
      obtain ⟨rfl, hdel⟩ := h
      obtain rfl := Option.some.inj hs
      exact ⟨_, _, _, .deleteLock j todo u hdel, rfl⟩
    · cases hs
  | unlock =>
    simp only [busyStep] at hs
    split at hs
    · next hit =>
      obtain rfl := Option.some.inj hs
      exact ⟨_, _, _, .unlock j todo u hit, rfl⟩
    · cases hs
  | commit =>
    simp only [busyStep] at hs
    split at hs
    · next hit =>
      obtain rfl := Option.some.inj hs
      exact ⟨_, _, _, .commit j todo u hit, rfl⟩
    · cases hs
  | raise =>
    simp only [busyStep] at hs
    split at hs
    · cases hs
    · next hstage =>
      obtain rfl := Option.some.inj hs
      exact ⟨_, _, _, .raise j todo u stage hstage, rfl⟩
  | kill =>
    obtain rfl := Option.some.inj hs
    exact ⟨_, _, _, .kill _ (fun h => by cases h), rfl⟩
  | check => exact hadvance _ hs
  | snapshot => exact hadvance _ hs
  | delete => exact hadvance _ hs
  | verify => exact hadvance _ hs
  | fail => exact hadvance _ hs
  | restore => exact hadvance _ hs
  | exit => exact hadvance _ hs

/-- **Inversion of a pod's step**, in whatever phase the pod is. -/
theorem podStep_cases {p : ℕ} {pod : Pod} {a : PodAction}
    (hs : s.podStep lockKey p pod a = some s') : ∃ pod' locks advisory,
      PodMove lockKey s p pod a pod' locks advisory ∧
        s' = { s with pods := s.pods.set p pod', locks, advisory } := by
  obtain ⟨j, todo, phase⟩ := pod
  cases phase with
  | idle =>
    cases a with
    | check =>
      cases todo with
      | nil => cases hs
      | cons u rest =>
        obtain rfl := Option.some.inj hs
        by_cases hu : u ∈ s.locks
        · refine ⟨_, _, _, .found j u rest hu, ?_⟩
          simp only [setPod, if_pos hu]
        · refine ⟨_, _, _, .absent j u rest hu, ?_⟩
          simp only [setPod, if_neg hu]
    | raise =>
      cases todo with
      | nil => cases hs
      | cons u rest =>
        obtain rfl := Option.some.inj hs
        exact ⟨_, _, _, .unchecked j u rest, rfl⟩
    | exit =>
      cases todo with
      | nil =>
        obtain rfl := Option.some.inj hs
        exact ⟨_, _, _, .exit j, rfl⟩
      | cons u rest => cases hs
    | kill =>
      obtain rfl := Option.some.inj hs
      exact ⟨_, _, _, .kill _ (fun h => by cases h), rfl⟩
    | _ => cases hs
  | busy u stage => exact busyStep_cases hs
  | exited => cases hs

/-- The shape of a step: who has moved, and which parts of the system have changed. -/
inductive Move (lockKey : UUID → ℤ) (s : Cluster) : ClusterLabel → Cluster → Prop where
  | tick (now : Timestamp) : Move lockKey s (.tick now) { s with now }
  | request (t : Trigger) : Move lockKey s (.request t)
      { s with requests := s.requests ++ [openRequest s.users s.now t] }
  | endpoint (r : ℕ) (q : Request) (a : RequestAction) (q' : Request) (jobs : List Job)
      (users : KeyedTable ReprocessUser.id) (locks : List UUID) (hq : s.requests[r]? = some q)
      (h : RequestMove s r q a q' jobs users locks) : Move lockKey s (.endpoint r a)
      { s with requests := s.requests.set r q', jobs, users, locks }
  | start (j : ℕ) (job : Job) (hj : s.jobs[j]? = some job) : Move lockKey s (.start j)
      { s with pods := s.pods ++ [⟨j, job.userIds, .idle⟩] }
  | pod (p : ℕ) (pod : Pod) (a : PodAction) (pod' : Pod) (locks : List UUID)
      (advisory : SessionLocks ℤ ℕ) (hp : s.pods[p]? = some pod)
      (h : PodMove lockKey s p pod a pod' locks advisory) : Move lockKey s (.pod p a)
      { s with pods := s.pods.set p pod', locks, advisory }

/-- **Inversion of a step**: every step that is possible is a move of one party, and leaves what the
move does not name. -/
theorem step_cases {l : ClusterLabel} (hs : s.step lockKey l = some s') : Move lockKey s l s' := by
  cases l with
  | tick now =>
    simp only [step] at hs
    split at hs
    · obtain rfl := Option.some.inj hs
      exact .tick now
    · cases hs
  | request t =>
    obtain rfl := Option.some.inj hs
    exact .request t
  | endpoint r a =>
    obtain ⟨q, hq, hs⟩ := Option.bind_eq_some_iff.mp hs
    obtain ⟨q', jobs, users, locks, h, rfl⟩ := requestStep_cases hs
    exact .endpoint r q a q' jobs users locks hq h
  | start j =>
    obtain ⟨job, hj, rfl⟩ := Option.map_eq_some_iff.mp hs
    exact .start j job hj
  | pod p a =>
    obtain ⟨pod, hp, hs⟩ := Option.bind_eq_some_iff.mp hs
    obtain ⟨pod', locks, advisory, h, rfl⟩ := podStep_cases hs
    exact .pod p pod a pod' locks advisory hp h

end Cluster

end Grosh
