import Grosh.BackfillWindows
import Grosh.Decision
import Grosh.Lib.Transition
import Grosh.ServiceRequests

/-!
# The jobs of the ingestion service

The service submits Kubernetes jobs that backfill transactions or rates or reprocess users, and
answers who asks how a job is doing. A job carries labels; the status endpoints look at nothing
else. The triggers create their jobs in the namespace of the configuration, the status endpoints
look in `grosh`.

The tables, the cluster and the requests are a labelled transition system (`JobsState.step`). The
check for an active job and the submission are one step: neither gives way to another request.

* `status_only_to_entitled` — a status is answered only to those the job is for.
* `one_unfinished_iff` — an account never has two unfinished backfill jobs, exactly if no backfill
  is accepted while a job of the account is at its last attempt, which the check for an active job
  passes over.
* `status_found` — the id a backfill was answered with can be polled by its owner until the job is
  deleted, if the configured namespace is `grosh`.
* `triggered_asks_once` — a backfill that was accepted asks the bank for one window, its whole
  range.
-/

namespace Grosh

open RowSecurity Transition

/-! ## The cluster

The service looks at the jobs through the API of Kubernetes alone: it lists them by their labels,
reads one by its name, and creates one under a name that is free in the namespace. -/

/-- What the container of a job is started with: its environment variables, as far as the job reads
them. -/
inductive JobPayload : Type where
  | backfill (integrationId userId : UUID) (accountExternalId : String)
      (fromTimestamp toTimestamp : ℤ)
  | rates (source fromDate toDate : String)
  | reprocess (userIds : List UUID)

/-- `V1JobStatus`. The job controller writes it; a field is missing until there is something to
say. -/
structure K8sJobStatus : Type where
  active : Option ℕ
  succeeded : Option ℕ
  failed : Option ℕ
  completionTime : Option Timestamp
  /-- the type and the message of each condition -/
  conditions : List (String × Option String)

/-- `V1Job`, as far as the service writes or reads it. Its name is unique in its namespace, and only
the status changes after the job has been created. -/
structure K8sJob : Type where
  name : String
  inNamespace : String
  labels : List (String × String)
  backoffLimit : Option ℕ
  payload : JobPayload
  creationTimestamp : Option Timestamp
  status : K8sJobStatus

namespace K8sJob

/-- The status of a job nobody has looked at: the controller has not written any field. -/
def fresh : K8sJobStatus := ⟨none, none, none, none, []⟩

/-- The job of this name in this namespace: there is one at most. -/
def isNamed (name inNamespace : String) (job : K8sJob) : Bool :=
  decide (job.name = name ∧ job.inNamespace = inNamespace)

/-- The job, once the controller has written a status of the job of this name. Everything but the
status stays. -/
def reported (name inNamespace : String) (status : K8sJobStatus) (job : K8sJob) : K8sJob :=
  if job.isNamed name inNamespace then { job with status } else job

/-- An equality-based label selector: every label it names has to be there with its value, whatever
other labels there are. -/
def selectedBy (selector : List (String × String)) (job : K8sJob) : Bool :=
  selector.all fun kv => decide (job.labels.lookup kv.1 = some kv.2)

/-- The condition of `_has_active_job`: the job has not completed, and it has failed less often than
`job.spec.backoff_limit or 1`. -/
def isActive (job : K8sJob) : Bool :=
  decide (job.status.completionTime = none ∧
    job.status.failed.getD 0 < (job.backoffLimit.filter fun n => decide (n ≠ 0)).getD 1)

/-- What `find_active_job` calls active: the job has a pod that is running. `_has_active_job` does
not ask for it. -/
def hasActivePod (job : K8sJob) : Bool := decide (0 < job.status.active.getD 0)

/-- The job has completed or failed for good: the controller starts no more pods of it. -/
def isFinished (job : K8sJob) : Bool :=
  job.status.completionTime.isSome || job.status.conditions.any fun c => decide (c.1 = "Failed")

/-- The job is at its last attempt, or waits for it: it has failed as often as its backoff limit
says, so that `_has_active_job` passes over it, but it is not finished. -/
def isAtLastAttempt (job : K8sJob) : Bool :=
  !job.isFinished && decide
    ((job.backoffLimit.filter fun n => decide (n ≠ 0)).getD 1 ≤ job.status.failed.getD 0)

theorem isAtLastAttempt_iff {job : K8sJob} :
    job.isAtLastAttempt = true ↔ job.isFinished = false ∧ job.isActive = false := by
  rcases hc : job.status.completionTime with _ | time <;>
    simp [isAtLastAttempt, isFinished, isActive, hc]

end K8sJob

/-- `list_namespaced_job`: the jobs of the namespace that the selector lets through, in no order
that anybody relies on. -/
def listNamespacedJob (jobs : List K8sJob) (inNamespace : String)
    (selector : List (String × String)) : List K8sJob :=
  jobs.filter fun job => decide (job.inNamespace = inNamespace) && job.selectedBy selector

/-- `read_namespaced_job`; `none` is a 404. The labels of the job are not looked at here. -/
def readNamespacedJob (jobs : List K8sJob) (name inNamespace : String) : Option K8sJob :=
  jobs.find? (K8sJob.isNamed name inNamespace)

/-- `create_namespaced_job`; `none` is a conflict of names. The labels are as the service has
written them. -/
def createNamespacedJob (jobs : List K8sJob) (job : K8sJob) : Option (List K8sJob) :=
  if jobs.any (K8sJob.isNamed job.name job.inNamespace) then none else some (jobs ++ [job])

/-! ## Status

What the answer says of a job is read from the three numbers of its pods; whether the caller may
hear it is read from its labels. -/

/-- `kind` of a status. A job with another label counts as a reprocess. -/
inductive JobKind : Type where
  | monobankBackfill
  | ratesBackfill
  | reprocess
  deriving DecidableEq

/-- `status` of a status. A job whose pods have all gone without any success or failure is pending
again. -/
inductive K8sJobState : Type where
  | pending
  | running
  | succeeded
  | failed
  deriving DecidableEq

/-- `JobStatusResponse`: what the four status endpoints answer. -/
structure JobStatusResponse : Type where
  jobId : String
  kind : JobKind
  status : K8sJobState
  startedAt : Timestamp
  completedAt : Option Timestamp
  /-- active, succeeded and failed -/
  pods : ℕ × ℕ × ℕ
  failureReason : Option String

/-- `_KIND_MAP.get(raw_kind, "reprocess")`: the map has the two kinds of backfills and the
reprocess. -/
def kindOf (rawKind : String) : JobKind :=
  if rawKind = "monobank_backfill" then .monobankBackfill
  else if rawKind = "rates_backfill" then .ratesBackfill
  else .reprocess

/-- The state of a job with these numbers of pods. A success counts before a failure, and a pod that
is running before both. -/
def stateOf (active succeeded failed : ℕ) : K8sJobState :=
  if 0 < succeeded ∧ active = 0 then .succeeded
  else if 0 < failed ∧ active = 0 then .failed
  else if 0 < active then .running
  else .pending

/-- `_map_job_to_response`. The reason of a failure is the message of the condition `Failed`, which
the controller may not have written yet. -/
def mapJobToResponse (now : Timestamp) (job : K8sJob) : JobStatusResponse :=
  let active := job.status.active.getD 0
  let succeeded := job.status.succeeded.getD 0
  let failed := job.status.failed.getD 0
  { jobId := job.name
    kind := kindOf ((job.labels.lookup "grosh.app/job-kind").getD "reprocess")
    status := stateOf active succeeded failed
    startedAt := job.creationTimestamp.getD now
    completedAt := job.status.completionTime
    pods := (active, succeeded, failed)
    failureReason := if stateOf active succeeded failed = .failed then
      (job.status.conditions.find? fun c => decide (c.1 = "Failed")).bind Prod.snd else none }

/-- `JobStatusService.fetch_status`: a job whose labels do not fit is answered as if it were not
there, so that nobody learns which names are taken. -/
def fetchStatus (jobs : List K8sJob) (now : Timestamp) (jobId : String)
    (expectedLabels : List (String × String)) (absentLabels : List String) :
    Option JobStatusResponse :=
  (readNamespacedJob jobs jobId "grosh").bind fun job =>
    if job.selectedBy expectedLabels &&
        absentLabels.all fun key => (job.labels.lookup key).isNone then
      some (mapJobToResponse now job)
    else none

/-! ## The endpoints

The endpoints run under the policies of the tables. The programs below are the part that reads them;
the state of the cluster comes in only where a job is looked for or created. -/

/-- `str(uuid)`: the text with hyphens and small letters. It is what stands in the labels. -/
def uuidString (id : UUID) : String := String.ofList (uuidText id)

/-- Who submits the jobs: the label all of them carry, and every selector names. -/
def managedBy : String × String := ("app.kubernetes.io/managed-by", "grosh-ingestion")

/-- The labels of a transaction backfill: whose account it is and which. Both the check for an
active job and the status endpoint go by them. -/
def backfillLabels (accountId userId : UUID) : List (String × String) :=
  [managedBy, ("grosh.app/job-kind", "monobank_backfill"),
    ("grosh.app/account-id", uuidString accountId), ("grosh.app/user-id", uuidString userId)]

/-- The labels of a rates backfill, which belongs to no user. -/
def ratesLabels (source : String) : List (String × String) :=
  [managedBy, ("grosh.app/job-kind", "rates_backfill"), ("grosh.app/source", source)]

/-- The labels of a reprocess job; a bulk job carries no user, which is how the two status endpoints
tell them apart. -/
def reprocessLabels (callerUserId : Option UUID) : List (String × String) :=
  [managedBy, ("grosh.app/job-kind", "reprocess")] ++
    callerUserId.toList.map fun u => ("grosh.app/user-id", uuidString u)

/-- `AccountRepo.get_external_ref`: the account's id at the bank and its integration, of an account
of the user that has both. -/
def AccountRepo.getExternalRef (accountId userId : UUID) :
    Program TableName.Row (Option (String × UUID)) := do
  let rows ← Program.fetch TableName.accounts fun r : AccountRow =>
    isOwn accountId userId r && (r.integrationId.isSome && r.externalId.isSome)
  return rows.head?.bind fun r => r.externalId.bind fun x => r.integrationId.map fun i => (x, i)

/-- `resolve_account_owner`: an admin is told the owner of any account that the query finds, anybody
else only of an own one. -/
def resolveAccountOwner (accountId callerId : UUID) (isAdmin : Bool) :
    Program TableName.Row (Except ProblemDetail UUID) := do
  if isAdmin then
    match ← AccountRepo.getUserId accountId with
    | none => return .error accountNotFound
    | some userId => return .ok userId
  else
    if ← AccountRepo.belongsToUser accountId callerId then
      return .ok callerId
    else
      return .error accountNotFound

/-- The owner of the account, as an endpoint asks for it: the role is read from the row of the
caller. -/
def accountOwner (callerId accountId : UUID) :
    Program TableName.Row (Except ProblemDetail UUID) := do
  let role ← UserRepo.getRole callerId
  resolveAccountOwner accountId callerId (decide (role = some .admin))

/-- `require_admin`: everybody else is answered 403, whether the job is there or not. -/
def requireAdmin (callerId : UUID) : Program TableName.Row (Except ProblemDetail Unit) := do
  let role ← UserRepo.getRole callerId
  if role ≠ some .admin then
    return .error ⟨403, "INSUFFICIENT_PERMISSIONS", "Admin role required."⟩
  return .ok ()

/-- `POST /monobank/accounts/{account_id}/backfill`, with the dates as days since 1970-01-01, the
name and the time drawn for the job, and whether the cluster answers. -/
structure BackfillRequest : Type where
  callerId : UUID
  accountId : UUID
  fromDate : Option ℤ
  toDate : Option ℤ
  today : ℤ
  jobName : String
  now : Timestamp
  reachable : Bool

namespace BackfillRequest

/-- `to_date`, or today: the day whose midnight ends the range. -/
def untilDate (q : BackfillRequest) : ℤ := q.toDate.getD q.today

/-- `from_date`, or 90 days before `to_date`, which is more than a backfill may cover. -/
def sinceDate (q : BackfillRequest) : ℤ := q.fromDate.getD (q.untilDate - 90)

/-- The timestamp of a day's midnight, in UTC and in seconds. -/
def midnight (date : ℤ) : ℤ := date * 86400

end BackfillRequest

/-- `trigger_backfill` up to the submission: the owner, the external id and the integration. The
dates are checked before anything is read. -/
def backfillTarget (q : BackfillRequest) :
    Program TableName.Row (Except ProblemDetail (UUID × String × UUID)) := do
  if q.untilDate ≤ q.sinceDate then
    return .error ⟨422, "INVALID_DATE_RANGE", "from must be earlier than to"⟩
  if 31 < q.untilDate - q.sinceDate then
    return .error ⟨422, "BACKFILL_WINDOW_TOO_LARGE",
      "Requested window is " ++ toString (q.untilDate - q.sinceDate) ++
        " days; Monobank API caps a single request at 31 days. Split larger windows into" ++
        " multiple calls."⟩
  match ← accountOwner q.callerId q.accountId with
  | .error problem => return .error problem
  | .ok owner =>
    match ← AccountRepo.getExternalRef q.accountId owner with
    | none => return .error accountNotFound
    | some ref => return .ok (owner, ref)

/-- `POST /admin/rates-backfill`, with the dates, the name and the time drawn for the job, and
whether the cluster answers. -/
structure RatesRequest : Type where
  callerId : UUID
  source : String
  fromDate : ℤ
  toDate : ℤ
  /-- `date.isoformat` -/
  isoformat : ℤ → String
  jobName : String
  now : Timestamp
  reachable : Bool

/-- `RATE_PROVIDERS`: whether a provider has `fetch_historical`. Monobank only answers with the
rates of the moment. -/
def rateProviders : List (String × Bool) := [("monobank", false), ("nbu", true)]

/-- `trigger_rates_backfill` up to the submission: the caller has to be an admin, the range must not
run backwards, and the source has to offer past rates. -/
def ratesTarget (q : RatesRequest) : Program TableName.Row (Except ProblemDetail Unit) := do
  match ← requireAdmin q.callerId with
  | .error problem => return .error problem
  | .ok () =>
    if q.toDate < q.fromDate then
      return .error ⟨422, "INVALID_DATE_RANGE", "from_date must be <= to_date."⟩
    match rateProviders.lookup q.source with
    | none =>
      return .error ⟨422, "VALIDATION_ERROR", "Unknown rate source: '" ++ q.source ++ "'."⟩
    | some false =>
      return .error ⟨422, "VALIDATION_ERROR",
        "Source '" ++ q.source ++ "' does not support historical rate backfill."⟩
    | some true => return .ok ()

/-- A job that `ReprocessDispatcher.submit` creates: for the users it is for, and on whose behalf if
it is not a bulk one. -/
structure ReprocessSubmission : Type where
  userIds : List UUID
  /-- `caller_user_id` -/
  callerUserId : Option UUID
  now : Timestamp
  reachable : Bool

/-- The name of the job: it has the second in it, so that two jobs of one user within a second get
one name and the later is refused. -/
def ReprocessSubmission.jobName (q : ReprocessSubmission) : String :=
  "grosh-reprocess-" ++ (q.callerUserId.elim "admin" fun u =>
    String.ofList (((uuidText u).filter fun c => decide (c ≠ '-')).take 8)) ++ "-" ++
    toString (q.now / second)

/-! ## The system

The cluster and the tables are one state. A trigger reads the tables, lists the jobs and creates
one, with no other request in between; the controller writes a status whenever it likes, and a job
may be deleted at any time. -/

/-- The tables and the jobs of the cluster. No request of the service deletes a job or changes
one. -/
structure JobsState : Type where
  db : Db TableName.Row
  jobs : List K8sJob

namespace JobsState

/-- The selection and the submission of `BackfillService`. The answer is an error where the cluster
does not answer, has an active job of the selector, or knows the name, and then there is no new
job. -/
def submitUnlessActive (k8sNamespace : String) (s : JobsState) (reachable : Bool) (job : K8sJob)
    (selector : List (String × String)) (running : ProblemDetail) :
    Except ProblemDetail String × JobsState :=
  if !reachable then (.error internalError, s)
  else if (listNamespacedJob s.jobs k8sNamespace selector).any K8sJob.isActive then
    (.error running, s)
  else
    match createNamespacedJob s.jobs job with
    | none => (.error internalError, s)
    | some jobs => (.ok job.name, { s with jobs })

/-- The job of a backfill, as the service builds it: three more attempts after a failure, and the
range in seconds. -/
def backfillJob (k8sNamespace : String) (q : BackfillRequest) (owner : UUID) (externalId : String)
    (integrationId : UUID) : K8sJob where
  name := q.jobName
  inNamespace := k8sNamespace
  labels := backfillLabels q.accountId owner
  backoffLimit := some 3
  payload := .backfill integrationId owner externalId (BackfillRequest.midnight q.sinceDate)
    (BackfillRequest.midnight q.untilDate)
  creationTimestamp := some q.now
  status := K8sJob.fresh

/-- `trigger_backfill`; `k8sNamespace` is `K8S_NAMESPACE`. A trigger that is refused leaves the
cluster as it is, and neither way touches the tables. -/
def triggerBackfill (k8sNamespace : String) (s : JobsState) (q : BackfillRequest) :
    Except ProblemDetail String × JobsState :=
  match (respond q.callerId (backfillTarget q) internalError s.db).1 with
  | .error problem => (.error problem, s)
  | .ok (owner, externalId, integrationId) =>
    s.submitUnlessActive k8sNamespace q.reachable
      (backfillJob k8sNamespace q owner externalId integrationId)
      [managedBy, ("grosh.app/job-kind", "monobank_backfill"),
        ("grosh.app/account-id", uuidString q.accountId)]
      ⟨409, "REPROCESS_LOCKED",
        "A transaction backfill job for account " ++ uuidString q.accountId ++
          " is already running"⟩

/-- The job of a rates backfill, as the service builds it: three more attempts after a failure, and
the dates as texts. -/
def ratesJob (k8sNamespace : String) (q : RatesRequest) : K8sJob where
  name := q.jobName
  inNamespace := k8sNamespace
  labels := ratesLabels q.source
  backoffLimit := some 3
  payload := .rates q.source (q.isoformat q.fromDate) (q.isoformat q.toDate)
  creationTimestamp := some q.now
  status := K8sJob.fresh

/-- `trigger_rates_backfill`: the same check for an active job, among those of the rate source. -/
def triggerRates (k8sNamespace : String) (s : JobsState) (q : RatesRequest) :
    Except ProblemDetail String × JobsState :=
  match (respond q.callerId (ratesTarget q) internalError s.db).1 with
  | .error problem => (.error problem, s)
  | .ok () =>
    s.submitUnlessActive k8sNamespace q.reachable (ratesJob k8sNamespace q) (ratesLabels q.source)
      ⟨409, "REPROCESS_LOCKED",
        "A rates backfill job for source '" ++ q.source ++ "' is already running"⟩

/-- The job of a reprocess, as the dispatcher builds it: it is not tried again. -/
def reprocessJob (k8sNamespace : String) (q : ReprocessSubmission) : K8sJob where
  name := q.jobName
  inNamespace := k8sNamespace
  labels := reprocessLabels q.callerUserId
  backoffLimit := some 0
  payload := .reprocess q.userIds
  creationTimestamp := some q.now
  status := K8sJob.fresh

/-- `ReprocessDispatcher.submit`: there is no check here for a job that is active, since the lock
rows stand in for it. -/
def submitReprocess (k8sNamespace : String) (s : JobsState) (q : ReprocessSubmission) : JobsState :=
  if q.reachable then
    { s with jobs := (createNamespacedJob s.jobs (reprocessJob k8sNamespace q)).getD s.jobs }
  else s

/-- The end of a status endpoint: the labels its caller may see, and what it calls the job. Whoever
may see none has been refused before the cluster is asked. -/
def jobStatus (s : JobsState) (now : Timestamp) (reachable : Bool) (jobId : String)
    (labels : Except ProblemDetail (List (String × String))) (absentLabels : List String)
    (missing : String) : Except ProblemDetail JobStatusResponse :=
  match labels with
  | .error problem => .error problem
  | .ok labels =>
    if !reachable then
      .error ⟨503, "JOB_STATUS_UNAVAILABLE", "K8s API is unavailable. Try again later."⟩
    else
      match fetchStatus s.jobs now jobId labels absentLabels with
      | none => .error ⟨404, "JOB_NOT_FOUND", missing⟩
      | some response => .ok response

/-- `get_backfill_status`: the job has to carry the account of the path and its owner, as the tables
name it now. -/
def getBackfillStatus (s : JobsState) (callerId accountId : UUID) (jobId : String)
    (now : Timestamp) (reachable : Bool) : Except ProblemDetail JobStatusResponse :=
  s.jobStatus now reachable jobId
    ((respond callerId (accountOwner callerId accountId) internalError s.db).1.map fun owner =>
      [("grosh.app/job-kind", "monobank_backfill"),
        ("grosh.app/account-id", uuidString accountId), ("grosh.app/user-id", uuidString owner)])
    [] ("Job " ++ pyRepr jobId ++ " not found for account " ++ uuidString accountId ++ ".")

/-- The check of `get_user_reprocess_status`: the user or an admin. -/
def mayViewReprocess (callerId userId : UUID) :
    Program TableName.Row (Except ProblemDetail Unit) := do
  let role ← UserRepo.getRole callerId
  if callerId ≠ userId ∧ role ≠ some .admin then
    return .error ⟨403, "INSUFFICIENT_PERMISSIONS",
      "User " ++ uuidString callerId ++ " cannot view reprocess status for user " ++
        uuidString userId ++ "."⟩
  return .ok ()

/-- `get_user_reprocess_status`: the job has to carry the user of the path. -/
def getUserReprocessStatus (s : JobsState) (callerId userId : UUID)
    (jobId : String) (now : Timestamp) (reachable : Bool) :
    Except ProblemDetail JobStatusResponse :=
  s.jobStatus now reachable jobId
    ((respond callerId (mayViewReprocess callerId userId) internalError s.db).1.map fun _ =>
      [("grosh.app/job-kind", "reprocess"), ("grosh.app/user-id", uuidString userId)])
    [] ("Job " ++ pyRepr jobId ++ " not found for user " ++ uuidString userId ++ ".")

/-- `get_rates_backfill_status`: for admins, about jobs of the kind that carry no user. -/
def getRatesBackfillStatus (s : JobsState) (callerId : UUID) (jobId : String)
    (now : Timestamp) (reachable : Bool) : Except ProblemDetail JobStatusResponse :=
  s.jobStatus now reachable jobId
    ((respond callerId (requireAdmin callerId) internalError s.db).1.map fun _ =>
      [("grosh.app/job-kind", "rates_backfill")])
    ["grosh.app/user-id"] ("Rates backfill job " ++ pyRepr jobId ++ " not found.")

/-- `get_bulk_reprocess_status`: for admins, about reprocess jobs that carry no user. -/
def getBulkReprocessStatus (s : JobsState) (callerId : UUID) (jobId : String)
    (now : Timestamp) (reachable : Bool) : Except ProblemDetail JobStatusResponse :=
  s.jobStatus now reachable jobId
    ((respond callerId (requireAdmin callerId) internalError s.db).1.map fun _ =>
      [("grosh.app/job-kind", "reprocess")])
    ["grosh.app/user-id"] ("Bulk reprocess job " ++ pyRepr jobId ++ " not found.")

/-- What happens next. -/
inductive Label : Type where
  | triggerBackfill (q : BackfillRequest)
  | triggerRates (q : RatesRequest)
  | submitReprocess (q : ReprocessSubmission)
  /-- the job controller writes the status of a job -/
  | report (name inNamespace : String) (status : K8sJobStatus)
  /-- a job is deleted -/
  | expire (name inNamespace : String)
  /-- other requests have changed the tables -/
  | tables (db : Db TableName.Row)

/-- **One step** of the tables, the cluster or a request. The triggers check for an active job and
create theirs in one step, as the service has no `await` that lets another request in between the
two. The controller may report any status, also one it takes back later, and other requests may
leave any tables: what is to be ruled out is said by a condition on the labels, such as
`Faithful`. -/
def step (k8sNamespace : String) (s : JobsState) : Label → Option JobsState
  | .triggerBackfill q => some (s.triggerBackfill k8sNamespace q).2
  | .triggerRates q => some (s.triggerRates k8sNamespace q).2
  | .submitReprocess q => some (s.submitReprocess k8sNamespace q)
  | .report name inNamespace status =>
    some { s with jobs := s.jobs.map (K8sJob.reported name inNamespace status) }
  | .expire name inNamespace =>
    some { s with jobs := s.jobs.filter fun job => !job.isNamed name inNamespace }
  | .tables db => some { s with db }

end JobsState

/-! ## The owner of an account

`accounts` has no policy for admins. The check of the endpoint, which would let an admin through to
every account, is therefore answered from the admin's own rows. -/

section owner

variable {s : Session} {u accountId : UUID} {db : Db TableName.Row}

/-- The account is the user's: there is a row with this id and this owner. -/
def OwnsAccount (db : Db TableName.Row) (userId accountId : UUID) : Prop :=
  ∃ r ∈ db .accounts, r.id = accountId ∧ r.userId = userId

instance : Decidable (OwnsAccount db u accountId) := inferInstanceAs (Decidable (∃ r ∈ _, _))

theorem find?_isOwn_isSome :
    ((db .accounts).find? (AccountRepo.isOwn accountId u)).isSome =
      decide (OwnsAccount db u accountId) := by
  rw [Bool.eq_iff_iff, List.find?_isSome, decide_eq_true_eq, OwnsAccount]
  exact exists_congr fun r => and_congr_right fun _ => by simp [AccountRepo.isOwn]

/-- **Nobody acts on the account of another**: `resolve_account_owner` finds the callers' own
accounts only, for an admin too, who is under the same policy. -/
theorem eval_accountOwner (hu : s.userId = some u) :
    (accountOwner u accountId).eval schema s db =
      some (if OwnsAccount db u accountId then .ok u else .error accountNotFound, db) := by
  have hgetUserId : (AccountRepo.getUserId accountId).eval schema s db =
      some (((db .accounts).find? (AccountRepo.isOwn accountId u)).map fun r => r.userId, db) := by
    have hscope : (fun r : AccountRow => decide (r.userId = u) && decide (r.id = accountId)) =
        AccountRepo.isOwn accountId u := by
      funext r
      rw [AccountRepo.isOwn, Bool.eq_iff_iff]
      simp [and_comm]
    rw [AccountRepo.getUserId, Program.eval_bind, eval_fetch_accounts hu, hscope,
      Option.bind_some, Program.eval_pure, List.head?_filter]
  have hbelongs : (AccountRepo.belongsToUser accountId u).eval schema s db =
      some (decide (OwnsAccount db u accountId), db) := by
    rw [AccountRepo.belongsToUser, Program.eval_bind, eval_fetch_own hu, Option.bind_some,
      Program.eval_pure, ← find?_isOwn_isSome, ← List.head?_filter]
    · cases (db .accounts).filter (AccountRepo.isOwn accountId u) <;> rfl
    · exact fun r hr => congrArg some (of_decide_eq_true hr).2
  rw [accountOwner, Program.eval_bind, eval_getRole hu, Option.bind_some, resolveAccountOwner]
  split
  · rw [Program.eval_bind, hgetUserId, Option.bind_some]
    rcases hr : (db .accounts).find? (AccountRepo.isOwn accountId u) with _ | r
    · have hnot : ¬ OwnsAccount db u accountId := fun ho => by
        have hsome := find?_isOwn_isSome.trans (decide_eq_true ho)
        simp [hr] at hsome
      rw [if_neg hnot]
      rfl
    · have hown : AccountRepo.isOwn accountId u r = true := List.find?_some hr
      have howned : OwnsAccount db u accountId :=
        of_decide_eq_true (find?_isOwn_isSome.symm.trans (by rw [hr]; rfl))
      rw [if_pos howned]
      simp [(of_decide_eq_true hown).2]
  · rw [Program.eval_bind, hbelongs, Option.bind_some]
    by_cases ho : OwnsAccount db u accountId
    · rw [if_pos ho]
      simp [ho]
    · rw [if_neg ho]
      simp [ho]

end owner

/-! ## Where the jobs come from

A job is created by a trigger and then only reported on. What is shown of the jobs of a run goes by
the label that has submitted them. -/

namespace JobsState

variable {k8sNamespace : String} {s s' : JobsState} {labels : List Label} {l : Label}
  {callerId accountId : UUID} {db : Db TableName.Row}

/-- A job was submitted by one of the labels: but for its status it is the job that the trigger
builds from its request. -/
inductive Submitted (k8sNamespace : String) (labels : List Label) (job : K8sJob) : Prop where
  | backfill (q : BackfillRequest) (externalId : String) (integrationId : UUID)
      (hq : Label.triggerBackfill q ∈ labels)
      (hwindow : q.sinceDate < q.untilDate ∧ q.untilDate ≤ q.sinceDate + 31)
      (hjob : { job with status := K8sJob.fresh } =
        backfillJob k8sNamespace q q.callerId externalId integrationId)
  | rates (q : RatesRequest) (hq : Label.triggerRates q ∈ labels)
      (hjob : { job with status := K8sJob.fresh } = ratesJob k8sNamespace q)
  | reprocess (q : ReprocessSubmission) (hq : Label.submitReprocess q ∈ labels)
      (hjob : { job with status := K8sJob.fresh } = reprocessJob k8sNamespace q)

/-- What a trigger does to the cluster: nothing, or a new job. -/
theorem submitUnlessActive_cases {reachable : Bool} {job : K8sJob}
    {selector : List (String × String)} {running : ProblemDetail} :
    (∃ problem, s.submitUnlessActive k8sNamespace reachable job selector running =
      (.error problem, s)) ∨
    s.submitUnlessActive k8sNamespace reachable job selector running =
        (.ok job.name, { s with jobs := s.jobs ++ [job] }) ∧
      (listNamespacedJob s.jobs k8sNamespace selector).any K8sJob.isActive = false ∧
      s.jobs.any (K8sJob.isNamed job.name job.inNamespace) = false := by
  rw [submitUnlessActive]
  split
  · exact Or.inl ⟨_, rfl⟩
  split
  · exact Or.inl ⟨_, rfl⟩
  next hactive =>
  rw [createNamespacedJob]
  rcases hname : s.jobs.any (K8sJob.isNamed job.name job.inNamespace) with _ | _
  · exact Or.inr ⟨rfl, Bool.eq_false_iff.mpr hactive, rfl⟩
  · exact Or.inl ⟨_, rfl⟩

theorem runHandler_fst {α : Type} {handler : Program TableName.Row (Except ProblemDetail α)}
    {refused : ProblemDetail} {session : Session} {answer : Except ProblemDetail α}
    (h : handler.eval schema session db = some (answer, db)) :
    (runHandler session handler refused db).1 = answer := by
  cases answer with
  | ok a => rw [runHandler_ok h]
  | error problem => rw [runHandler_error h]

/-- Who is told the owner of an account: a user who is logged in and active, about an account of
their own. -/
theorem respond_accountOwner {owner : UUID}
    (h : (respond callerId (accountOwner callerId accountId) internalError db).1 = .ok owner) :
    isAuthenticated db callerId = true ∧ owner = callerId ∧ OwnsAccount db callerId accountId := by
  rw [respond_eq] at h
  split at h
  · next ha =>
    rw [runHandler_fst (eval_accountOwner rfl)] at h
    split at h
    · next ho => exact ⟨ha, (Except.ok.inj h).symm, ho⟩
    · cases h
  · cases h

theorem eval_getExternalRef {session : Session} (hu : session.userId = some callerId) :
    ∃ ref, (AccountRepo.getExternalRef accountId callerId).eval schema session db =
        some (ref, db) ∧
      ∀ x, ref = some x → ∃ r ∈ db .accounts, r.id = accountId ∧ r.userId = callerId ∧
        r.externalId = some x.1 ∧ r.integrationId = some x.2 := by
  rw [AccountRepo.getExternalRef, Program.eval_bind, eval_fetch_own hu, Option.bind_some,
    Program.eval_pure]
  · refine ⟨_, rfl, fun x hx => ?_⟩
    obtain ⟨r, hr, hx⟩ := Option.bind_eq_some_iff.mp hx
    obtain ⟨externalId, he, hx⟩ := Option.bind_eq_some_iff.mp hx
    obtain ⟨integrationId, hi, rfl⟩ := Option.map_eq_some_iff.mp hx
    obtain ⟨hmem, hw⟩ := List.mem_filter.mp (List.mem_of_mem_head? hr)
    rw [Bool.and_eq_true] at hw
    obtain ⟨hid, hu⟩ := of_decide_eq_true hw.1
    exact ⟨r, hmem, hid, hu, he, hi⟩
  · intro r hr
    rw [Bool.and_eq_true] at hr
    exact congrArg some (of_decide_eq_true hr.1).2

/-- What a backfill that is accepted was asked for: between one day and 31, of an account of the
caller that is linked to the bank. -/
theorem respond_backfillTarget {q : BackfillRequest} {owner : UUID} {ref : String × UUID}
    (h : (respond q.callerId (backfillTarget q) internalError db).1 = .ok (owner, ref)) :
    (q.sinceDate < q.untilDate ∧ q.untilDate ≤ q.sinceDate + 31) ∧ owner = q.callerId ∧
      isAuthenticated db q.callerId = true ∧ ∃ r ∈ db .accounts, r.id = q.accountId ∧
        r.userId = q.callerId ∧ r.externalId = some ref.1 ∧ r.integrationId = some ref.2 := by
  rw [respond_eq] at h
  split at h
  swap
  · cases h
  next ha =>
  have hanswer : ∀ answer, (backfillTarget q).eval schema
      (callerSession q.callerId ((callerRow db q.callerId).map UserRow.role)) db =
        some (answer, db) → answer = .ok (owner, ref) :=
    fun answer he => (runHandler_fst he).symm.trans h
  by_cases hrange : q.untilDate ≤ q.sinceDate
  · cases hanswer (.error _) (by rw [backfillTarget, if_pos hrange]; rfl)
  by_cases hlong : 31 < q.untilDate - q.sinceDate
  · cases hanswer (.error _) (by rw [backfillTarget, if_neg hrange, if_pos hlong]; rfl)
  by_cases ho : OwnsAccount db q.callerId q.accountId
  swap
  · cases hanswer (.error accountNotFound) (by
      rw [backfillTarget, if_neg hrange, if_neg hlong, Program.eval_bind, eval_accountOwner rfl,
        if_neg ho]
      rfl)
  obtain ⟨found, hfound, hrow⟩ := @eval_getExternalRef q.callerId q.accountId db
    (callerSession q.callerId ((callerRow db q.callerId).map UserRow.role)) rfl
  have hfinal := hanswer (found.elim (.error accountNotFound) fun x => .ok (q.callerId, x)) (by
    rw [backfillTarget, if_neg hrange, if_neg hlong, Program.eval_bind, eval_accountOwner rfl,
      if_pos ho, Option.bind_some, Program.eval_bind, hfound, Option.bind_some]
    cases found <;> rfl)
  rcases found with _ | x
  · cases hfinal
  obtain ⟨rfl, rfl⟩ := Prod.mk.inj (Except.ok.inj hfinal)
  exact ⟨⟨by omega, by omega⟩, rfl, ha, hrow x rfl⟩

/-- The state after a trigger: the same as before, or with one job more that the check has found no
active rival of. -/
theorem triggerBackfill_cases {q : BackfillRequest} :
    (∃ problem, s.triggerBackfill k8sNamespace q = (.error problem, s)) ∨
    ∃ externalId integrationId,
      s.triggerBackfill k8sNamespace q = (.ok q.jobName, { s with
        jobs := s.jobs ++ [backfillJob k8sNamespace q q.callerId externalId integrationId] }) ∧
      (q.sinceDate < q.untilDate ∧ q.untilDate ≤ q.sinceDate + 31) ∧
      (∃ r ∈ s.db .accounts, r.id = q.accountId ∧ r.userId = q.callerId ∧
        r.externalId = some externalId ∧ r.integrationId = some integrationId) ∧
      (listNamespacedJob s.jobs k8sNamespace [managedBy,
        ("grosh.app/job-kind", "monobank_backfill"),
        ("grosh.app/account-id", uuidString q.accountId)]).any K8sJob.isActive = false ∧
      s.jobs.any (K8sJob.isNamed q.jobName k8sNamespace) = false := by
  rw [triggerBackfill]
  rcases hq : (respond q.callerId (backfillTarget q) internalError s.db).1 with
    problem | ⟨owner, externalId, integrationId⟩
  · exact Or.inl ⟨problem, rfl⟩
  obtain ⟨hwindow, rfl, -, hrow⟩ := respond_backfillTarget hq
  rcases submitUnlessActive_cases with hno | ⟨hyes, hactive, hname⟩
  · exact Or.inl hno
  · exact Or.inr ⟨externalId, integrationId, hyes, hwindow, hrow, hactive, hname⟩

theorem triggerRates_cases {q : RatesRequest} :
    (∃ problem, s.triggerRates k8sNamespace q = (.error problem, s)) ∨
    s.triggerRates k8sNamespace q =
        (.ok q.jobName, { s with jobs := s.jobs ++ [ratesJob k8sNamespace q] }) ∧
      (listNamespacedJob s.jobs k8sNamespace (ratesLabels q.source)).any K8sJob.isActive = false ∧
      s.jobs.any (K8sJob.isNamed q.jobName k8sNamespace) = false := by
  rw [triggerRates]
  rcases (respond q.callerId (ratesTarget q) internalError s.db).1 with problem | _
  · exact Or.inl ⟨problem, rfl⟩
  · exact submitUnlessActive_cases

theorem submitReprocess_cases {q : ReprocessSubmission} :
    s.submitReprocess k8sNamespace q = s ∨
    s.submitReprocess k8sNamespace q =
        { s with jobs := s.jobs ++ [reprocessJob k8sNamespace q] } ∧
      s.jobs.any (K8sJob.isNamed q.jobName k8sNamespace) = false := by
  rw [submitReprocess]
  split
  swap
  · exact Or.inl rfl
  rw [createNamespacedJob]
  rcases hname : s.jobs.any
      (K8sJob.isNamed (reprocessJob k8sNamespace q).name
        (reprocessJob k8sNamespace q).inNamespace) with _ | _
  · exact Or.inr ⟨rfl, hname⟩
  · exact Or.inl rfl

/-- **What one step does to the cluster.** -/
theorem step_cases (hs : s.step k8sNamespace l = some s') :
    s'.jobs = s.jobs ∨
    (∃ job, s'.jobs = s.jobs ++ [job] ∧ job.status = K8sJob.fresh ∧
      (∀ labels, l ∈ labels → Submitted k8sNamespace labels job) ∧
      s.jobs.any (K8sJob.isNamed job.name job.inNamespace) = false) ∨
    (∃ name inNamespace status, l = .report name inNamespace status ∧
      s'.jobs = s.jobs.map (K8sJob.reported name inNamespace status)) ∨
    ∃ name inNamespace, l = .expire name inNamespace ∧
      s'.jobs = s.jobs.filter fun job => !job.isNamed name inNamespace := by
  cases l with
  | triggerBackfill q =>
    obtain rfl := Option.some.inj hs
    rcases triggerBackfill_cases with ⟨_, hno⟩ | ⟨x, i, hyes, hwindow, -, -, hname⟩
    · exact Or.inl (by rw [hno])
    · exact Or.inr (Or.inl ⟨backfillJob k8sNamespace q q.callerId x i, by rw [hyes], rfl,
        fun _ hl => .backfill q x i hl hwindow rfl, hname⟩)
  | triggerRates q =>
    obtain rfl := Option.some.inj hs
    rcases triggerRates_cases with ⟨_, hno⟩ | ⟨hyes, -, hname⟩
    · exact Or.inl (by rw [hno])
    · exact Or.inr (Or.inl ⟨ratesJob k8sNamespace q, by rw [hyes], rfl,
        fun _ hl => .rates q hl rfl, hname⟩)
  | submitReprocess q =>
    obtain rfl := Option.some.inj hs
    rcases submitReprocess_cases with hno | ⟨hyes, hname⟩
    · exact Or.inl (by rw [hno])
    · exact Or.inr (Or.inl ⟨reprocessJob k8sNamespace q, by rw [hyes], rfl,
        fun _ hl => .reprocess q hl rfl, hname⟩)
  | report name inNamespace status =>
    obtain rfl := Option.some.inj hs
    exact Or.inr (Or.inr (Or.inl ⟨name, inNamespace, status, rfl, rfl⟩))
  | expire name inNamespace =>
    obtain rfl := Option.some.inj hs
    exact Or.inr (Or.inr (Or.inr ⟨name, inNamespace, rfl, rfl⟩))
  | tables db =>
    obtain rfl := Option.some.inj hs
    exact Or.inl rfl

/-- The status of a job is no part of where it comes from. -/
theorem Submitted.report {job : K8sJob} (h : Submitted k8sNamespace labels job)
    (status : K8sJobStatus) : Submitted k8sNamespace labels { job with status } := by
  cases h with
  | backfill q x i hq hw hj => exact .backfill q x i hq hw hj
  | rates q hq hj => exact .rates q hq hj
  | reprocess q hq hj => exact .reprocess q hq hj

theorem Submitted.inNamespace_eq {job : K8sJob} (h : Submitted k8sNamespace labels job) :
    job.inNamespace = k8sNamespace := by
  cases h with
  | backfill q x i hq hw hj => exact congrArg K8sJob.inNamespace hj
  | rates q hq hj => exact congrArg K8sJob.inNamespace hj
  | reprocess q hq hj => exact congrArg K8sJob.inNamespace hj

/-- Every job of the cluster comes from a request of the run: a step adds a job of its own label, or
adds none. -/
theorem submitted_step (h : ∀ job ∈ s.jobs, Submitted k8sNamespace labels job)
    (hl : l ∈ labels) (hs : s.step k8sNamespace l = some s') :
    ∀ job ∈ s'.jobs, Submitted k8sNamespace labels job := by
  intro job hjob
  rcases step_cases hs with heq | ⟨new, heq, -, hnew, -⟩ | ⟨name, ns, status, -, heq⟩ |
    ⟨name, ns, -, heq⟩
  · exact h job (heq ▸ hjob)
  · rw [heq] at hjob
    rcases List.mem_append.mp hjob with hjob | hjob
    · exact h job hjob
    · exact List.mem_singleton.mp hjob ▸ hnew labels hl
  · rw [heq] at hjob
    obtain ⟨job₀, hjob₀, rfl⟩ := List.mem_map.mp hjob
    rw [K8sJob.reported]
    split
    · exact (h job₀ hjob₀).report status
    · exact h job₀ hjob₀
  · rw [heq] at hjob
    exact h job (List.mem_of_mem_filter hjob)

theorem submitted_of_exec (hrun : exec (step k8sNamespace) ⟨db, []⟩ labels = some s) :
    ∀ job ∈ s.jobs, Submitted k8sNamespace labels job := by
  have hstep : ∀ s l s', (∀ job ∈ s.jobs, Submitted k8sNamespace labels job) → l ∈ labels →
      step k8sNamespace s l = some s' → ∀ job ∈ s'.jobs, Submitted k8sNamespace labels job :=
    fun _ _ _ h hl hs => submitted_step h hl hs
  exact exec_invariant_along hstep (fun _ hjob => by cases hjob)
    (along_of_labels fun _ hl => hl) hrun

/-! ## Who is told a status

The labels decide. They say who has submitted a job and for what, since only the triggers write
them, and a status endpoint asks for exactly those its caller may see. -/

/-- A status that is answered is that of a job with the labels its endpoint expects. -/
theorem jobStatus_eq_ok {now : Timestamp} {reachable : Bool} {jobId missing : String}
    {α : Type} {allowed : Except ProblemDetail α} {selector : α → List (String × String)}
    {absent : List String} {response : JobStatusResponse}
    (h : s.jobStatus now reachable jobId (allowed.map selector) absent missing = .ok response) :
    ∃ a, allowed = .ok a ∧ ∃ job ∈ s.jobs, job.name = jobId ∧
      job.selectedBy (selector a) = true ∧ (∀ key ∈ absent, job.labels.lookup key = none) ∧
      response = mapJobToResponse now job := by
  cases allowed with
  | error problem => cases h
  | ok a =>
    rw [Except.map, jobStatus] at h
    rcases reachable with _ | _
    · cases h
    rcases hf : fetchStatus s.jobs now jobId (selector a) absent with _ | r
    · simp [hf] at h
    obtain ⟨job, hjob, hr⟩ := Option.bind_eq_some_iff.mp hf
    have hnamed : K8sJob.isNamed jobId "grosh" job = true := List.find?_some hjob
    obtain ⟨hname, -⟩ := of_decide_eq_true hnamed
    split at hr
    swap
    · cases hr
    next hlabels =>
    rw [Bool.and_eq_true, List.all_eq_true] at hlabels
    refine ⟨a, rfl, job, List.mem_of_find?_eq_some hjob, hname, hlabels.1,
      fun key hkey => Option.isNone_iff_eq_none.mp (hlabels.2 key hkey), ?_⟩
    simp only [hf] at h
    exact (Except.ok.inj h).symm.trans (Option.some.inj hr).symm

theorem uuidString_inj {a b : UUID} (ha : a < 2 ^ 128) (hb : b < 2 ^ 128)
    (h : uuidString a = uuidString b) : a = b := by
  have htext : uuidText a = uuidText b := String.ofList_injective h
  have hparse := parseUuid_uuidText ha
  rw [htext, parseUuid_uuidText hb] at hparse
  exact (Option.some.inj hparse).symm

/-- The label keys of the service are different from each other, so that each of them can be looked
up. -/
theorem lookup_backfillLabels {u : UUID} :
    (backfillLabels accountId u).lookup "grosh.app/job-kind" = some "monobank_backfill" ∧
      (backfillLabels accountId u).lookup "grosh.app/account-id" = some (uuidString accountId) ∧
      (backfillLabels accountId u).lookup "grosh.app/user-id" = some (uuidString u) :=
  ⟨rfl, rfl, rfl⟩

theorem lookup_ratesLabels {source : String} :
    (ratesLabels source).lookup "grosh.app/job-kind" = some "rates_backfill" := rfl

theorem lookup_reprocessLabels {caller : Option UUID} :
    (reprocessLabels caller).lookup "grosh.app/job-kind" = some "reprocess" ∧
      (reprocessLabels caller).lookup "grosh.app/user-id" = caller.map uuidString := by
  cases caller <;> exact ⟨rfl, rfl⟩

/-- What the kind of a job says about where it comes from: the three triggers use three kinds. -/
theorem Submitted.of_kind {job : K8sJob} {kind : String}
    (h : Submitted k8sNamespace labels job)
    (hk : job.labels.lookup "grosh.app/job-kind" = some kind) :
    (kind = "monobank_backfill" ∧ ∃ q, Label.triggerBackfill q ∈ labels ∧ job.name = q.jobName ∧
      job.labels = backfillLabels q.accountId q.callerId) ∨
    (kind = "rates_backfill" ∧ ∃ q, Label.triggerRates q ∈ labels ∧ job.name = q.jobName ∧
      job.labels = ratesLabels q.source) ∨
    kind = "reprocess" ∧ ∃ q, Label.submitReprocess q ∈ labels ∧ job.name = q.jobName ∧
      job.labels = reprocessLabels q.callerUserId := by
  cases h with
  | backfill q x i hq hw hj =>
    have hlabels : job.labels = backfillLabels q.accountId q.callerId :=
      congrArg K8sJob.labels hj
    rw [hlabels, lookup_backfillLabels.1] at hk
    exact Or.inl ⟨(Option.some.inj hk).symm, q, hq, congrArg K8sJob.name hj, hlabels⟩
  | rates q hq hj =>
    have hlabels : job.labels = ratesLabels q.source := congrArg K8sJob.labels hj
    rw [hlabels, lookup_ratesLabels] at hk
    exact Or.inr (Or.inl ⟨(Option.some.inj hk).symm, q, hq, congrArg K8sJob.name hj, hlabels⟩)
  | reprocess q hq hj =>
    have hlabels : job.labels = reprocessLabels q.callerUserId := congrArg K8sJob.labels hj
    rw [hlabels, lookup_reprocessLabels.1] at hk
    exact Or.inr (Or.inr ⟨(Option.some.inj hk).symm, q, hq, congrArg K8sJob.name hj, hlabels⟩)

theorem Submitted.of_backfill {job : K8sJob} (h : Submitted k8sNamespace labels job)
    (hk : job.labels.lookup "grosh.app/job-kind" = some "monobank_backfill") :
    ∃ q, Label.triggerBackfill q ∈ labels ∧ job.name = q.jobName ∧
      job.labels = backfillLabels q.accountId q.callerId := by
  rcases h.of_kind hk with ⟨-, hq⟩ | ⟨hne, -⟩ | ⟨hne, -⟩
  · exact hq
  · exact absurd hne (by decide)
  · exact absurd hne (by decide)

theorem Submitted.of_rates {job : K8sJob} (h : Submitted k8sNamespace labels job)
    (hk : job.labels.lookup "grosh.app/job-kind" = some "rates_backfill") :
    ∃ q, Label.triggerRates q ∈ labels ∧ job.name = q.jobName ∧
      job.labels = ratesLabels q.source := by
  rcases h.of_kind hk with ⟨hne, -⟩ | ⟨-, hq⟩ | ⟨hne, -⟩
  · exact absurd hne (by decide)
  · exact hq
  · exact absurd hne (by decide)

theorem Submitted.of_reprocess {job : K8sJob} (h : Submitted k8sNamespace labels job)
    (hk : job.labels.lookup "grosh.app/job-kind" = some "reprocess") :
    ∃ q, Label.submitReprocess q ∈ labels ∧ job.name = q.jobName ∧
      job.labels = reprocessLabels q.callerUserId := by
  rcases h.of_kind hk with ⟨hne, -⟩ | ⟨hne, -⟩ | ⟨-, hq⟩
  · exact absurd hne (by decide)
  · exact absurd hne (by decide)
  · exact hq

/-- The caller is there, active and an admin: the row is read again with every request. -/
def IsAdmin (db : Db TableName.Row) (userId : UUID) : Prop :=
  isAuthenticated db userId = true ∧ (callerRow db userId).map UserRow.role = some .admin

theorem respond_requireAdmin
    (h : (respond callerId (requireAdmin callerId) internalError db).1 = .ok ()) :
    IsAdmin db callerId := by
  rw [respond_eq] at h
  split at h
  swap
  · cases h
  next ha =>
  by_cases hr : (callerRow db callerId).map UserRow.role = some .admin
  · exact ⟨ha, hr⟩
  · have heval : (requireAdmin callerId).eval schema
        (callerSession callerId ((callerRow db callerId).map UserRow.role)) db =
          some (.error ⟨403, "INSUFFICIENT_PERMISSIONS", "Admin role required."⟩, db) := by
      rw [requireAdmin, Program.eval_bind, eval_getRole rfl, Option.bind_some, if_pos hr]
      rfl
    rw [runHandler_fst heval] at h
    cases h

theorem respond_mayViewReprocess {userId : UUID}
    (h : (respond callerId (mayViewReprocess callerId userId) internalError db).1 = .ok ()) :
    callerId = userId ∨ IsAdmin db callerId := by
  rw [respond_eq] at h
  split at h
  swap
  · cases h
  next ha =>
  by_cases hu : callerId = userId
  · exact Or.inl hu
  by_cases hr : (callerRow db callerId).map UserRow.role = some .admin
  · exact Or.inr ⟨ha, hr⟩
  · have heval : (mayViewReprocess callerId userId).eval schema
        (callerSession callerId ((callerRow db callerId).map UserRow.role)) db =
          some (.error ⟨403, "INSUFFICIENT_PERMISSIONS",
            "User " ++ uuidString callerId ++ " cannot view reprocess status for user " ++
              uuidString userId ++ "."⟩, db) := by
      rw [mayViewReprocess, Program.eval_bind, eval_getRole rfl, Option.bind_some,
        if_pos ⟨hu, hr⟩]
      rfl
    rw [runHandler_fst heval] at h
    cases h

/-- Identifiers are 128 bits: two of them with the same text are the same. -/
def Label.IdsFit : Label → Prop
  | .triggerBackfill q => q.callerId < 2 ^ 128 ∧ q.accountId < 2 ^ 128
  | .submitReprocess q => ∀ u ∈ q.callerUserId, u < 2 ^ 128
  | _ => True

/-- **A status is told to those the job is for**: in every run from an empty cluster, who is
answered the status of a backfill owns the account and has submitted the job, an admin as anybody
else; who is answered the status of a user's reprocess is the user or an admin; the rates jobs and
the bulk jobs are shown to admins. The job is of the kind that was asked for. -/
theorem status_only_to_entitled (hrun : exec (step k8sNamespace) ⟨db, []⟩ labels = some s)
    (hids : ∀ l ∈ labels, l.IdsFit) (hcaller : callerId < 2 ^ 128) (jobId : String)
    (now : Timestamp) (reachable : Bool) (response : JobStatusResponse) :
    (∀ accountId, accountId < 2 ^ 128 →
      s.getBackfillStatus callerId accountId jobId now reachable = .ok response →
        response.kind = .monobankBackfill ∧ OwnsAccount s.db callerId accountId ∧
          ∃ q, Label.triggerBackfill q ∈ labels ∧ q.jobName = jobId ∧ q.callerId = callerId ∧
            q.accountId = accountId) ∧
    (∀ userId, userId < 2 ^ 128 →
      s.getUserReprocessStatus callerId userId jobId now reachable = .ok response →
        response.kind = .reprocess ∧ (callerId = userId ∨ IsAdmin s.db callerId) ∧
          ∃ q, Label.submitReprocess q ∈ labels ∧ q.jobName = jobId ∧
            q.callerUserId = some userId) ∧
    (s.getRatesBackfillStatus callerId jobId now reachable = .ok response →
      response.kind = .ratesBackfill ∧ IsAdmin s.db callerId ∧
        ∃ q, Label.triggerRates q ∈ labels ∧ q.jobName = jobId) ∧
    (s.getBulkReprocessStatus callerId jobId now reachable = .ok response →
      response.kind = .reprocess ∧ IsAdmin s.db callerId ∧
        ∃ q, Label.submitReprocess q ∈ labels ∧ q.jobName = jobId ∧ q.callerUserId = none) := by
  have hall := submitted_of_exec hrun
  have hkind : ∀ {job : K8sJob} {kind : String},
      job.labels.lookup "grosh.app/job-kind" = some kind →
        (mapJobToResponse now job).kind = kindOf kind := by
    intro job kind hk
    simp [mapJobToResponse, hk]
  -- the two endpoints for admins: a kind, and no user label
  have hadmin : ∀ {kind missing : String}, s.jobStatus now reachable jobId
      ((respond callerId (requireAdmin callerId) internalError s.db).1.map fun _ =>
        [("grosh.app/job-kind", kind)]) ["grosh.app/user-id"] missing = .ok response →
      IsAdmin s.db callerId ∧ ∃ job ∈ s.jobs, job.name = jobId ∧
        job.labels.lookup "grosh.app/job-kind" = some kind ∧
        job.labels.lookup "grosh.app/user-id" = none ∧ response = mapJobToResponse now job := by
    intro kind missing h
    obtain ⟨_, ho, job, hjob, hname, hsel, habsent, rfl⟩ := jobStatus_eq_ok h
    simp only [K8sJob.selectedBy, List.all_cons, List.all_nil, Bool.and_true,
      decide_eq_true_eq] at hsel
    exact ⟨respond_requireAdmin ho, job, hjob, hname, hsel,
      habsent _ (List.mem_singleton_self _), rfl⟩
  refine ⟨fun accountId haccount h => ?_, fun userId huser h => ?_, fun h => ?_, fun h => ?_⟩
  · obtain ⟨owner, ho, job, hjob, hname, hsel, -, rfl⟩ := jobStatus_eq_ok h
    obtain ⟨-, rfl, howned⟩ := respond_accountOwner ho
    simp only [K8sJob.selectedBy, List.all_cons, List.all_nil, Bool.and_true, Bool.and_eq_true,
      decide_eq_true_eq] at hsel
    obtain ⟨hk, ha, hu⟩ := hsel
    obtain ⟨q, hq, hn, hl⟩ := (hall job hjob).of_backfill hk
    rw [hl, lookup_backfillLabels.2.1] at ha
    rw [hl, lookup_backfillLabels.2.2] at hu
    have hfit : q.callerId < 2 ^ 128 ∧ q.accountId < 2 ^ 128 := hids _ hq
    exact ⟨hkind hk, howned, q, hq, hn.symm.trans hname,
      uuidString_inj hfit.1 hcaller (Option.some.inj hu),
      uuidString_inj hfit.2 haccount (Option.some.inj ha)⟩
  · obtain ⟨_, ho, job, hjob, hname, hsel, -, rfl⟩ := jobStatus_eq_ok h
    simp only [K8sJob.selectedBy, List.all_cons, List.all_nil, Bool.and_true, Bool.and_eq_true,
      decide_eq_true_eq] at hsel
    obtain ⟨hk, hu⟩ := hsel
    obtain ⟨q, hq, hn, hl⟩ := (hall job hjob).of_reprocess hk
    rw [hl, lookup_reprocessLabels.2] at hu
    obtain ⟨u, hu', huu⟩ := Option.map_eq_some_iff.mp hu
    have hfit : ∀ u ∈ q.callerUserId, u < 2 ^ 128 := hids _ hq
    obtain rfl := uuidString_inj (hfit u hu') huser huu
    exact ⟨hkind hk, respond_mayViewReprocess ho, q, hq, hn.symm.trans hname, hu'⟩
  · obtain ⟨hrole, job, hjob, hname, hk, -, rfl⟩ := hadmin h
    obtain ⟨q, hq, hn, -⟩ := (hall job hjob).of_rates hk
    exact ⟨hkind hk, hrole, q, hq, hn.symm.trans hname⟩
  · obtain ⟨hrole, job, hjob, hname, hk, hnone, rfl⟩ := hadmin h
    obtain ⟨q, hq, hn, hl⟩ := (hall job hjob).of_reprocess hk
    rw [hl, lookup_reprocessLabels.2] at hnone
    exact ⟨hkind hk, hrole, q, hq, hn.symm.trans hname, Option.map_eq_none_iff.mp hnone⟩

/-- The first member's bank account is linked. -/
def sampleLinkedTables : Db TableName.Row :=
  Function.update sampleTables .accounts
    ((sampleTables .accounts).map fun r => { r with integrationId := some 21 })

/-- A month of that account. -/
def sampleBackfill (name : String) : BackfillRequest :=
  ⟨1, 11, some 0, some 31, 40, name, 5, true⟩

/-- The month is asked for twice, and the first job fails once. The second request is refused, since
the first job is still active. -/
def sampleJobLabels : List Label :=
  [.triggerBackfill (sampleBackfill "b"), .triggerBackfill (sampleBackfill "c"),
    .report "b" "grosh" ⟨some 1, none, some 1, none, []⟩]

/-- There is one job, which the controller has reported to have failed once and to run again. -/
def sampleJobs : JobsState :=
  ⟨sampleLinkedTables, [{ backfillJob "grosh" (sampleBackfill "b") 1 "x" 21 with
    status := ⟨some 1, none, some 1, none, []⟩ }]⟩

theorem status_only_to_entitled_owner : ∃ response,
    sampleJobs.getBackfillStatus 1 11 "b" 9 true = .ok response ∧
      response.kind = .monobankBackfill ∧ OwnsAccount sampleJobs.db 1 11 := by
  refine ⟨mapJobToResponse 9 (sampleJobs.jobs.head (by decide)), rfl, ?_⟩
  have hrun : exec (step "grosh") ⟨sampleLinkedTables, []⟩ sampleJobLabels = some sampleJobs := rfl
  have hids : ∀ l ∈ sampleJobLabels, l.IdsFit := by
    simp [sampleJobLabels, Label.IdsFit, sampleBackfill]
  obtain ⟨hkind, howned, -⟩ := (status_only_to_entitled hrun hids (by decide : 1 < 2 ^ 128) "b" 9
    true (mapJobToResponse 9 (sampleJobs.jobs.head (by decide)))).1 11 (by decide) rfl
  exact ⟨hkind, howned⟩

/-! ## One backfill at a time

The check looks for jobs that have not completed and have not failed as often as their backoff
limit. A job at its last attempt is neither, though it still runs: that is the only gap, and
everything else about the check is exact. -/

/-- The selector of the backfills of an account, whoever has submitted them. -/
def backfillSelector (account : String) : List (String × String) :=
  [managedBy, ("grosh.app/job-kind", "monobank_backfill"), ("grosh.app/account-id", account)]

/-- What a trigger looks for: the backfills of an account, or those of a rate source. -/
def IsBackfillSelector (selector : List (String × String)) : Prop :=
  (∃ account, selector = backfillSelector account) ∨ ∃ source, selector = ratesLabels source

/-- The unfinished jobs of a selector: those the controller may still start pods of. -/
def unfinishedJobs (s : JobsState) (k8sNamespace : String) (selector : List (String × String)) :
    List K8sJob :=
  (listNamespacedJob s.jobs k8sNamespace selector).filter fun job => !job.isFinished

/-- The jobs of a selector that have an active pod: those that ask the bank at this moment. -/
def runningJobs (s : JobsState) (k8sNamespace : String) (selector : List (String × String)) :
    List K8sJob :=
  (listNamespacedJob s.jobs k8sNamespace selector).filter K8sJob.hasActivePod

/-- No account and no rate source has two unfinished backfills. -/
def OneUnfinished (k8sNamespace : String) (s : JobsState) : Prop :=
  ∀ selector, IsBackfillSelector selector → (s.unfinishedJobs k8sNamespace selector).length ≤ 1

/-- No account and no rate source has two backfills with an active pod. -/
def OneRunning (k8sNamespace : String) (s : JobsState) : Prop :=
  ∀ selector, IsBackfillSelector selector → (s.runningJobs k8sNamespace selector).length ≤ 1

/-- A job of the selector is at its last attempt: the check passes over it. -/
def AtLastAttempt (s : JobsState) (k8sNamespace : String) (selector : List (String × String)) :
    Prop :=
  ∃ job ∈ listNamespacedJob s.jobs k8sNamespace selector, job.isAtLastAttempt = true

/-- The job controller does not take up a finished job again, and a job it reports as finished has
no active pod. -/
def Faithful (s : JobsState) : Label → Prop
  | .report name inNamespace status => ∀ job ∈ s.jobs, job.isNamed name inNamespace = true →
    (job.isFinished = true → { job with status }.isFinished = true) ∧
      ({ job with status }.isFinished = true → { job with status }.hasActivePod = false)
  | _ => True

/-- The step accepts no backfill while one of the account, or of the rate source, is at its last
attempt. -/
def NotLate (k8sNamespace : String) (s : JobsState) : Label → Prop
  | .triggerBackfill q => (s.triggerBackfill k8sNamespace q).1.isOk = true →
    ¬ s.AtLastAttempt k8sNamespace (backfillSelector (uuidString q.accountId))
  | .triggerRates q => (s.triggerRates k8sNamespace q).1.isOk = true →
    ¬ s.AtLastAttempt k8sNamespace (ratesLabels q.source)
  | _ => True

/-- No finished job has an active pod. -/
def FinishedIdle (s : JobsState) : Prop :=
  ∀ job ∈ s.jobs, job.isFinished = true → job.hasActivePod = false

theorem selectedBy_backfillLabels {job : K8sJob} {u : UUID} {selector : List (String × String)}
    (hsel : IsBackfillSelector selector) (hl : job.labels = backfillLabels accountId u) :
    job.selectedBy selector = true ↔ selector = backfillSelector (uuidString accountId) := by
  rcases hsel with ⟨account, rfl⟩ | ⟨source, rfl⟩
  · simp [K8sJob.selectedBy, hl, backfillSelector, backfillLabels, managedBy, List.lookup_cons,
      eq_comm]
  · simp [K8sJob.selectedBy, hl, backfillSelector, ratesLabels, backfillLabels, managedBy,
      List.lookup_cons]

theorem selectedBy_ratesLabels {job : K8sJob} {source : String} {selector : List (String × String)}
    (hsel : IsBackfillSelector selector) (hl : job.labels = ratesLabels source) :
    job.selectedBy selector = true ↔ selector = ratesLabels source := by
  rcases hsel with ⟨account, rfl⟩ | ⟨source', rfl⟩
  · simp [K8sJob.selectedBy, hl, backfillSelector, ratesLabels, managedBy, List.lookup_cons]
  · simp [K8sJob.selectedBy, hl, ratesLabels, managedBy, List.lookup_cons, eq_comm]

theorem selectedBy_reprocessLabels {job : K8sJob} {caller : Option UUID}
    {selector : List (String × String)} (hsel : IsBackfillSelector selector)
    (hl : job.labels = reprocessLabels caller) : job.selectedBy selector = false := by
  have hkind : job.labels.lookup "grosh.app/job-kind" = some "reprocess" :=
    hl ▸ lookup_reprocessLabels.1
  rcases hsel with ⟨account, rfl⟩ | ⟨source, rfl⟩
  · simp [K8sJob.selectedBy, hkind, backfillSelector]
  · simp [K8sJob.selectedBy, hkind, ratesLabels]

/-- A new job counts where it is selected: it has just been created and is not finished. -/
theorem unfinishedJobs_append {job : K8sJob} {selector : List (String × String)}
    (hin : job.inNamespace = k8sNamespace) (hfresh : job.status = K8sJob.fresh) :
    ({ s with jobs := s.jobs ++ [job] } : JobsState).unfinishedJobs k8sNamespace selector =
      s.unfinishedJobs k8sNamespace selector ++
        if job.selectedBy selector = true then [job] else [] := by
  have hunfinished : job.isFinished = false := by simp [K8sJob.isFinished, hfresh, K8sJob.fresh]
  simp only [unfinishedJobs, listNamespacedJob, List.filter_append]
  congr 1
  by_cases hjob : job.selectedBy selector = true <;> simp [hjob, hin, hunfinished]

/-- **A job that is added** where the check has found none active: it is the only unfinished one
exactly if none is at its last attempt. -/
theorem oneUnfinished_append (h : OneUnfinished k8sNamespace s) {job : K8sJob}
    (hin : job.inNamespace = k8sNamespace) (hfresh : job.status = K8sJob.fresh)
    {selector : List (String × String)} (hsel : IsBackfillSelector selector)
    (hselected : ∀ selector', IsBackfillSelector selector' →
      (job.selectedBy selector' = true ↔ selector' = selector))
    (hguard : (listNamespacedJob s.jobs k8sNamespace selector).any K8sJob.isActive = false) :
    OneUnfinished k8sNamespace { s with jobs := s.jobs ++ [job] } ↔
      ¬ s.AtLastAttempt k8sNamespace selector := by
  constructor
  · rintro hone ⟨job', hjob', hlast⟩
    have hlength := hone selector hsel
    rw [unfinishedJobs_append hin hfresh, if_pos ((hselected selector hsel).mpr rfl),
      List.length_append, List.length_singleton] at hlength
    have hmem : job' ∈ s.unfinishedJobs k8sNamespace selector :=
      List.mem_filter.mpr ⟨hjob', by simp [(K8sJob.isAtLastAttempt_iff.mp hlast).1]⟩
    have hpos := List.length_pos_of_mem hmem
    omega
  · intro hno selector' hsel'
    rw [unfinishedJobs_append hin hfresh, List.length_append]
    by_cases heq : selector' = selector
    · subst heq
      have hnone : s.unfinishedJobs k8sNamespace selector' = [] := by
        refine List.filter_eq_nil_iff.mpr fun job' hjob' hunfinished => hno ⟨job', hjob', ?_⟩
        have hinactive : job'.isActive = false := by
          simpa using List.any_eq_false.mp hguard job' hjob'
        exact K8sJob.isAtLastAttempt_iff.mpr ⟨by simpa using hunfinished, hinactive⟩
      rw [hnone, if_pos ((hselected selector' hsel').mpr rfl)]
      exact Nat.le_refl 1
    · rw [if_neg fun hjob => heq ((hselected selector' hsel').mp hjob)]
      exact h selector' hsel'

/-- A report finishes jobs and takes up none: the number of those that are unfinished does not
grow. -/
theorem oneUnfinished_report (h : OneUnfinished k8sNamespace s) {name inNamespace : String}
    {status : K8sJobStatus} (hf : s.Faithful (.report name inNamespace status)) :
    OneUnfinished k8sNamespace
      { s with jobs := s.jobs.map (K8sJob.reported name inNamespace status) } := by
  intro selector hsel
  refine Nat.le_trans ?_ (h selector hsel)
  have hkept : ∀ job : K8sJob,
      (decide ((job.reported name inNamespace status).inNamespace = k8sNamespace) &&
        (job.reported name inNamespace status).selectedBy selector) =
      (decide (job.inNamespace = k8sNamespace) && job.selectedBy selector) := by
    intro job
    rw [K8sJob.reported]
    split <;> rfl
  have hlisted : listNamespacedJob (s.jobs.map (K8sJob.reported name inNamespace status))
      k8sNamespace selector = (listNamespacedJob s.jobs k8sNamespace selector).map
        (K8sJob.reported name inNamespace status) := by
    rw [listNamespacedJob, List.filter_map]
    exact congrArg _ (List.filter_congr fun job _ => hkept job)
  rw [unfinishedJobs, hlisted, unfinishedJobs, List.filter_map, List.length_map,
    ← List.countP_eq_length_filter, ← List.countP_eq_length_filter]
  apply List.countP_mono_left
  intro job hjob hunfinished
  rw [Function.comp_apply, K8sJob.reported] at hunfinished
  split at hunfinished
  · next hnamed =>
    have hfinished := (hf job (List.mem_of_mem_filter hjob) hnamed).1
    rw [Bool.not_eq_true'] at hunfinished ⊢
    exact Bool.eq_false_iff.mpr fun hf' => absurd (hfinished hf') (by simp [hunfinished])
  · exact hunfinished

/-- **What one step does to the unfinished jobs**: there is still one at most, exactly if the step
accepts no backfill too late. -/
theorem oneUnfinished_step_iff (h : OneUnfinished k8sNamespace s) (hf : s.Faithful l)
    (hs : s.step k8sNamespace l = some s') :
    OneUnfinished k8sNamespace s' ↔ NotLate k8sNamespace s l := by
  cases l with
  | triggerBackfill q =>
    obtain rfl := Option.some.inj hs
    simp only [NotLate]
    rcases triggerBackfill_cases with ⟨_, hno⟩ | ⟨x, i, hyes, -, -, hguard, -⟩
    · rw [hno]
      exact iff_of_true h fun hok => by cases hok
    · rw [hyes, oneUnfinished_append h rfl rfl (Or.inl ⟨_, rfl⟩)
        (fun _ hsel => selectedBy_backfillLabels hsel rfl) hguard]
      exact ⟨fun hno _ => hno, fun hno => hno rfl⟩
  | triggerRates q =>
    obtain rfl := Option.some.inj hs
    simp only [NotLate]
    rcases triggerRates_cases with ⟨_, hno⟩ | ⟨hyes, hguard, -⟩
    · rw [hno]
      exact iff_of_true h fun hok => by cases hok
    · rw [hyes, oneUnfinished_append h rfl rfl (Or.inr ⟨_, rfl⟩)
        (fun _ hsel => selectedBy_ratesLabels hsel rfl) hguard]
      exact ⟨fun hno _ => hno, fun hno => hno rfl⟩
  | submitReprocess q =>
    obtain rfl := Option.some.inj hs
    refine iff_of_true ?_ trivial
    rcases submitReprocess_cases with hno | ⟨hyes, -⟩
    · rwa [hno]
    · intro selector hsel
      have hin : (reprocessJob k8sNamespace q).inNamespace = k8sNamespace := rfl
      have hlabels : (reprocessJob k8sNamespace q).labels = reprocessLabels q.callerUserId := rfl
      rw [hyes, unfinishedJobs_append hin rfl, selectedBy_reprocessLabels hsel hlabels,
        if_neg Bool.false_ne_true, List.append_nil]
      exact h selector hsel
  | report name inNamespace status =>
    obtain rfl := Option.some.inj hs
    exact iff_of_true (oneUnfinished_report h hf) trivial
  | expire name inNamespace =>
    obtain rfl := Option.some.inj hs
    refine iff_of_true (fun selector hsel => Nat.le_trans ?_ (h selector hsel)) trivial
    exact ((List.filter_sublist.filter _).filter _).length_le
  | tables db =>
    obtain rfl := Option.some.inj hs
    exact iff_of_true h trivial

theorem finishedIdle_step (h : FinishedIdle s) (hf : s.Faithful l)
    (hs : s.step k8sNamespace l = some s') : FinishedIdle s' := by
  intro job hjob hfinished
  rcases step_cases hs with heq | ⟨new, heq, hfresh, -⟩ | ⟨name, ns, status, rfl, heq⟩ |
    ⟨name, ns, -, heq⟩ <;> rw [heq] at hjob
  · exact h job hjob hfinished
  · rcases List.mem_append.mp hjob with hjob | hjob
    · exact h job hjob hfinished
    · rw [List.mem_singleton.mp hjob, K8sJob.hasActivePod, hfresh]
      rfl
  · obtain ⟨job₀, hjob₀, rfl⟩ := List.mem_map.mp hjob
    rw [K8sJob.reported] at hfinished ⊢
    split at hfinished
    · next hnamed =>
      rw [if_pos hnamed]
      exact (hf job₀ hjob₀ hnamed).2 hfinished
    · next hnamed =>
      rw [if_neg hnamed]
      exact h job₀ hjob₀ hfinished
  · exact h job (List.mem_of_mem_filter hjob) hfinished

/-- A job with an active pod is unfinished, so that one unfinished job at most is one running at
most. -/
theorem oneRunning_of_oneUnfinished (hidle : FinishedIdle s) (h : OneUnfinished k8sNamespace s) :
    OneRunning k8sNamespace s := by
  intro selector hsel
  refine Nat.le_trans ?_ (h selector hsel)
  rw [runningJobs, unfinishedJobs, ← List.countP_eq_length_filter,
    ← List.countP_eq_length_filter]
  apply List.countP_mono_left
  intro job hjob hactive
  have hunfinished := mt (hidle job (List.mem_of_mem_filter hjob)) (by simp [hactive])
  rw [Bool.not_eq_true', ← Bool.not_eq_true]
  exact hunfinished

/-- **One backfill at a time**: let the job controller take up no finished job again. In a run from
an empty cluster no account, and no rate source, ever has two unfinished backfills exactly if no
backfill is accepted while one of the same account, or of the same source, is at its last attempt:
`_has_active_job` counts the failures up to the backoff limit, and the controller starts one pod
more. In such a run never more than one of them has an active pod. -/
theorem one_unfinished_iff
    (hfaithful : Along (step k8sNamespace) Faithful ⟨db, []⟩ labels) :
    (Always (step k8sNamespace) (OneUnfinished k8sNamespace) ⟨db, []⟩ labels ↔
      Along (step k8sNamespace) (NotLate k8sNamespace) ⟨db, []⟩ labels) ∧
    (Along (step k8sNamespace) (NotLate k8sNamespace) ⟨db, []⟩ labels →
      Always (step k8sNamespace) (OneRunning k8sNamespace) ⟨db, []⟩ labels) := by
  have hstart : OneUnfinished k8sNamespace ⟨db, []⟩ := fun _ _ => Nat.zero_le 1
  have hidle : FinishedIdle ⟨db, []⟩ := fun _ hjob => by cases hjob
  refine ⟨always_iff_along_given (I := FinishedIdle) (D := Faithful)
    (fun _ _ _ h _ hf hs => finishedIdle_step h hf hs)
    (fun _ _ _ _ h hf hs => oneUnfinished_step_iff h hf hs) (fun s l hs => ?_) hidle hstart
    hfaithful, fun hlate => ?_⟩
  · cases l <;> cases hs
  · have hboth := hfaithful.and hlate
    refine always_of_along (I := fun s => FinishedIdle s ∧ OneUnfinished k8sNamespace s)
      (fun _ _ _ h hC hs => ?_) (fun _ h => oneRunning_of_oneUnfinished h.1 h.2)
      ⟨hidle, hstart⟩ hboth
    exact ⟨finishedIdle_step h.1 hC.1 hs, (oneUnfinished_step_iff h.2 hC.1 hs).mpr hC.2⟩

instance : DecidableRel Faithful := fun s l => by
  cases l <;> (simp only [Faithful]; infer_instance)

instance (s : JobsState) (selector : List (String × String)) :
    Decidable (s.AtLastAttempt k8sNamespace selector) :=
  inferInstanceAs (Decidable (∃ job ∈ _, _))

instance : DecidableRel (NotLate k8sNamespace) := fun s l => by
  cases l <;> (simp only [NotLate]; infer_instance)

/-- The first job has failed three times and runs for the fourth time when a second is asked for. -/
def sampleLateLabels : List Label :=
  [.triggerBackfill (sampleBackfill "b"), .report "b" "grosh" ⟨some 1, none, some 3, none, []⟩,
    .triggerBackfill (sampleBackfill "c"), .report "c" "grosh" ⟨some 1, none, none, none, []⟩]

/-- The account has one unfinished job after one failure, and two after the late request. -/
theorem one_unfinished_iff_late :
    Always (step "grosh") (OneUnfinished "grosh") ⟨sampleLinkedTables, []⟩ sampleJobLabels ∧
      ¬ Always (step "grosh") (OneUnfinished "grosh") ⟨sampleLinkedTables, []⟩ sampleLateLabels :=
  ⟨(one_unfinished_iff (by decide +kernel)).1.mpr (by decide +kernel),
    mt (one_unfinished_iff (by decide +kernel)).1.mp (by decide +kernel)⟩

/-- Both of them run. -/
example : (exec (step "grosh") ⟨sampleLinkedTables, []⟩ sampleLateLabels).map
    (fun s => (s.runningJobs "grosh" (backfillSelector (uuidString 11))).length) = some 2 := by
  decide +kernel

/-! ## Polling a job

What a status endpoint needs in order to find a job again: its name is still its own, and its labels
are those it was created with. -/

/-- The key of a job: its name and its namespace. -/
def jobKey (job : K8sJob) : String × String := (job.name, job.inNamespace)

theorem jobKey_reported {name inNamespace : String} {status : K8sJobStatus} {job : K8sJob} :
    jobKey (job.reported name inNamespace status) = jobKey job := by
  rw [K8sJob.reported]
  split <;> rfl

/-- Names are unique in a namespace: a job is only created under a name that is free. -/
theorem nodup_step (h : (s.jobs.map jobKey).Nodup) (hs : s.step k8sNamespace l = some s') :
    (s'.jobs.map jobKey).Nodup := by
  rcases step_cases hs with heq | ⟨job, heq, -, -, hnew⟩ | ⟨name, ns, status, -, heq⟩ |
    ⟨name, ns, -, heq⟩
  · rwa [heq]
  · rw [heq, List.map_append, List.map_singleton, ← List.concat_eq_append, List.nodup_concat]
    refine ⟨fun hmem => ?_, h⟩
    obtain ⟨job', hjob', hkey⟩ := List.mem_map.mp hmem
    obtain ⟨hname, hns⟩ := Prod.mk.inj hkey
    exact List.any_eq_false.mp hnew job' hjob' (decide_eq_true ⟨hname, hns⟩)
  · rwa [heq, List.map_map, List.map_congr_left fun job _ =>
      (Function.comp_apply).trans jobKey_reported]
  · rw [heq]
    exact h.sublist (List.filter_sublist.map _)

/-- A job stays until it is deleted, with the labels it has. -/
theorem labels_step {name : String} {kvs : List (String × String)}
    (h : ∃ job ∈ s.jobs, jobKey job = (name, k8sNamespace) ∧ job.labels = kvs)
    (hl : l ≠ .expire name k8sNamespace) (hs : s.step k8sNamespace l = some s') :
    ∃ job ∈ s'.jobs, jobKey job = (name, k8sNamespace) ∧ job.labels = kvs := by
  obtain ⟨job, hjob, hkey, hlabels⟩ := h
  rcases step_cases hs with heq | ⟨new, heq, -⟩ | ⟨name', ns, status, -, heq⟩ |
    ⟨name', ns, rfl, heq⟩
  · exact ⟨job, heq ▸ hjob, hkey, hlabels⟩
  · exact ⟨job, heq ▸ List.mem_append_left _ hjob, hkey, hlabels⟩
  · refine ⟨job.reported name' ns status, heq ▸ List.mem_map_of_mem hjob,
      jobKey_reported.trans hkey, ?_⟩
    rw [K8sJob.reported]
    split <;> exact hlabels
  · refine ⟨job, heq ▸ List.mem_filter.mpr ⟨hjob, ?_⟩, hkey, hlabels⟩
    obtain ⟨hname, hns⟩ := Prod.mk.inj hkey
    rw [Bool.not_eq_true', K8sJob.isNamed, decide_eq_false_iff_not]
    rintro ⟨rfl, rfl⟩
    exact hl (by rw [hname, hns])

/-- The owner of an account is told that it is theirs, with whichever role. -/
theorem respond_accountOwner_of_owned (ha : isAuthenticated db callerId = true)
    (ho : OwnsAccount db callerId accountId) :
    (respond callerId (accountOwner callerId accountId) internalError db).1 = .ok callerId := by
  rw [respond_eq, if_pos ha, runHandler_fst (eval_accountOwner rfl), if_pos ho]

/-- **The id a backfill is answered with can be polled**: in every run in which the job has not been
deleted, its submitter is told how it is doing, as long as the account is theirs and the cluster
answers, if the jobs are created in the namespace `grosh`. With any other `K8S_NAMESPACE` the answer
is always that there is no such job. -/
theorem status_found {s₀ : JobsState} {before after : List Label} {q : BackfillRequest}
    {jobId : String} (hbefore : exec (step k8sNamespace) ⟨db, []⟩ before = some s₀)
    (htrigger : (s₀.triggerBackfill k8sNamespace q).1 = .ok jobId)
    (hafter : exec (step k8sNamespace) (s₀.triggerBackfill k8sNamespace q).2 after = some s)
    (hkept : Label.expire jobId k8sNamespace ∉ after)
    (ha : isAuthenticated s.db q.callerId = true) (ho : OwnsAccount s.db q.callerId q.accountId)
    (now : Timestamp) :
    (k8sNamespace = "grosh" → ∃ response,
      s.getBackfillStatus q.callerId q.accountId jobId now true = .ok response ∧
        response.jobId = jobId ∧ response.kind = .monobankBackfill) ∧
    (k8sNamespace ≠ "grosh" →
      s.getBackfillStatus q.callerId q.accountId jobId now true = .error ⟨404, "JOB_NOT_FOUND",
        "Job " ++ pyRepr jobId ++ " not found for account " ++ uuidString q.accountId ++ "."⟩) := by
  have hrun : exec (step k8sNamespace) ⟨db, []⟩ (before ++ .triggerBackfill q :: after) =
      some s := by
    rw [exec_append, hbefore]
    exact hafter
  -- the job's name and namespace are a key, so the read finds this job
  have hnodup : (s.jobs.map jobKey).Nodup := by
    refine exec_invariant (fun _ _ _ h hs => nodup_step h hs) ?_ hrun
    exact List.nodup_nil
  obtain ⟨job, hjob, hkey, hlabels⟩ : ∃ job ∈ s.jobs, jobKey job = (jobId, k8sNamespace) ∧
      job.labels = backfillLabels q.accountId q.callerId := by
    -- the job is in the cluster, with its labels, from the submission until it expires
    have hlabels : ∀ l ∈ after, l ≠ .expire jobId k8sNamespace :=
      fun l hl heq => hkept (heq ▸ hl)
    have hstep : ∀ s l s', (∃ job ∈ s.jobs, jobKey job = (jobId, k8sNamespace) ∧
        job.labels = backfillLabels q.accountId q.callerId) → l ≠ .expire jobId k8sNamespace →
        step k8sNamespace s l = some s' → ∃ job ∈ s'.jobs, jobKey job = (jobId, k8sNamespace) ∧
          job.labels = backfillLabels q.accountId q.callerId :=
      fun _ _ _ h hl hs => labels_step h hl hs
    refine exec_invariant_along hstep ?_ (along_of_labels hlabels) hafter
    rcases @triggerBackfill_cases k8sNamespace s₀ q with ⟨_, hno⟩ | ⟨x, i, hyes, -⟩
    · rw [hno] at htrigger
      cases htrigger
    · rw [hyes] at htrigger ⊢
      obtain rfl := Except.ok.inj htrigger
      exact ⟨_, List.mem_append_right _ (List.mem_singleton_self _), rfl, rfl⟩
  obtain ⟨hname, hns⟩ := Prod.mk.inj hkey
  refine ⟨?_, fun hne => ?_⟩
  · rintro rfl
    have hread : readNamespacedJob s.jobs jobId "grosh" = some job := by
      rcases hf : readNamespacedJob s.jobs jobId "grosh" with _ | job'
      · exact absurd (decide_eq_true ⟨hname, hns⟩) (List.find?_eq_none.mp hf job hjob)
      · have hnamed : K8sJob.isNamed jobId "grosh" job' = true := List.find?_some hf
        obtain ⟨hname', hns'⟩ := of_decide_eq_true hnamed
        rw [List.inj_on_of_nodup_map hnodup (List.mem_of_find?_eq_some hf) hjob
          (Prod.ext (hname'.trans hname.symm) (hns'.trans hns.symm))]
    have hselected : job.selectedBy [("grosh.app/job-kind", "monobank_backfill"),
        ("grosh.app/account-id", uuidString q.accountId),
        ("grosh.app/user-id", uuidString q.callerId)] = true := by
      simp [K8sJob.selectedBy, hlabels, lookup_backfillLabels]
    refine ⟨mapJobToResponse now job, ?_, hname, ?_⟩
    · rw [getBackfillStatus, respond_accountOwner_of_owned ha ho]
      simp [Except.map, jobStatus, fetchStatus, hread, hselected]
    · simp [mapJobToResponse, hlabels, lookup_backfillLabels, kindOf]
  -- the read looks in the literal namespace, where no job of this deployment is
  · have hread : readNamespacedJob s.jobs jobId "grosh" = none := by
      refine List.find?_eq_none.mpr fun j hj hnamed => hne ?_
      obtain ⟨-, hgrosh⟩ := of_decide_eq_true hnamed
      exact (submitted_of_exec hrun j hj).inNamespace_eq.symm.trans hgrosh
    rw [getBackfillStatus, respond_accountOwner_of_owned ha ho]
    simp only [Except.map, jobStatus, fetchStatus, hread, Option.bind_none, Bool.not_true,
      Bool.false_eq_true, if_false]

theorem status_found_grosh : ∃ response,
    sampleJobs.getBackfillStatus 1 11 "b" 9 true = .ok response ∧ response.jobId = "b" ∧
      response.kind = .monobankBackfill := by
  have hbefore : exec (step "grosh") ⟨sampleLinkedTables, []⟩ [] = some ⟨sampleLinkedTables, []⟩ :=
    rfl
  have htrigger : (triggerBackfill "grosh" ⟨sampleLinkedTables, []⟩ (sampleBackfill "b")).1 =
      .ok "b" := rfl
  have hafter : exec (step "grosh")
      (triggerBackfill "grosh" ⟨sampleLinkedTables, []⟩ (sampleBackfill "b")).2
        (sampleJobLabels.drop 1) = some sampleJobs := rfl
  exact (status_found hbefore htrigger hafter (by simp [sampleJobLabels]) rfl
    ⟨_, List.mem_cons_self .., rfl, rfl⟩ 9).1 rfl

/-! ## What a backfill asks the bank for

The range of a job is cut into windows of 31 days by the loop of the backfill. A trigger accepts no
more than 31, and so the loop is run through once. -/

/-- A range of at most 31 days is one window: the loop asks for it and has reached the end. -/
theorem requested_backfillLoop {benv : BackfillEnv} {token : String}
    {envelope : TransactionEnvelope}
    {fromTs toTs : ℤ} (hlt : fromTs < toTs) (hle : toTs ≤ fromTs + chunkSeconds) :
    (backfillLoop benv token envelope fromTs toTs).requested = [⟨fromTs, toTs⟩] := by
  have hfrom : max fromTs (toTs - chunkSeconds) = fromTs := max_eq_left (by omega)
  have hrest : (backfillLoop benv token envelope fromTs (fromTs - 1)).requested = [] := by
    rw [backfillLoop, if_neg (by omega)]
    rfl
  rw [backfillLoop, if_pos hlt, hfrom]
  dsimp only
  split
  · split <;> rfl
  · rfl
  · split
    · rfl
    split
    · rw [BackfillRun.after, hrest]
    · rfl

/-- The request of a backfill job, which has the name and the range of the job. -/
theorem Submitted.of_payload {job : K8sJob} {integrationId userId : UUID} {externalId : String}
    {fromTs toTs : ℤ} (h : Submitted k8sNamespace labels job)
    (hp : job.payload = .backfill integrationId userId externalId fromTs toTs) :
    ∃ q, Label.triggerBackfill q ∈ labels ∧ job.name = q.jobName ∧
      (q.sinceDate < q.untilDate ∧ q.untilDate ≤ q.sinceDate + 31) ∧ userId = q.callerId ∧
      fromTs = BackfillRequest.midnight q.sinceDate ∧
      toTs = BackfillRequest.midnight q.untilDate := by
  cases h with
  | backfill q x i hq hw hj =>
    have hjob := congrArg K8sJob.payload hj
    have hpayload := hp.symm.trans hjob
    simp only [backfillJob, JobPayload.backfill.injEq] at hpayload
    exact ⟨q, hq, congrArg K8sJob.name hj, hw, hpayload.2.1, hpayload.2.2.2.1, hpayload.2.2.2.2⟩
  | rates q hq hj =>
    have hjob := congrArg K8sJob.payload hj
    cases hp.symm.trans hjob
  | reprocess q hq hj =>
    have hjob := congrArg K8sJob.payload hj
    cases hp.symm.trans hjob

/-- **A backfill that is accepted asks the bank once**: in every run, the job of a backfill covers
at most 31 days, and asks for its whole range in one window, if the token and the account are there
when it runs; the request it comes from has named the first day, since the 90 days without one are
more than the endpoint accepts. -/
theorem triggered_asks_once (hrun : exec (step k8sNamespace) ⟨db, []⟩ labels = some s)
    {job : K8sJob} (hjob : job ∈ s.jobs) {integrationId userId : UUID} {externalId : String}
    {fromTs toTs : ℤ}
    (hp : job.payload = .backfill integrationId userId externalId fromTs toTs) :
    (∃ q, Label.triggerBackfill q ∈ labels ∧ job.name = q.jobName ∧ q.callerId = userId ∧
        fromTs = BackfillRequest.midnight q.sinceDate ∧
        toTs = BackfillRequest.midnight q.untilDate ∧ q.fromDate ≠ none) ∧
      ∀ benv : BackfillEnv, benv.token ≠ none → benv.accountId ≠ none →
        (runBackfill benv fromTs toTs).requested = [⟨fromTs, toTs⟩] ∧
          ∀ t, fromTs ≤ t → t ≤ toTs →
            ∃ window ∈ (runBackfill benv fromTs toTs).requested, window.Contains t := by
  obtain ⟨q, hq, hname, hw, rfl, rfl, rfl⟩ := (submitted_of_exec hrun job hjob).of_payload hp
  have hchunk : chunkSeconds = 2678400 := rfl
  refine ⟨⟨q, hq, hname, rfl, rfl, rfl, fun hnone => ?_⟩, fun benv htoken haccount => ?_⟩
  · have hsince : q.sinceDate = q.untilDate - 90 := by
      rw [BackfillRequest.sinceDate, hnone, Option.getD_none]
    omega
  · obtain ⟨token, htoken⟩ := Option.ne_none_iff_exists'.mp htoken
    obtain ⟨accountId, haccount⟩ := Option.ne_none_iff_exists'.mp haccount
    have hone : (runBackfill benv (BackfillRequest.midnight q.sinceDate)
        (BackfillRequest.midnight q.untilDate)).requested =
        [⟨BackfillRequest.midnight q.sinceDate, BackfillRequest.midnight q.untilDate⟩] := by
      rw [runBackfill, htoken]
      simp only [haccount]
      exact requested_backfillLoop (by simp only [BackfillRequest.midnight]; omega)
        (by simp only [BackfillRequest.midnight]; omega)
    exact ⟨hone, fun t h₁ h₂ => ⟨_, hone ▸ List.mem_singleton_self _, h₁, h₂⟩⟩

theorem triggered_asks_once_month :
    (∃ q, Label.triggerBackfill q ∈ sampleJobLabels ∧ "b" = q.jobName ∧ q.callerId = 1 ∧
        0 = BackfillRequest.midnight q.sinceDate ∧
        2678400 = BackfillRequest.midnight q.untilDate ∧ q.fromDate ≠ none) ∧
      ∀ benv : BackfillEnv, benv.token ≠ none → benv.accountId ≠ none →
        (runBackfill benv 0 2678400).requested = [⟨0, 2678400⟩] ∧
          ∀ t, 0 ≤ t → t ≤ 2678400 →
            ∃ window ∈ (runBackfill benv 0 2678400).requested, window.Contains t := by
  have hrun : exec (step "grosh") ⟨sampleLinkedTables, []⟩ sampleJobLabels = some sampleJobs := rfl
  exact triggered_asks_once hrun (List.mem_cons_self ..) rfl

end JobsState

end Grosh
