import Grosh.RowPolicies
import Grosh.Pagination

/-!
# Requests to the services

A handler is a program of statements whose answer is a response or a problem. It runs in the
transaction of its request, after `get_current_user_id` has read the caller's row and set the
session variables.

The statements run under row security, so what a handler finds depends on its session. The sessions
of a request are those of its caller, and a handler is looked at as a program, without saying yet
which one it is.

* `respond_eq` — a request is refused unless its caller is there and active, and otherwise the
  handler runs with the caller's own role.
* `eval_fetch_own` — the policies never hide a row from its owner.
-/

namespace Grosh

open RowSecurity

/-! ## Handlers

The dependency that authenticates the caller runs first, in the transaction of the request, and sets
the variables the policies read; the handler runs with them. -/

/-- The session variables after the caller has been authenticated. The role is that of the caller's
row, or is not set if the policies show no row. -/
def callerSession (userId : UUID) (role : Option UserRole) : Session :=
  ⟨.ingestion, some userId, none, role, none⟩

/-- The answer to a request without a valid caller: one for a missing user and for an inactive
one. -/
def notAuthenticated : ProblemDetail := ⟨401, "AUTHENTICATION_REQUIRED", "Not authenticated."⟩

/-- `UserRepo.get_role`, which is asked before the role is set: the session has the id of the caller
only, and sees the caller's own row. -/
def UserRepo.getRole (userId : UUID) : Program TableName.Row (Option UserRole) := do
  let rows ← Program.fetch TableName.users fun r : UserRow => decide (r.id = userId)
  return rows.head?.map UserRow.role

/-- `UserRepo.is_active`: a user who is not there is not active. -/
def UserRepo.isActive (userId : UUID) : Program TableName.Row Bool := do
  let rows ← Program.fetch TableName.users fun r : UserRow => decide (r.id = userId)
  return rows.head?.any UserRow.isActive

/-- A handler in the transaction of its request: a problem rolls it back, and so does an exception,
which is answered with `refused`. -/
def runHandler {α : Type} (s : Session) (handler : Program TableName.Row (Except ProblemDetail α))
    (refused : ProblemDetail) (db : Db TableName.Row) :
    Except ProblemDetail α × Db TableName.Row :=
  match handler.eval schema s db with
  | some (.ok a, db') => (.ok a, db')
  | some (.error problem, _) => (.error problem, db)
  | none => (.error refused, db)

/-- `get_current_user_id`, once the token has been decoded, and then the handler. The row of the
caller is read in the same transaction, twice: for the role and for the flag. -/
def respond {α : Type} (userId : UUID) (handler : Program TableName.Row (Except ProblemDetail α))
    (refused : ProblemDetail) (db : Db TableName.Row) :
    Except ProblemDetail α × Db TableName.Row :=
  match (UserRepo.getRole userId).eval schema (callerSession userId none) db with
  | none => (.error notAuthenticated, db)
  | some (role, _) =>
    match (UserRepo.isActive userId).eval schema (callerSession userId role) db with
    | some (true, _) => runHandler (callerSession userId role) handler refused db
    | _ => (.error notAuthenticated, db)

/-- An exception without a handler of its own: the client is told nothing of what went wrong. -/
def internalError : ProblemDetail := ⟨500, "INTERNAL_ERROR", "An unexpected error occurred"⟩

/-- No such account, or not the caller's: the answer does not tell the one from the other. -/
def accountNotFound : ProblemDetail := ⟨404, "ACCOUNT_NOT_FOUND", "Account not found."⟩

namespace AccountRepo

/-- `WHERE id = $1 AND user_id = $2`: the queries name the owner even though the policies would do
so. -/
def isOwn (accountId userId : UUID) (r : AccountRow) : Bool :=
  decide (r.id = accountId ∧ r.userId = userId)

/-- `get_by_id`: the account, if it is the user's. -/
def getById (accountId userId : UUID) : Program TableName.Row (Option AccountRow) := do
  let rows ← Program.fetch TableName.accounts (isOwn accountId userId)
  return rows.head?

/-- `belongs_to_user`: whether there is such an account of the user. -/
def belongsToUser (accountId userId : UUID) : Program TableName.Row Bool := do
  let rows ← Program.fetch TableName.accounts (isOwn accountId userId)
  return !rows.isEmpty

/-- `get_user_id`: the query names the id alone, so that only the policies decide whose account is
found. -/
def getUserId (accountId : UUID) : Program TableName.Row (Option UUID) := do
  let rows ← Program.fetch TableName.accounts fun r : AccountRow => decide (r.id = accountId)
  return rows.head?.map fun r => r.userId

end AccountRepo

/-! ## The rows of the caller

Under the policies a caller's `SELECT` returns what one would expect of it: the caller's own rows
that meet the condition. -/

variable {s : Session} {u : UUID} {t : TableName} {db : Db TableName.Row}

/-- The owner of a row sees it, in whichever table it is. -/
theorem passes_own {r : t.Row} (hu : s.userId = some u) (ho : owner t r = some u) :
    schema.passes .select s t r = true := by
  have hown : isCurrentUser t s r = true := isCurrentUser_iff.mpr ⟨u, hu, ho⟩
  cases t <;>
    simp [Schema.passes, schema, policies, usersPolicies, bankIntegrationsPolicies,
      categoriesPolicies, isolation, Policy.covers, hown]

/-- `SELECT` with a condition that asks for the caller's own rows: the policies hide none of
them. -/
theorem eval_fetch_own {w : t.Row → Bool} (hu : s.userId = some u)
    (hw : ∀ r, w r = true → owner t r = some u) :
    (Program.fetch t w).eval schema s db = some ((db t).filter w, db) := by
  rw [Program.eval_fetch]
  refine ⟨by cases s.dbRole <;> cases t <;> rfl, List.filter_congr fun r _ => ?_, rfl⟩
  rcases hr : w r with _ | _
  · simp
  · simp [passes_own hu (hw r hr)]

/-- The policy of `accounts` is one condition, for every command: the row is the current user's. -/
theorem passes_accounts {c : Command} {r : AccountRow} :
    schema.passes c s .accounts r = isCurrentUser .accounts s r := by
  simp [Schema.passes, schema, policies, isolation, Policy.covers]

theorem admits_accounts {c : Command} {r : AccountRow} :
    schema.admits c s .accounts r = isCurrentUser .accounts s r := by
  simp [Schema.admits, schema, policies, isolation, Policy.covers]

theorem isCurrentUser_accounts {r : AccountRow} (hu : s.userId = some u) :
    isCurrentUser .accounts s r = decide (r.userId = u) := by
  simp [isCurrentUser, owner, hu]

/-- `SELECT … FROM accounts`, whatever the condition: the caller's own accounts, since the policies
hide the others. -/
theorem eval_fetch_accounts {w : AccountRow → Bool} (hu : s.userId = some u) :
    (Program.fetch TableName.accounts w).eval schema s db =
      some ((db .accounts).filter fun r => decide (r.userId = u) && w r, db) := by
  rw [Program.eval_fetch]
  refine ⟨by cases s.dbRole <;> rfl, List.filter_congr fun r _ => ?_, rfl⟩
  rw [passes_accounts, isCurrentUser_accounts hu]

theorem eval_getById {accountId : UUID} (hu : s.userId = some u) :
    (AccountRepo.getById accountId u).eval schema s db =
      some ((db .accounts).find? (AccountRepo.isOwn accountId u), db) := by
  rw [AccountRepo.getById, Program.eval_bind, eval_fetch_own hu, Option.bind_some,
    Program.eval_pure, List.head?_filter]
  intro r hr
  exact congrArg some (of_decide_eq_true hr).2

/-! ## Authentication

A token only says who the caller claims to be. Whether that user may send a request is read from the
tables with every request. -/

/-- The caller's row, which the caller always sees. -/
def callerRow (db : Db TableName.Row) (userId : UUID) : Option UserRow :=
  (db .users).find? fun r => decide (r.id = userId)

/-- The caller is there and active. A user who has been deactivated is refused from the next request
on. -/
def isAuthenticated (db : Db TableName.Row) (userId : UUID) : Bool :=
  (callerRow db userId).any UserRow.isActive

theorem eval_getRole (hu : s.userId = some u) :
    (UserRepo.getRole u).eval schema s db = some ((callerRow db u).map UserRow.role, db) := by
  rw [UserRepo.getRole, Program.eval_bind, eval_fetch_own hu, Option.bind_some, Program.eval_pure,
    List.head?_filter, callerRow]
  exact fun r hr => congrArg some (of_decide_eq_true hr)

theorem eval_isActive (hu : s.userId = some u) :
    (UserRepo.isActive u).eval schema s db = some (isAuthenticated db u, db) := by
  rw [UserRepo.isActive, Program.eval_bind, eval_fetch_own hu, Option.bind_some,
    Program.eval_pure, List.head?_filter, isAuthenticated, callerRow]
  exact fun r hr => congrArg some (of_decide_eq_true hr)

/-- A request is refused unless its caller is there and active; otherwise its handler decides, with
the role of the caller's row. -/
theorem respond_eq {α : Type} {handler : Program TableName.Row (Except ProblemDetail α)}
    {refused : ProblemDetail} :
    respond u handler refused db =
      if isAuthenticated db u then
        runHandler (callerSession u ((callerRow db u).map UserRow.role)) handler refused db
      else (.error notAuthenticated, db) := by
  rw [respond, eval_getRole rfl]
  simp only [eval_isActive (s := callerSession u _) rfl]
  rcases isAuthenticated db u with _ | _ <;> rfl

/-- An authenticated caller is a user: a foreign key to the caller always holds. -/
theorem mem_userIds_of_isAuthenticated (h : isAuthenticated db u = true) : u ∈ userIds db := by
  rcases hr : callerRow db u with _ | r
  · simp [isAuthenticated, hr] at h
  · have hid : decide (r.id = u) = true := @List.find?_some _ _ r _ hr
    exact List.mem_map.mpr ⟨r, List.mem_of_find?_eq_some hr, of_decide_eq_true hid⟩

section

variable {α : Type} {handler : Program TableName.Row (Except ProblemDetail α)}
  {refused problem : ProblemDetail} {a : α} {db' : Db TableName.Row}

theorem runHandler_ok (h : handler.eval schema s db = some (.ok a, db')) :
    runHandler s handler refused db = (.ok a, db') := by
  rw [runHandler, h]

theorem runHandler_error (h : handler.eval schema s db = some (.error problem, db')) :
    runHandler s handler refused db = (.error problem, db) := by
  rw [runHandler, h]

theorem runHandler_refused (h : handler.eval schema s db = none) :
    runHandler s handler refused db = (.error refused, db) := by
  rw [runHandler, h]

end

theorem admissible_runHandler {α : Type}
    {handler : Program TableName.Row (Except ProblemDetail α)} {refused : ProblemDetail}
    (h : Admissible db) : Admissible (runHandler s handler refused db).2 := by
  rcases he : handler.eval schema s db with _ | ⟨answer, db'⟩
  · rwa [runHandler_refused he]
  · have hadm : schema.admissible db' = true :=
      Program.admissible_eval (decide_eq_true h : schema.admissible db = true) he
    cases answer with
    | ok a =>
      rw [runHandler_ok he]
      exact of_decide_eq_true hadm
    | error problem => rwa [runHandler_error he]

end Grosh
