import Grosh.AccessTokens
import Grosh.ServiceRequests

/-!
# Users and their sessions

The API logs users in, exchanges their refresh tokens, logs them out, and lets admins create and
deactivate users. A deactivation is soft: the row of the user stays, `is_active` goes, and so do the
refresh tokens.

The state is `users` and the other tables with row-level security, `refresh_tokens`,
`revoked_tokens`, the payloads the secret has signed, and the clock. The requests are served one
after another. Between them the ingestion service executes what it likes under its own role.

* `login_some`, `refresh_some`, `createUser_admin`, `deleteUser_admin`, `updateSettings_user` — what
  each request answers and leaves, policies, grants and constraints included.
-/

namespace Grosh

open RowSecurity

namespace Api

/-! ## The state

The requests below change the tables, the signed payloads and the clock, and nothing else. The
access tokens are those of the module that decodes them; here they are only looked at between two
requests. -/

/-- The tables of the API, the payloads it has signed and the clock. `signed` grows with every
session that is opened: a token that is not among them does not pass the signature. -/
structure ApiState : Type where
  now : Timestamp
  signed : List Claims
  revoked : KeyedTable RevokedToken.jti
  tokens : TokenTable
  db : Db TableName.Row

/-- What decodes and revokes access tokens; no logout is under way between two requests. -/
def ApiState.access (s : ApiState) : AccessState Empty :=
  ⟨s.now, s.signed, s.revoked, fun _ => none, none, Empty.elim⟩

/-- `DELETE FROM refresh_tokens WHERE p`. Everything else of the state stays as it is. -/
def ApiState.without (s : ApiState) (p : RefreshTokenRow → Bool) : ApiState :=
  { s with tokens := s.tokens.delete p }

/-- What is not in the tables: `bcrypt.checkpw`, the rows of `rate_source_config`, and the keys
`ZoneInfo` knows. -/
structure ApiEnv : Type where
  verifyPassword : String → String → Bool
  rateSources : List String
  zones : List String

/-- The random values of a session: the id and the hash of its refresh token, and the `jti` of its
access token. -/
structure FreshSession : Type where
  tokenId : UUID
  tokenHash : String
  jti : UUID

/-- The refresh token a session gets: it is the user's, and is good for as long as its cookie. -/
def FreshSession.token (fresh : FreshSession) (userId : UUID) (now : Timestamp) :
    RefreshTokenRow :=
  ⟨fresh.tokenId, userId, fresh.tokenHash, now + refreshTokenTtl⟩

/-! ## Problems

The answers of the handlers for exceptions. Each has its status, its code and its text, as the
client sees them. -/

/-- `InvalidCredentialsError`: the same answer for an unknown e-mail, a wrong password and a user
who has been deactivated, so that it tells none of the three apart. -/
def invalidCredentials : ProblemDetail :=
  ⟨401, "AUTHENTICATION_REQUIRED", "Invalid email or password."⟩

/-- `SessionExpiredError`: the same answer for an unknown token, an expired one and one of a user
who has been deactivated. -/
def sessionExpired : ProblemDetail :=
  ⟨401, "AUTHENTICATION_REQUIRED", "Session expired. Please log in again."⟩

/-- `UserAlreadyExistsError`: the e-mail is somebody's already, also of a user who has been
deactivated. -/
def userAlreadyExists : ProblemDetail :=
  ⟨409, "VALIDATION_ERROR", "A user with this email already exists."⟩

/-- `UserNotFoundError`: there is no row with this id, not even of a user who has been deactivated.
-/
def userNotFound : ProblemDetail := ⟨404, "USER_NOT_FOUND", "User not found."⟩

/-- `CannotDeleteSelfError`: it is what leaves one active admin at least. -/
def cannotDeleteSelf : ProblemDetail :=
  ⟨400, "VALIDATION_ERROR", "Cannot delete your own account."⟩

/-- The answer of `require_admin` to a member. Who is not logged in is answered 401 before. -/
def adminAccessRequired : ProblemDetail :=
  ⟨403, "INSUFFICIENT_PERMISSIONS", "Admin access required."⟩

/-! ## The statements

Each repository method is a program of statements, run under the policies of the tables with the
variables of its request. -/

/-- A request of the API with the variables `app.current_user_id` and `app.current_user_role`. A
refresh sets the id alone. -/
def userSession (userId : UUID) (role : Option UserRole) : Session :=
  ⟨.api, some userId, none, role, none⟩

/-- A login has no variable but the e-mail: whoever logs in is not known yet, and one policy shows
the row with the e-mail and no other. -/
def loginSession (email : String) : Session := ⟨.api, none, some email, none, none⟩

namespace UserRepo

/-- `get_by_email`: the comparison is that of `citext`, and the index on the e-mail leaves one row
at most. -/
def getByEmail (email : String) : Program TableName.Row (Option UserRow) := do
  let rows ← Program.fetch TableName.users fun r : UserRow => sameEmail r.email email
  return rows.head?

/-- `get_by_id`: the row, if the policies show it to the session. -/
def getById (userId : UUID) : Program TableName.Row (Option UserRow) := do
  let rows ← Program.fetch TableName.users fun r : UserRow => decide (r.id = userId)
  return rows.head?

/-- `exists_by_email`: an admin, who asks it before creating a user, sees every row. -/
def existsByEmail (email : String) : Program TableName.Row Bool := do
  let rows ← Program.fetch TableName.users fun r : UserRow => sameEmail r.email email
  return !rows.isEmpty

/-- `create`, and the trigger `create_user_settings`, which gives a new user the default settings in
the same transaction. -/
def create (r : UserRow) : Program TableName.Row UserRow := do
  Program.create TableName.users r true
  Program.create TableName.userSettings ⟨r.id, none, "UTC", r.createdAt⟩ false
  return r

/-- What `set_active` sets; the trigger sets `updated_at`. Everything else of the row stays. -/
def flagged (isActive : Bool) (now : Timestamp) (r : UserRow) : UserRow :=
  { r with isActive := isActive, updatedAt := now }

/-- `set_active`: nobody looks at how many rows the `UPDATE` has found. -/
def setActive (userId : UUID) (isActive : Bool) (now : Timestamp) :
    Program TableName.Row Unit := do
  let _ ← Program.modify TableName.users (fun r : UserRow => decide (r.id = userId))
    (flagged isActive now)

/-- What `touch_last_active_at` sets; the trigger sets `updated_at`. -/
def touched (now : Timestamp) (r : UserRow) : UserRow :=
  { r with lastActiveAt := some now, updatedAt := now }

/-- `touch_last_active_at`: an `UPDATE` whose row the policies hide from the session finds none, and
goes on without an error. -/
def touchLastActiveAt (userId : UUID) (now : Timestamp) : Program TableName.Row Unit := do
  let _ ← Program.modify TableName.users (fun r : UserRow => decide (r.id = userId)) (touched now)

end UserRepo

namespace SettingsRepo

/-- `get_by_user_id`: the settings of the user, who may have none. -/
def getByUserId (userId : UUID) : Program TableName.Row (Option UserSettingsRow) := do
  let rows ← Program.fetch TableName.userSettings fun r : UserSettingsRow =>
    decide (r.userId = userId)
  return rows.head?

/-- What `ON CONFLICT (user_id) DO UPDATE` sets: a field the request has left out keeps its
value. -/
def merged (defaultRateSource timezone : Option String) (now : Timestamp) (r : UserSettingsRow) :
    UserSettingsRow :=
  { r with
    defaultRateSource := defaultRateSource.or r.defaultRateSource
    timezone := timezone.getD r.timezone
    updatedAt := now }

/-- `upsert`: one statement of the source, which inserts the first settings of a user and changes
them from then on. A time zone that is left out is UTC at first. -/
def upsert (userId : UUID) (defaultRateSource timezone : Option String) (now : Timestamp) :
    Program TableName.Row (Option UserSettingsRow) := do
  match ← getByUserId userId with
  | none =>
    Program.create TableName.userSettings
      ⟨userId, defaultRateSource, timezone.getD "UTC", now⟩ true
    return some ⟨userId, defaultRateSource, timezone.getD "UTC", now⟩
  | some _ =>
    let rows ← Program.modify TableName.userSettings
      (fun r : UserSettingsRow => decide (r.userId = userId))
      (merged defaultRateSource timezone now)
    return rows.head?

end SettingsRepo

/-! ## Sessions

A session is a refresh token in the tables and an access token that is signed. A login opens one, a
refresh exchanges the refresh token for another, and a logout deletes it and revokes the access
token. -/

namespace ApiState

/-- `_create_refresh_token` and `touch_last_active_at`, in the transaction of `session`: a token
whose id or hash is taken ends the request, and leaves nothing of it. -/
def startSession (s : ApiState) (session : Session) (userId : UUID) (fresh : FreshSession) :
    Except ProblemDetail Claims × ApiState :=
  if s.tokens.Clash (fresh.token userId s.now) then
    (.error internalError, s)
  else
    match (UserRepo.touchLastActiveAt userId s.now).eval schema session s.db with
    | none => (.error internalError, s)
    | some ((), db) =>
      (.ok (encodeAccessToken s.now userId fresh.jti),
        { s with
          signed := encodeAccessToken s.now userId fresh.jti :: s.signed
          tokens := s.tokens.insert (fresh.token userId s.now)
          db := db })

/-- `POST /auth/login`: the row of the e-mail is read, the password compared, and only then whether
the user is active. A login that is refused changes nothing. -/
def login (env : ApiEnv) (s : ApiState) (email password : String) (fresh : FreshSession) :
    Except ProblemDetail Claims × ApiState :=
  match (UserRepo.getByEmail email.toLower).eval schema (loginSession email.toLower) s.db with
  | none => (.error internalError, s)
  | some (none, _) => (.error invalidCredentials, s)
  | some (some record, _) =>
    if !env.verifyPassword password record.passwordHash then (.error invalidCredentials, s)
    else if !record.isActive then (.error invalidCredentials, s)
    else s.startSession (loginSession email.toLower) record.id fresh

/-- `get_by_hash`, with the hash of the cookie; `none` is one that is no hexadecimal number, or no
cookie at all. -/
def presentedToken (s : ApiState) (presented : Option String) : Option RefreshTokenRow :=
  presented.bind fun hash => s.tokens.rows.find? fun r => decide (r.tokenHash = hash)

/-- `POST /auth/refresh`: the token has to be there and not expired, and its user active. Then it is
deleted and another issued. What fails is rolled back, also the deletion. -/
def refresh (s : ApiState) (presented : Option String) (fresh : FreshSession) :
    Except ProblemDetail Claims × ApiState :=
  match s.presentedToken presented with
  | none => (.error sessionExpired, s)
  | some token =>
    if token.expiresAt < s.now then (.error sessionExpired, s)
    else
      match (UserRepo.getById token.userId).eval schema (userSession token.userId none) s.db with
      | none => (.error internalError, s)
      | some (none, _) => (.error sessionExpired, s)
      | some (some user, _) =>
        if !user.isActive then (.error sessionExpired, s)
        else
          match (s.without fun r => decide (r.id = token.id)).startSession
              (userSession token.userId none) user.id fresh with
          | (.ok claims, s') => (.ok claims, s')
          | (.error problem, _) => (.error problem, s)

/-- `_revoke_access_token`: a token that cannot be decoded, or has no `jti` to remember, is passed
over without an error. -/
def revokeAccessToken (s : ApiState) (token : Claims) : ApiState :=
  match s.access.revokeAccessToken token with
  | .decoded _ row => { s with revoked := s.revoked.insertIgnore row }
  | _ => s

/-- `POST /auth/logout`, which anybody may send: a cookie deletes its refresh token, and a bearer
token is revoked, each if it is there. -/
def logout (s : ApiState) (presented : Option String) (accessToken : Option Claims) : ApiState :=
  let deleted := (s.presentedToken presented).elim s fun token =>
    s.without fun r => decide (r.id = token.id)
  accessToken.elim deleted deleted.revokeAccessToken

/-- `get_current_user`: the token decodes, its `jti` is not revoked, and the row of its subject is
there and active. The row is read again with every request. -/
def getCurrentUser (s : ApiState) : Option Claims → Except ProblemDetail UserRow
  | none => .error notAuthenticated
  | some token =>
    match s.access.decodeAccessToken token with
    | .error _ => .error notAuthenticated
    | .ok payload =>
      if s.access.jtiRevoked payload then .error notAuthenticated
      else
        match payload.sub with
        | none => .error notAuthenticated
        | some userId =>
          match (UserRepo.getById userId).eval schema (userSession userId none) s.db with
          | none => .error internalError
          | some (none, _) => .error notAuthenticated
          | some (some record, _) =>
            if record.isActive then .ok record else .error notAuthenticated

/-- `require_admin`: by the role of the row, not by anything the token says. -/
def requireAdmin (s : ApiState) (bearer : Option Claims) : Except ProblemDetail UserRow :=
  (s.getCurrentUser bearer).bind fun user =>
    if user.role ≠ .admin then .error adminAccessRequired else .ok user

/-- `POST /auth/logout-all`: every refresh token of the caller is deleted, and the access token of
the request revoked. Other access tokens live on until they expire. -/
def logoutAll (s : ApiState) (bearer : Option Claims) : Except ProblemDetail Unit × ApiState :=
  match s.getCurrentUser bearer with
  | .error problem => (.error problem, s)
  | .ok user =>
    let deleted := s.without fun r => decide (r.userId = user.id)
    (.ok (), bearer.elim deleted deleted.revokeAccessToken)

end ApiState

/-! ## The admin's requests

An admin's session has the role in its variable, and the policies of `users` let it through to every
row. -/

/-- `CreateUserRequest`, with the hash of the password and the id the database draws. The address
may be in any letter case. -/
structure CreateUserRequest : Type where
  email : String
  passwordHash : String
  displayName : String
  role : UserRole
  newId : UUID

/-- The row `UserRepo.create` inserts: the address in small letters, the user active and never
seen. -/
def CreateUserRequest.row (q : CreateUserRequest) (now : Timestamp) : UserRow :=
  ⟨q.newId, q.email.toLower, q.passwordHash, q.displayName, q.role, true, now, now, none, none⟩

/-- `UserService.create_user`: the address is looked for before the row is inserted, and the unique
index stands behind the look-up. -/
def UserService.createUser (q : CreateUserRequest) (now : Timestamp) :
    Program TableName.Row (Except ProblemDetail UserRow) := do
  if ← UserRepo.existsByEmail q.email.toLower then
    return .error userAlreadyExists
  let record ← UserRepo.create (q.row now)
  return .ok record

/-- `UserService.delete_user`, but for the refresh tokens: an admin cannot deactivate the own row,
and a user who is deactivated already may be deactivated again. -/
def UserService.deleteUser (adminId targetId : UUID) (now : Timestamp) :
    Program TableName.Row (Except ProblemDetail Unit) := do
  if adminId = targetId then
    return .error cannotDeleteSelf
  match ← UserRepo.getById targetId with
  | none => return .error userNotFound
  | some _ =>
    UserRepo.setActive targetId false now
    return .ok ()

namespace ApiState

/-- `POST /admin/users`. The one exception a handler of its own is there for is the violation of a
unique index, which gets the answer of an address that is taken. -/
def createUser (s : ApiState) (bearer : Option Claims) (q : CreateUserRequest) :
    Except ProblemDetail UserRow × ApiState :=
  match s.requireAdmin bearer with
  | .error problem => (.error problem, s)
  | .ok admin =>
    (runHandler (userSession admin.id (some admin.role)) (UserService.createUser q s.now)
      userAlreadyExists s.db).map id fun db => { s with db := db }

/-- `DELETE /admin/users/{user_id}`: the flag is taken away and the refresh tokens are deleted, in
one transaction. -/
def deleteUser (s : ApiState) (bearer : Option Claims) (targetId : UUID) :
    Except ProblemDetail Unit × ApiState :=
  match s.requireAdmin bearer with
  | .error problem => (.error problem, s)
  | .ok admin =>
    match runHandler (userSession admin.id (some admin.role))
        (UserService.deleteUser admin.id targetId s.now) internalError s.db with
    | (.error problem, _) => (.error problem, s)
    | (.ok (), db) =>
      (.ok (), { s.without fun r => decide (r.userId = targetId) with db := db })

end ApiState

/-! ## Settings

Every user has settings of their own, created along with the user. A request names the fields it
changes, and only values that are known are taken. -/

/-- `UserSettings`: what both endpoints answer. A user without a row is answered the defaults. -/
structure UserSettings : Type where
  defaultRateSource : Option String
  timezone : String
  updatedAt : Option Timestamp
  deriving DecidableEq

/-- The response made of a row: its two fields and the time of the last change. -/
def UserSettings.ofRow (r : UserSettingsRow) : UserSettings :=
  ⟨r.defaultRateSource, r.timezone, some r.updatedAt⟩

/-- `UpdateSettingsRequest`: a field that is `none` is left as it is. -/
structure UpdateSettingsRequest : Type where
  defaultRateSource : Option String
  timezone : Option String
  deriving DecidableEq

/-- The answer to a rate source that is not configured, with its name in the text. -/
def unknownRateSource (source : String) : ProblemDetail :=
  ⟨422, "VALIDATION_ERROR", "Unknown rate source: '" ++ source ++ "'."⟩

/-- The answer to a time zone nobody knows, with its name in the text. -/
def invalidTimezone (timezone : String) : ProblemDetail :=
  ⟨422, "VALIDATION_ERROR", "Invalid timezone: '" ++ timezone ++ "'."⟩

/-- The checks of `update_settings`, in their order: the rate source first, and then the time zone.
The first that fails is the answer. -/
def UpdateSettingsRequest.problem (env : ApiEnv) (q : UpdateSettingsRequest) :
    Option ProblemDetail :=
  ((q.defaultRateSource.filter fun x => decide (x ∉ env.rateSources)).map unknownRateSource).or
    ((q.timezone.filter fun x => decide (x ∉ env.zones)).map invalidTimezone)

namespace ApiState

/-- `GET /settings`: nothing is written, also where there is no row yet. -/
def getSettings (s : ApiState) (bearer : Option Claims) : Except ProblemDetail UserSettings :=
  (s.getCurrentUser bearer).bind fun user =>
    match (SettingsRepo.getByUserId user.id).eval schema (userSession user.id (some user.role))
        s.db with
    | none => .error internalError
    | some (none, _) => .ok ⟨none, "UTC", none⟩
    | some (some row, _) => .ok (.ofRow row)

/-- `PUT /settings`: a request with an unknown value changes nothing, not even the field that is in
order. -/
def updateSettings (env : ApiEnv) (s : ApiState) (bearer : Option Claims)
    (q : UpdateSettingsRequest) : Except ProblemDetail UserSettings × ApiState :=
  match s.getCurrentUser bearer with
  | .error problem => (.error problem, s)
  | .ok user =>
    match q.problem env with
    | some problem => (.error problem, s)
    | none =>
      match (SettingsRepo.upsert user.id q.defaultRateSource q.timezone s.now).eval schema
          (userSession user.id (some user.role)) s.db with
      | some (some row, db) => (.ok (.ofRow row), { s with db := db })
      | _ => (.error internalError, s)

end ApiState

/-! ## Steps

The requests are served one after another, with the clock and the ingestion service in between: that
service has a role of its own, and what its grants and policies leave to it can be any statement at
all. -/

/-- What happens next: a request of the API, a transaction of the other service, the purge, or
time. -/
inductive Label : Type where
  | advance (time : Timestamp)
  /-- the job that deletes the rows of `revoked_tokens` that have expired -/
  | purge
  /-- the statements of a transaction of the ingestion service -/
  | ingestion (session : Session) (program : Program TableName.Row Unit)
  | login (email password : String) (fresh : FreshSession)
  | refresh (presented : Option String) (fresh : FreshSession)
  | logout (presented : Option String) (accessToken : Option Claims)
  | logoutAll (bearer : Option Claims)
  | createUser (bearer : Option Claims) (q : CreateUserRequest)
  | deleteUser (bearer : Option Claims) (targetId : UUID)
  | updateSettings (bearer : Option Claims) (q : UpdateSettingsRequest)

namespace ApiState

/-- **One step.** The clock only goes forward. A transaction of the ingestion service that is
refused leaves the tables as they are; one that is not may have done to them whatever its role
allows, in any session. Every request leaves the state its handler leaves, whether it is answered or
refused. -/
def step (env : ApiEnv) (s : ApiState) : Label → ApiState
  | .advance time => { s with now := max s.now time }
  | .purge => { s with revoked := s.revoked.deleteWhere fun r => decide (r.expiresAt < s.now) }
  | .ingestion session program =>
    (program.eval schema { session with dbRole := .ingestion } s.db).elim s fun x =>
      { s with db := x.2 }
  | .login email password fresh => (s.login env email password fresh).2
  | .refresh presented fresh => (s.refresh presented fresh).2
  | .logout presented accessToken => s.logout presented accessToken
  | .logoutAll bearer => (s.logoutAll bearer).2
  | .createUser bearer q => (s.createUser bearer q).2
  | .deleteUser bearer targetId => (s.deleteUser bearer targetId).2
  | .updateSettings bearer q => (s.updateSettings env bearer q).2

end ApiState

/-- A run: any list of steps, taken from the first to the last. Every step is possible in every
state. -/
def run (env : ApiEnv) : List Label → ApiState → ApiState
  | [], s => s
  | l :: ls, s => run env ls (s.step env l)

/-! ## The policies of `users`

Two sessions see a row of `users`: that of the user and that of an admin; and a login sees the row
of its e-mail. What the statements return under the policies is shown here once. -/

variable {session : Session} {db db' : Db TableName.Row} {u : UUID} {r : UserRow}

theorem passes_select_users : schema.passes .select session .users r =
    (isCurrentUser .users session r ||
      (session.email.any (sameEmail r.email) || isAdmin session)) := by
  simp [Schema.passes, schema, policies, usersPolicies, adminAll, Policy.covers]

theorem passes_update_users : schema.passes .update session .users r =
    (isCurrentUser .users session r || isAdmin session) := by
  simp [Schema.passes, schema, policies, usersPolicies, adminAll, Policy.covers]

theorem admits_update_users : schema.admits .update session .users r =
    (isCurrentUser .users session r || isAdmin session) := by
  simp [Schema.admits, schema, policies, usersPolicies, adminAll, Policy.covers]

theorem admits_insert_users : schema.admits .insert session .users r = isAdmin session := by
  simp [Schema.admits, schema, policies, usersPolicies, adminAll, Policy.covers]

theorem isCurrentUser_users (hu : session.userId = some u) :
    isCurrentUser .users session r = decide (r.id = u) := by
  simp [isCurrentUser, owner, hu]

/-- `SELECT … FROM users`, where the policies hide nothing that is asked for: the rows of the
condition, and all of them. -/
theorem eval_fetch_users {w : UserRow → Bool}
    (hw : ∀ r, w r = true → schema.passes .select session .users r = true) :
    (Program.fetch TableName.users w).eval schema session db =
      some ((db .users).filter w, db) := by
  rw [Program.eval_fetch]
  refine ⟨granted_select, List.filter_congr fun r _ => ?_, rfl⟩
  rcases hr : w r with _ | _
  · simp
  · simp [hw r hr]

/-- A user sees the own row, and an admin all of them. The policies hide nothing from either that is
asked for by id. -/
theorem eval_getById (hs : session.userId = some u ∨ isAdmin session = true) :
    (UserRepo.getById u).eval schema session db = some (callerRow db u, db) := by
  rw [UserRepo.getById, Program.eval_bind, eval_fetch_users, Option.bind_some, Program.eval_pure,
    List.head?_filter, callerRow]
  intro r hr
  rcases hs with hu | ha
  · rw [passes_select_users, isCurrentUser_users hu, hr, Bool.true_or]
  · rw [passes_select_users, ha, Bool.or_true, Bool.or_true]

theorem eval_getById_own {role : Option UserRole} :
    (UserRepo.getById u).eval schema (userSession u role) db = some (callerRow db u, db) :=
  eval_getById (Or.inl rfl)

/-- The row with an e-mail, whatever the letter case: the unique index leaves one at most. -/
def rowOfEmail (db : Db TableName.Row) (email : String) : Option UserRow :=
  (db .users).find? fun r => sameEmail r.email email

theorem toLower_toLower (email : String) : email.toLower.toLower = email.toLower := by
  have hchar : ∀ c : Char, c.toLower.toLower = c.toLower := by
    intro c
    delta Char.toLower
    split
    · next hupper =>
      apply dif_neg
      simp only [UInt32.le_iff_toNat_le, UInt32.toNat_add] at hupper ⊢
      grind
    · rfl
  change (email.map Char.toLower).map Char.toLower = email.map Char.toLower
  rw [String.map_map]
  exact congrArg (fun f => email.map f) (funext hchar)

/-- The case of an e-mail does not matter: comparing with the small letters is comparing with the
e-mail. -/
theorem sameEmail_toLower {email email' : String} :
    sameEmail email email'.toLower = sameEmail email email' := by
  rw [sameEmail, toLower_toLower, sameEmail]

/-- A login sees the row of its e-mail, and of no other: the policy compares as the query does. -/
theorem eval_getByEmail {email : String} (he : session.email = some email) :
    (UserRepo.getByEmail email).eval schema session db = some (rowOfEmail db email, db) := by
  rw [UserRepo.getByEmail, Program.eval_bind, eval_fetch_users, Option.bind_some,
    Program.eval_pure, List.head?_filter, rowOfEmail]
  intro r hr
  rw [passes_select_users, he, Option.any_some, hr, Bool.true_or, Bool.or_true]

theorem eval_existsByEmail {email : String} (ha : isAdmin session = true) :
    (UserRepo.existsByEmail email).eval schema session db =
      some ((rowOfEmail db email).isSome, db) := by
  have hsome : ∀ rows : List UserRow, (!rows.isEmpty) = rows.head?.isSome := by
    rintro (_ | ⟨r, rows⟩) <;> rfl
  rw [UserRepo.existsByEmail, Program.eval_bind, eval_fetch_users, Option.bind_some,
    Program.eval_pure, rowOfEmail, ← List.head?_filter, hsome]
  intro r hr
  rw [passes_select_users, ha, Bool.or_true, Bool.or_true]

/-! ## The constraints

Which changes of `users` the constraints let through. The other tables refer to users by their ids,
so that a change which keeps the ids leaves them alone. -/

/-- The tables with these users. The other tables stay as they are. -/
def withUsers (db : Db TableName.Row) (rows : List UserRow) : Db TableName.Row :=
  Function.update db .users rows

@[simp] theorem withUsers_users {rows : List UserRow} : withUsers db rows .users = rows :=
  Function.update_self ..

theorem withUsers_of_ne {rows : List UserRow} {t : TableName} (ht : t ≠ .users) :
    withUsers db rows t = db t := by
  rw [withUsers, Function.update_of_ne ht]

/-- A change of `users` that removes no id has to keep the ids and the e-mails unique. -/
theorem admissible_withUsers (h : Admissible db) {rows : List UserRow}
    (hids : ∀ u ∈ userIds db, u ∈ rows.map UserRow.id) :
    Admissible (withUsers db rows) ↔
      (rows.map UserRow.id).Nodup ∧ (rows.map fun r => r.email.toLower).Nodup := by
  have huserIds : userIds (withUsers db rows) = rows.map UserRow.id := by
    rw [userIds, withUsers_users]
  refine ⟨fun h' => ⟨huserIds ▸ h'.userIds, ?_⟩, fun ⟨hid, hemail⟩ => ?_⟩
  · simpa using h'.emails
  · exact
      { userIds := huserIds ▸ hid
        emails := by simpa using hemail
        settings := by rw [withUsers_of_ne (by simp)]; exact h.settings
        accountIds := by rw [withUsers_of_ne (by simp)]; exact h.accountIds
        manualNames := by
          rw [manualNames, withUsers_of_ne (by simp)]
          exact h.manualNames
        integrationIds := by rw [withUsers_of_ne (by simp)]; exact h.integrationIds
        slots := by rw [withUsers_of_ne (by simp)]; exact h.slots
        secrets := by rw [withUsers_of_ne (by simp)]; exact h.secrets
        settingsUsers := by
          rw [withUsers_of_ne (by simp), huserIds]
          exact fun r hr => hids _ (h.settingsUsers r hr)
        accountsUsers := by
          rw [withUsers_of_ne (by simp), huserIds]
          exact fun r hr => hids _ (h.accountsUsers r hr)
        accountsIntegrations := by
          rw [withUsers_of_ne (by simp), withUsers_of_ne (by simp)]
          exact h.accountsIntegrations
        integrationsUsers := by
          rw [withUsers_of_ne (by simp), huserIds]
          exact fun r hr => hids _ (h.integrationsUsers r hr) }

/-- One user's row changed, and the others left as they are. -/
def setRow (db : Db TableName.Row) (u : UUID) (f : UserRow → UserRow) : Db TableName.Row :=
  withUsers db ((db .users).map fun r => if r.id = u then f r else r)

/-- A change that keeps ids and e-mails is admissible: no other column of `users` is under a
constraint. -/
theorem admissible_setRow (h : Admissible db) {f : UserRow → UserRow}
    (hf : ∀ r, (f r).id = r.id ∧ (f r).email = r.email) : Admissible (setRow db u f) := by
  have hone : ∀ r : UserRow, (if r.id = u then f r else r).id = r.id ∧
      (if r.id = u then f r else r).email = r.email := by
    intro r
    split
    · exact hf r
    · exact ⟨rfl, rfl⟩
  have hids : (((db .users).map fun r => if r.id = u then f r else r).map UserRow.id) =
      userIds db := by
    rw [List.map_map, userIds]
    exact List.map_congr_left fun r _ => (hone r).1
  have hemails : (((db .users).map fun r => if r.id = u then f r else r).map fun r =>
      r.email.toLower) = (db .users).map fun r => r.email.toLower := by
    rw [List.map_map]
    exact List.map_congr_left fun r _ => congrArg String.toLower (hone r).2
  rw [setRow, admissible_withUsers h fun v hv => hids ▸ hv, hids, hemails]
  exact ⟨h.userIds, h.emails⟩

/-- `UPDATE users … WHERE id = $1` by the user, or by an admin: it is never refused, and changes the
one row. -/
theorem eval_modify_user (h : Admissible db) (hrole : session.dbRole = .api)
    (hs : session.userId = some u ∨ isAdmin session = true) {f : UserRow → UserRow}
    (hf : ∀ r, (f r).id = r.id ∧ (f r).email = r.email) :
    (Program.modify TableName.users (fun r : UserRow => decide (r.id = u)) f).eval schema session
        db =
      some (((db .users).filter fun r => decide (r.id = u)).map f, setRow db u f) := by
  have hmine : ∀ r : UserRow, r.id = u →
      (isCurrentUser .users session r || isAdmin session) = true := by
    intro r hr
    rcases hs with hu | ha
    · rw [isCurrentUser_users hu, decide_eq_true hr, Bool.true_or]
    · rw [ha, Bool.or_true]
  have htakes : ∀ r : UserRow,
      schema.takes .update session .users (fun r : UserRow => decide (r.id = u)) r =
        decide (r.id = u) := by
    intro r
    rw [Schema.takes, passes_select_users, passes_update_users]
    by_cases hr : r.id = u
    · have hm := hmine r hr
      rw [decide_eq_true hr, hm]
      simp only [Bool.and_true, Bool.or_eq_true] at hm ⊢
      exact hm.imp_right Or.inr
    · rw [decide_eq_false hr, Bool.and_false]
  have hgranted : schema.granted session .users .update = true :=
    congrArg (fun d => granted d .users .update) hrole
  have hreplace : ∀ r ∈ db .users,
      schema.takes .update session .users (fun r : UserRow => decide (r.id = u)) r = true →
        schema.mayReplace session .users r (f r) = true := by
    intro r _ ht
    have hid : (f r).id = u := (hf r).1.trans (of_decide_eq_true ((htakes r).symm.trans ht))
    have hm := hmine (f r) hid
    have hcolumns : schema.columns session .users r (f r) = true := by
      change updatableColumns session .users r (f r) = true
      simp only [updatableColumns, hrole]
    rw [Schema.mayReplace, admits_update_users, passes_select_users, hm, hcolumns]
    simp only [Bool.true_and, Bool.and_true, Bool.or_eq_true] at hm ⊢
    exact hm.imp_right Or.inr
  have hupdated : schema.updated session .users (fun r : UserRow => decide (r.id = u)) f
      (db .users) = (db .users).map fun r => if r.id = u then f r else r := by
    rw [Schema.updated]
    apply List.map_congr_left
    intro r _
    rw [htakes]
    exact if_congr decide_eq_true_iff rfl rfl
  rw [Program.eval_modify, hupdated]
  refine ⟨⟨granted_select, hgranted, hreplace, ?_⟩, ?_, rfl⟩
  · exact decide_eq_true (admissible_setRow h hf)
  · exact congrArg (List.map f) (List.filter_congr fun r _ => (htakes r).symm)

/-! ## What the statements do

The statements of the requests, each brought down to what it does to the tables. From here on the
requests no longer mention policies or constraints. -/

/-- The user touches the own row: `last_active_at` is set, and nothing else but `updated_at`. -/
theorem eval_touch_user (h : Admissible db) {role : Option UserRole} {now : Timestamp} :
    (UserRepo.touchLastActiveAt u now).eval schema (userSession u role) db =
      some ((), setRow db u (UserRepo.touched now)) := by
  have hmodify := @eval_modify_user (userSession u role) db u h rfl (Or.inl rfl)
    (UserRepo.touched now) fun _ => ⟨rfl, rfl⟩
  rw [UserRepo.touchLastActiveAt, Program.eval_bind, hmodify]
  rfl

/-- **A login touches nothing**: no policy lets a session without a user update a row. -/
theorem eval_touch_login (h : Admissible db) {email : String} {now : Timestamp} :
    (UserRepo.touchLastActiveAt u now).eval schema (loginSession email) db = some ((), db) := by
  have htakes : ∀ (w : UserRow → Bool) (r : UserRow),
      schema.takes .update (loginSession email) .users w r = false := by
    intro w r
    have hupdate : schema.passes .update (loginSession email) .users r = false := by
      rw [passes_update_users]
      rfl
    rw [Schema.takes, hupdate, Bool.and_false, Bool.false_and]
  have hsame : ∀ (w : UserRow → Bool) (f : UserRow → UserRow),
      schema.updated (loginSession email) .users w f (db .users) = db .users := by
    intro w f
    refine (List.map_congr_left fun r _ => ?_).trans (List.map_id' _)
    rw [htakes]
    rfl
  have hmodify : ∀ (w : UserRow → Bool) (f : UserRow → UserRow),
      (Program.modify TableName.users w f).eval schema (loginSession email) db = some ([], db) := by
    intro w f
    have hnone : (db .users).filter (schema.takes .update (loginSession email) .users w) = [] :=
      List.filter_eq_nil_iff.mpr fun r _ => by rw [htakes]; exact Bool.false_ne_true
    rw [Program.eval_modify, hsame, Function.update_eq_self, hnone]
    refine ⟨⟨granted_select, rfl, fun r _ ht => ?_, decide_eq_true h⟩, rfl, rfl⟩
    exact absurd ((htakes w r).symm.trans ht) Bool.false_ne_true
  rw [UserRepo.touchLastActiveAt, Program.eval_bind, hmodify]
  rfl

/-- An admin changes the flag of any user, whatever the row says. -/
theorem eval_setActive (h : Admissible db) {admin : UUID} {now : Timestamp} :
    (UserRepo.setActive u false now).eval schema (userSession admin (some .admin)) db =
      some ((), setRow db u (UserRepo.flagged false now)) := by
  have hmodify := @eval_modify_user (userSession admin (some .admin)) db u h rfl (Or.inr rfl)
    (UserRepo.flagged false now) fun _ => ⟨rfl, rfl⟩
  rw [UserRepo.setActive, Program.eval_bind, hmodify]
  rfl

/-- The tables with a new user and the settings the trigger adds. The new rows come last. -/
def withUser (db : Db TableName.Row) (r : UserRow) : Db TableName.Row :=
  Function.update (withUsers db (db .users ++ [r])) .userSettings
    (db .userSettings ++ [⟨r.id, none, "UTC", r.createdAt⟩])

@[simp] theorem withUser_users : withUser db r .users = db .users ++ [r] := by
  rw [withUser, Function.update_of_ne (by simp), withUsers_users]

/-- Nobody has the e-mail, in whatever letter case it is asked for. -/
theorem rowOfEmail_eq_none {email : String} :
    rowOfEmail db email = none ↔ email.toLower ∉ (db .users).map fun r => r.email.toLower := by
  rw [rowOfEmail, List.find?_eq_none, List.mem_map]
  refine ⟨fun h ⟨r, hr, he⟩ => h r hr (decide_eq_true he), fun h r hr he => h ⟨r, hr, ?_⟩⟩
  exact of_decide_eq_true he

/-- A new user is admissible exactly if the id and the e-mail are free: nothing else of the row is
under a constraint. -/
theorem admissible_append_user (h : Admissible db) :
    Admissible (withUsers db (db .users ++ [r])) ↔
      r.id ∉ userIds db ∧ rowOfEmail db r.email = none := by
  have hids : (db .users ++ [r]).map UserRow.id = userIds db ++ [r.id] := List.map_append
  have hemails : ((db .users ++ [r]).map fun r => r.email.toLower) =
      ((db .users).map fun r => r.email.toLower) ++ [r.email.toLower] := List.map_append
  rw [admissible_withUsers h fun u hu => hids ▸ List.mem_append_left _ hu, hids, hemails,
    ← List.concat_eq_append, ← List.concat_eq_append, List.nodup_concat, List.nodup_concat,
    rowOfEmail_eq_none]
  exact ⟨fun ⟨⟨hid, _⟩, hemail, _⟩ => ⟨hid, hemail⟩,
    fun ⟨hid, hemail⟩ => ⟨⟨hid, h.userIds⟩, hemail, h.emails⟩⟩

/-- The settings of a new user break no constraint: they are the first of a user who is there. -/
theorem admissible_withUser (h : Admissible db) (hid : r.id ∉ userIds db)
    (h' : Admissible (withUsers db (db .users ++ [r]))) : Admissible (withUser db r) := by
  have hother : ∀ t, t ≠ .userSettings → withUser db r t = withUsers db (db .users ++ [r]) t :=
    fun t ht => by rw [withUser, Function.update_of_ne ht]
  have hsettings : withUser db r .userSettings =
      db .userSettings ++ [⟨r.id, none, "UTC", r.createdAt⟩] := by
    rw [withUser, Function.update_self]
  have hids : userIds (withUser db r) = userIds (withUsers db (db .users ++ [r])) := by
    rw [userIds, hother .users (by simp), userIds]
  -- settings belong to users, so a new user has none
  have hnew : r.id ∉ (db .userSettings).map UserSettingsRow.userId := by
    rintro hmem
    obtain ⟨x, hx, hxid⟩ := List.mem_map.mp hmem
    exact hid (hxid ▸ h.settingsUsers x hx)
  exact
    { userIds := hids ▸ h'.userIds
      emails := by rw [hother .users (by simp)]; exact h'.emails
      settings := by
        rw [hsettings, List.map_append, List.map_cons, List.map_nil, ← List.concat_eq_append,
          List.nodup_concat]
        exact ⟨hnew, h.settings⟩
      accountIds := by rw [hother .accounts (by simp)]; exact h'.accountIds
      manualNames := by
        rw [manualNames, hother .accounts (by simp)]
        exact h'.manualNames
      integrationIds := by rw [hother .bankIntegrations (by simp)]; exact h'.integrationIds
      slots := by rw [hother .bankIntegrations (by simp)]; exact h'.slots
      secrets := by rw [hother .bankIntegrations (by simp)]; exact h'.secrets
      settingsUsers := by
        rw [hsettings, hids]
        intro x hx
        have hall : userIds (withUsers db (db .users ++ [r])) = userIds db ++ [r.id] := by
          rw [userIds, withUsers_users, List.map_append]
          rfl
        rw [hall]
        rcases List.mem_append.mp hx with hx | hx
        · exact List.mem_append_left _ (h.settingsUsers x hx)
        · obtain rfl := List.mem_singleton.mp hx
          exact List.mem_append_right _ (List.mem_singleton_self _)
      accountsUsers := by rw [hother .accounts (by simp), hids]; exact h'.accountsUsers
      accountsIntegrations := by
        rw [hother .accounts (by simp), hother .bankIntegrations (by simp)]
        exact h'.accountsIntegrations
      integrationsUsers := by
        rw [hother .bankIntegrations (by simp), hids]
        exact h'.integrationsUsers }

/-- An admin inserts a user: only a unique index can refuse, that of the id or that of the
e-mail. -/
theorem eval_create_user (h : Admissible db) {admin : UUID} :
    (UserRepo.create r).eval schema (userSession admin (some .admin)) db =
      if r.id ∉ userIds db ∧ rowOfEmail db r.email = none then some (r, withUser db r)
      else none := by
  have hinsert : (Program.create TableName.users r true).eval schema
      (userSession admin (some .admin)) db =
        if Admissible (withUsers db (db .users ++ [r])) then
          some ((), withUsers db (db .users ++ [r]))
        else none := by
    simp only [Program.create, Program.eval_insert, Program.eval_answer]
    refine if_congr ⟨fun h => of_decide_eq_true h.2.2.2, fun h => ?_⟩ rfl rfl
    refine ⟨rfl, admits_insert_users, fun _ => ⟨rfl, ?_⟩, decide_eq_true h⟩
    rw [passes_select_users]
    simp [isAdmin, userSession]
  rw [UserRepo.create, Program.eval_bind, hinsert]
  by_cases hadm : Admissible (withUsers db (db .users ++ [r]))
  · have hfree := (admissible_append_user h).mp hadm
    have hsettings : (Program.create TableName.userSettings
        ⟨r.id, none, "UTC", r.createdAt⟩ false).eval schema (userSession admin (some .admin))
          (withUsers db (db .users ++ [r])) = some ((), withUser db r) := by
      have hdb : Function.update (withUsers db (db .users ++ [r])) .userSettings
          (withUsers db (db .users ++ [r]) .userSettings ++ [⟨r.id, none, "UTC", r.createdAt⟩]) =
            withUser db r := by
        rw [withUsers_of_ne (by simp), withUser]
      rw [Program.eval_create, hdb]
      refine ⟨⟨rfl, ?_, fun hret => absurd hret Bool.false_ne_true,
        decide_eq_true (admissible_withUser h hfree.1 hadm)⟩, rfl⟩
      simp [Schema.admits, schema, policies, isolation, adminAll, Policy.covers, isAdmin,
        userSession]
    rw [if_pos hadm, if_pos hfree, Option.bind_some, Program.eval_bind, hsettings]
    rfl
  · rw [if_neg hadm, if_neg fun hfree => hadm ((admissible_append_user h).mpr hfree)]
    rfl

/-! ## What the requests do

Each request is one equation: its answer and the state it leaves, as a case distinction on the
tables and the request alone. -/

namespace ApiState

variable {env : ApiEnv} {s : ApiState} {fresh : FreshSession} {bearer : Option Claims}

/-- The state with a session of the user: one refresh token more, and one signed payload more. -/
def opened (s : ApiState) (userId : UUID) (fresh : FreshSession) : ApiState :=
  { s with
    signed := encodeAccessToken s.now userId fresh.jti :: s.signed
    tokens := s.tokens.insert (fresh.token userId s.now) }

theorem startSession_login (h : Admissible s.db) {email : String} :
    s.startSession (loginSession email) u fresh =
      if s.tokens.Clash (fresh.token u s.now) then (.error internalError, s)
      else (.ok (encodeAccessToken s.now u fresh.jti), s.opened u fresh) := by
  rw [startSession, eval_touch_login h]
  rfl

theorem startSession_user (h : Admissible s.db) {role : Option UserRole} :
    s.startSession (userSession u role) u fresh =
      if s.tokens.Clash (fresh.token u s.now) then (.error internalError, s)
      else (.ok (encodeAccessToken s.now u fresh.jti),
        { s.opened u fresh with db := setRow s.db u (UserRepo.touched s.now) }) := by
  rw [startSession, eval_touch_user h]
  rfl

theorem login_none {email password : String} (hr : rowOfEmail s.db email.toLower = none) :
    s.login env email password fresh = (.error invalidCredentials, s) := by
  rw [login, eval_getByEmail rfl, hr]

/-- A login needs the password and an active user, and leaves the tables as they are: its `UPDATE`
of `last_active_at` finds no row the policies let it touch. -/
theorem login_some (h : Admissible s.db) {email password : String}
    (hr : rowOfEmail s.db email.toLower = some r) :
    s.login env email password fresh =
      if env.verifyPassword password r.passwordHash ∧ r.isActive then
        if s.tokens.Clash (fresh.token r.id s.now) then (.error internalError, s)
        else (.ok (encodeAccessToken s.now r.id fresh.jti), s.opened r.id fresh)
      else (.error invalidCredentials, s) := by
  rw [login, eval_getByEmail rfl, hr]
  simp only [startSession_login h]
  rcases env.verifyPassword password r.passwordHash with _ | _
  · simp
  · rcases r.isActive with _ | _ <;> simp

theorem mem_of_presentedToken {presented : Option String} {token : RefreshTokenRow}
    (ht : s.presentedToken presented = some token) :
    token ∈ s.tokens ∧ presented = some token.tokenHash := by
  obtain ⟨hash, hp, hfind⟩ := Option.bind_eq_some_iff.mp ht
  have hhash : decide (token.tokenHash = hash) = true := @List.find?_some _ _ token _ hfind
  exact ⟨List.mem_of_find?_eq_some hfind, hp.trans (congrArg some (of_decide_eq_true hhash).symm)⟩

theorem refresh_none {presented : Option String} (ht : s.presentedToken presented = none) :
    s.refresh presented fresh = (.error sessionExpired, s) := by
  rw [refresh, ht]

/-- A refresh needs a token that has not expired, of an active user. It deletes that token, opens a
session and sets `last_active_at`. -/
theorem refresh_some (h : Admissible s.db) {presented : Option String} {token : RefreshTokenRow}
    (ht : s.presentedToken presented = some token) :
    s.refresh presented fresh =
      if token.expiresAt < s.now ∨ isAuthenticated s.db token.userId = false then
        (.error sessionExpired, s)
      else if (s.tokens.delete fun r => decide (r.id = token.id)).Clash
          (fresh.token token.userId s.now) then (.error internalError, s)
      else (.ok (encodeAccessToken s.now token.userId fresh.jti),
        { (s.without fun r => decide (r.id = token.id)).opened token.userId fresh with
          db := setRow s.db token.userId (UserRepo.touched s.now) }) := by
  rw [refresh, ht, isAuthenticated]
  simp only [eval_getById_own]
  by_cases hexpired : token.expiresAt < s.now
  · simp [hexpired]
  rcases hr : callerRow s.db token.userId with _ | user
  · simp [hexpired]
  have hid : user.id = token.userId := by
    have hfound : decide (user.id = token.userId) = true := @List.find?_some _ _ user _ hr
    exact of_decide_eq_true hfound
  rcases ha : user.isActive with _ | _
  · simp [hexpired, ha]
  simp only [hexpired, ha, hid, Option.any_some, Bool.not_true, Bool.false_eq_true, if_false,
    Bool.true_eq_false, or_self]
  have hstart : (s.without fun r => decide (r.id = token.id)).startSession
      (userSession token.userId none) token.userId fresh =
        if (s.tokens.delete fun r => decide (r.id = token.id)).Clash
            (fresh.token token.userId s.now) then
          (.error internalError, s.without fun r => decide (r.id = token.id))
        else (.ok (encodeAccessToken s.now token.userId fresh.jti),
          { (s.without fun r => decide (r.id = token.id)).opened token.userId fresh with
            db := setRow s.db token.userId (UserRepo.touched s.now) }) :=
    @startSession_user token.userId (s.without fun r => decide (r.id = token.id)) fresh h none
  rw [hstart]
  by_cases hclash : (s.tokens.delete fun r => decide (r.id = token.id)).Clash
    (fresh.token token.userId s.now)
  · rw [if_pos hclash, if_pos hclash]
  · rw [if_neg hclash, if_neg hclash]

/-- Who is let in is there and active, and is the one the token was signed for. -/
theorem of_getCurrentUser (hc : s.getCurrentUser bearer = .ok r) :
    ∃ token, bearer = some token ∧ token.sub = some r.id ∧ callerRow s.db r.id = some r ∧
      r.isActive = true := by
  cases bearer with
  | none => cases hc
  | some token =>
    simp only [getCurrentUser] at hc
    rcases hdecoded : s.access.decodeAccessToken token with message | payload
    · rw [hdecoded] at hc
      cases hc
    obtain ⟨rfl, -, -⟩ := AccessState.decodeAccessToken_eq_ok hdecoded
    simp only [hdecoded] at hc
    split at hc
    · cases hc
    rcases hsub : payload.sub with _ | u
    · rw [hsub] at hc
      cases hc
    simp only [hsub, eval_getById_own] at hc
    rcases hr : callerRow s.db u with _ | record
    · rw [hr] at hc
      cases hc
    simp only [hr] at hc
    split at hc
    · next ha =>
      cases hc
      have hid : decide (r.id = u) = true := @List.find?_some _ _ r _ hr
      obtain rfl := of_decide_eq_true hid
      exact ⟨payload, rfl, hsub, hr, ha⟩
    · cases hc

/-- Who is not active is not let in, whatever the token says and however long it is still good. -/
theorem getCurrentUser_of_not_authenticated {token : Claims} (hsub : token.sub = some u)
    (ha : isAuthenticated s.db u = false) :
    s.getCurrentUser (some token) = .error notAuthenticated := by
  simp only [getCurrentUser]
  rcases hdecoded : s.access.decodeAccessToken token with message | payload
  · rfl
  obtain ⟨rfl, -, -⟩ := AccessState.decodeAccessToken_eq_ok hdecoded
  simp only [hsub, eval_getById_own]
  split
  · rfl
  rcases hr : callerRow s.db u with _ | record
  · rfl
  rw [isAuthenticated, hr, Option.any_some] at ha
  simp only [ha, Bool.false_eq_true, if_false]

theorem of_requireAdmin (hc : s.requireAdmin bearer = .ok r) :
    s.getCurrentUser bearer = .ok r ∧ r.role = .admin := by
  rw [requireAdmin] at hc
  rcases hu : s.getCurrentUser bearer with problem | user
  · rw [hu] at hc
    cases hc
  rw [hu, Except.bind] at hc
  split at hc
  · cases hc
  · next hrole =>
    cases hc
    exact ⟨rfl, Decidable.not_not.mp hrole⟩

/-- A new user: refused exactly if the e-mail or the id is taken, with one answer for both. -/
theorem createUser_admin (h : Admissible s.db) {admin : UserRow} {q : CreateUserRequest}
    (hadmin : s.requireAdmin bearer = .ok admin) :
    s.createUser bearer q =
      if q.newId ∉ userIds s.db ∧ rowOfEmail s.db q.email.toLower = none then
        (.ok (q.row s.now), { s with db := withUser s.db (q.row s.now) })
      else (.error userAlreadyExists, s) := by
  have hrole := (of_requireAdmin hadmin).2
  have heval : (UserService.createUser q s.now).eval schema (userSession admin.id (some admin.role))
      s.db =
        if (rowOfEmail s.db q.email.toLower).isSome then some (.error userAlreadyExists, s.db)
        else if q.newId ∉ userIds s.db ∧ rowOfEmail s.db q.email.toLower = none then
          some (.ok (q.row s.now), withUser s.db (q.row s.now))
        else none := by
    rw [hrole, UserService.createUser, Program.eval_bind, eval_existsByEmail rfl,
      Option.bind_some]
    split
    · rfl
    · rw [Program.eval_bind, eval_create_user h]
      change Option.bind (if q.newId ∉ userIds s.db ∧
        rowOfEmail s.db q.email.toLower = none then _ else none) _ = _
      split <;> rfl
  rw [createUser, hadmin]
  simp only [runHandler, heval]
  rcases hr : rowOfEmail s.db q.email.toLower with _ | r
  · by_cases hid : q.newId ∈ userIds s.db <;> simp [hid]
  · simp

/-- A deactivation: the admin has to be another, and the user has to be there. The flag goes, and
with it every refresh token of the user. -/
theorem deleteUser_admin (h : Admissible s.db) {admin : UserRow} {targetId : UUID}
    (hadmin : s.requireAdmin bearer = .ok admin) :
    s.deleteUser bearer targetId =
      if admin.id = targetId then (.error cannotDeleteSelf, s)
      else if callerRow s.db targetId = none then (.error userNotFound, s)
      else (.ok (), { s.without fun r => decide (r.userId = targetId) with
        db := setRow s.db targetId (UserRepo.flagged false s.now) }) := by
  have hrole := (of_requireAdmin hadmin).2
  have heval : (UserService.deleteUser admin.id targetId s.now).eval schema
      (userSession admin.id (some admin.role)) s.db =
        if admin.id = targetId then some (.error cannotDeleteSelf, s.db)
        else if callerRow s.db targetId = none then some (.error userNotFound, s.db)
        else some (.ok (), setRow s.db targetId (UserRepo.flagged false s.now)) := by
    rw [hrole, UserService.deleteUser]
    by_cases hself : admin.id = targetId
    · rw [if_pos hself, if_pos hself]
      rfl
    rw [if_neg hself, if_neg hself, Program.eval_bind, eval_getById (Or.inr rfl), Option.bind_some]
    rcases callerRow s.db targetId with _ | target
    · rfl
    · simp only [reduceCtorEq, if_false]
      rw [Program.eval_bind, eval_setActive h]
      rfl
  rw [deleteUser, hadmin]
  simp only [runHandler, heval]
  by_cases hself : admin.id = targetId
  · simp [hself]
  · by_cases hnone : callerRow s.db targetId = none <;> simp [hself, hnone, without]

end ApiState

/-! ## What the settings requests do

The settings of each user are one row. A request changes its caller's and leaves those of all
others. -/

theorem passes_settings {c : Command} {r : UserSettingsRow} :
    schema.passes c session .userSettings r =
      (isCurrentUser .userSettings session r || isAdmin session) := by
  simp [Schema.passes, schema, policies, isolation, adminAll, Policy.covers]

theorem admits_settings {c : Command} {r : UserSettingsRow} :
    schema.admits c session .userSettings r =
      (isCurrentUser .userSettings session r || isAdmin session) := by
  simp [Schema.admits, schema, policies, isolation, adminAll, Policy.covers]

theorem isCurrentUser_settings {r : UserSettingsRow} (hu : session.userId = some u) :
    isCurrentUser .userSettings session r = decide (r.userId = u) := by
  simp [isCurrentUser, owner, hu]

/-- The settings of a user: the row with the user's id, of which there is one at most. -/
def settingsOf (db : Db TableName.Row) (u : UUID) : Option UserSettingsRow :=
  (db .userSettings).find? fun r => decide (r.userId = u)

theorem userId_of_settingsOf {r : UserSettingsRow} (hr : settingsOf db u = some r) :
    r.userId = u := by
  have hfound : decide (r.userId = u) = true := @List.find?_some _ _ r _ hr
  exact of_decide_eq_true hfound

theorem eval_getByUserId (hu : session.userId = some u) :
    (SettingsRepo.getByUserId u).eval schema session db = some (settingsOf db u, db) := by
  rw [SettingsRepo.getByUserId, Program.eval_bind, eval_fetch_own hu, Option.bind_some,
    Program.eval_pure, List.head?_filter, settingsOf]
  exact fun r hr => congrArg some (of_decide_eq_true hr)

/-- The row an upsert leaves: the old one with the fields the request names, or the defaults with
them. -/
def settingsAfter (u : UUID) (defaultRateSource timezone : Option String) (now : Timestamp)
    (old : Option UserSettingsRow) : UserSettingsRow :=
  old.elim ⟨u, defaultRateSource, timezone.getD "UTC", now⟩
    (SettingsRepo.merged defaultRateSource timezone now)

/-- The tables with these settings. The other tables stay as they are. -/
def withSettings (db : Db TableName.Row) (rows : List UserSettingsRow) : Db TableName.Row :=
  Function.update db .userSettings rows

@[simp] theorem withSettings_settings {rows : List UserSettingsRow} :
    withSettings db rows .userSettings = rows := Function.update_self ..

theorem withSettings_of_ne {rows : List UserSettingsRow} {t : TableName} (ht : t ≠ .userSettings) :
    withSettings db rows t = db t := by
  rw [withSettings, Function.update_of_ne ht]

/-- A change of the settings has to keep one row for each user, and only of users who are there. -/
theorem admissible_withSettings (h : Admissible db) {rows : List UserSettingsRow}
    (hids : (rows.map UserSettingsRow.userId).Nodup) (husers : ∀ r ∈ rows, r.userId ∈ userIds db) :
    Admissible (withSettings db rows) := by
  have huserIds : userIds (withSettings db rows) = userIds db := by
    rw [userIds, withSettings_of_ne (by simp), userIds]
  exact
    { userIds := huserIds ▸ h.userIds
      emails := by rw [withSettings_of_ne (by simp)]; exact h.emails
      settings := by rw [withSettings_settings]; exact hids
      accountIds := by rw [withSettings_of_ne (by simp)]; exact h.accountIds
      manualNames := by
        rw [manualNames, withSettings_of_ne (by simp)]
        exact h.manualNames
      integrationIds := by rw [withSettings_of_ne (by simp)]; exact h.integrationIds
      slots := by rw [withSettings_of_ne (by simp)]; exact h.slots
      secrets := by rw [withSettings_of_ne (by simp)]; exact h.secrets
      settingsUsers := by
        rw [withSettings_settings, huserIds]
        exact husers
      accountsUsers := by rw [withSettings_of_ne (by simp), huserIds]; exact h.accountsUsers
      accountsIntegrations := by
        rw [withSettings_of_ne (by simp), withSettings_of_ne (by simp)]
        exact h.accountsIntegrations
      integrationsUsers := by
        rw [withSettings_of_ne (by simp), huserIds]
        exact h.integrationsUsers }

/-- What an upsert does to the tables: the user's settings are the new row, everybody else's are the
same, and so are the other tables. -/
structure Upserted (u : UUID) (row : UserSettingsRow) (db db' : Db TableName.Row) : Prop where
  own : settingsOf db' u = some row
  other : ∀ v, v ≠ u → settingsOf db' v = settingsOf db v
  tables : ∀ t, t ≠ .userSettings → db' t = db t
  admissible : Admissible db'

/-- A user's first settings: the row comes last, and nobody else's is touched. -/
theorem upserted_insert (h : Admissible db) (hu : u ∈ userIds db) {row : UserSettingsRow}
    (hrow : row.userId = u) (hnone : settingsOf db u = none) :
    Upserted u row db (withSettings db (db .userSettings ++ [row])) := by
  rw [settingsOf, List.find?_eq_none] at hnone
  have hfresh : row.userId ∉ (db .userSettings).map UserSettingsRow.userId := by
    rw [List.mem_map, hrow]
    rintro ⟨r, hr, hid⟩
    exact hnone r hr (decide_eq_true hid)
  refine ⟨?_, fun v hv => ?_, fun t ht => withSettings_of_ne ht, admissible_withSettings h ?_ ?_⟩
  · rw [settingsOf, withSettings_settings, List.find?_append,
      List.find?_eq_none.mpr hnone, Option.none_or]
    simp [hrow]
  · have hne : row.userId ≠ v := fun heq => hv (heq ▸ hrow)
    rw [settingsOf, withSettings_settings, List.find?_append, settingsOf]
    simp [hne]
  · rw [List.map_append, List.map_cons, List.map_nil, ← List.concat_eq_append, List.nodup_concat]
    exact ⟨hfresh, h.settings⟩
  · intro r hr
    rcases List.mem_append.mp hr with hr | hr
    · exact h.settingsUsers r hr
    · obtain rfl := List.mem_singleton.mp hr
      exact hrow ▸ hu

/-- A user's settings again: the row is changed in its place. -/
theorem upserted_update (h : Admissible db) {f : UserSettingsRow → UserSettingsRow}
    (hf : ∀ r, (f r).userId = r.userId) {old : UserSettingsRow}
    (hold : settingsOf db u = some old) :
    Upserted u (f old) db (withSettings db
      ((db .userSettings).map fun r => if r.userId = u then f r else r)) := by
  have hone : ∀ r : UserSettingsRow, (if r.userId = u then f r else r).userId = r.userId := by
    intro r
    split
    · exact hf r
    · rfl
  have hfind : ∀ v, settingsOf (withSettings db
      ((db .userSettings).map fun r => if r.userId = u then f r else r)) v =
        (settingsOf db v).map fun r => if r.userId = u then f r else r := by
    intro v
    rw [settingsOf, withSettings_settings, List.find?_map, settingsOf]
    refine congrArg (Option.map _) (congrArg (fun p => List.find? p (db .userSettings)) ?_)
    exact funext fun r => congrArg (fun x => decide (x = v)) (hone r)
  refine ⟨?_, fun v hv => ?_, fun t ht => withSettings_of_ne ht, admissible_withSettings h ?_ ?_⟩
  · rw [hfind, hold, Option.map_some, if_pos (userId_of_settingsOf hold)]
  · rw [hfind]
    rcases hr : settingsOf db v with _ | r
    · rfl
    · rw [Option.map_some, if_neg fun heq => hv ((userId_of_settingsOf hr).symm.trans heq)]
  · rw [List.map_map]
    exact (List.map_congr_left fun r _ => hone r) ▸ h.settings
  · intro r' hr'
    obtain ⟨r, hr, rfl⟩ := List.mem_map.mp hr'
    rw [hone]
    exact h.settingsUsers r hr

/-- The own settings can be written, and nothing else is: no policy, no grant and no constraint is
in the way. -/
theorem eval_upsert (h : Admissible db) (hrole : session.dbRole = .api)
    (hs : session.userId = some u) (hu : u ∈ userIds db)
    {defaultRateSource timezone : Option String} {now : Timestamp} : ∃ db',
      (SettingsRepo.upsert u defaultRateSource timezone now).eval schema session db =
        some (some (settingsAfter u defaultRateSource timezone now (settingsOf db u)), db') ∧
      Upserted u (settingsAfter u defaultRateSource timezone now (settingsOf db u)) db db' := by
  have hmine : ∀ r : UserSettingsRow, r.userId = u →
      (isCurrentUser .userSettings session r || isAdmin session) = true := by
    intro r hr
    rw [isCurrentUser_settings hs, decide_eq_true hr, Bool.true_or]
  rw [SettingsRepo.upsert, Program.eval_bind, eval_getByUserId hs, Option.bind_some]
  rcases hold : settingsOf db u with _ | old
  -- no row yet: one is inserted, which the caller may read back
  · have hup := upserted_insert h hu
      (rfl : (⟨u, defaultRateSource, timezone.getD "UTC", now⟩ : UserSettingsRow).userId = u) hold
    refine ⟨_, ?_, hup⟩
    have hcreate : (Program.create TableName.userSettings
        ⟨u, defaultRateSource, timezone.getD "UTC", now⟩ true).eval schema session db =
          some ((), withSettings db
            (db .userSettings ++ [⟨u, defaultRateSource, timezone.getD "UTC", now⟩])) := by
      rw [Program.eval_create]
      refine ⟨⟨congrArg (fun d => granted d .userSettings .insert) hrole,
        admits_settings.trans (hmine _ rfl), fun _ => ⟨granted_select,
          passes_settings.trans (hmine _ rfl)⟩, decide_eq_true hup.admissible⟩, rfl⟩
    simp only [Program.eval_bind, hcreate]
    rfl
  -- the caller's row, which the policies pass: the update takes it and no other
  · have hup := @upserted_update db u h (SettingsRepo.merged defaultRateSource timezone now)
      (fun _ => rfl) old hold
    refine ⟨_, ?_, hup⟩
    have htakes : ∀ r : UserSettingsRow, schema.takes .update session .userSettings
        (fun r : UserSettingsRow => decide (r.userId = u)) r = decide (r.userId = u) := by
      intro r
      rw [Schema.takes, passes_settings, passes_settings]
      by_cases hr : r.userId = u
      · rw [hmine r hr, decide_eq_true hr]
        rfl
      · rw [decide_eq_false hr, Bool.and_false]
    have hfilter : (db .userSettings).filter (schema.takes .update session .userSettings
        fun r : UserSettingsRow => decide (r.userId = u)) =
          (db .userSettings).filter fun r => decide (r.userId = u) :=
      List.filter_congr fun r _ => htakes r
    have hupdated : schema.updated session .userSettings
        (fun r : UserSettingsRow => decide (r.userId = u))
          (SettingsRepo.merged defaultRateSource timezone now) (db .userSettings) =
            (db .userSettings).map fun r => if r.userId = u then
              SettingsRepo.merged defaultRateSource timezone now r else r := by
      rw [Schema.updated]
      apply List.map_congr_left
      intro r _
      rw [htakes]
      exact if_congr decide_eq_true_iff rfl rfl
    have hmodify : (Program.modify TableName.userSettings
        (fun r : UserSettingsRow => decide (r.userId = u))
          (SettingsRepo.merged defaultRateSource timezone now)).eval schema session db =
        some (((db .userSettings).filter fun r => decide (r.userId = u)).map
            (SettingsRepo.merged defaultRateSource timezone now),
          withSettings db ((db .userSettings).map fun r => if r.userId = u then
            SettingsRepo.merged defaultRateSource timezone now r else r)) := by
      rw [Program.eval_modify, hupdated, hfilter]
      refine ⟨⟨granted_select, congrArg (fun d => granted d .userSettings .update) hrole,
        fun r _ ht => ?_, decide_eq_true hup.admissible⟩, rfl, rfl⟩
      have hr : r.userId = u := of_decide_eq_true ((htakes r).symm.trans ht)
      rw [Schema.mayReplace, admits_settings, passes_settings,
        hmine (SettingsRepo.merged defaultRateSource timezone now r) hr]
      rfl
    simp only [Program.eval_bind, hmodify, Option.bind_some, Program.eval_pure, List.head?_map,
      List.head?_filter]
    rw [show (db .userSettings).find? (fun r => decide (r.userId = u)) = some old from hold]
    rfl

namespace ApiState

variable {env : ApiEnv} {s : ApiState} {bearer : Option Claims}

/-- An authenticated user is one of the users: a foreign key to the caller always holds. -/
theorem mem_userIds_of_getCurrentUser (hc : s.getCurrentUser bearer = .ok r) :
    r.id ∈ userIds s.db := by
  obtain ⟨-, -, -, hrow, -⟩ := of_getCurrentUser hc
  exact List.mem_map_of_mem (List.mem_of_find?_eq_some hrow)

theorem getSettings_user {user : UserRow} (hc : s.getCurrentUser bearer = .ok user) :
    s.getSettings bearer =
      .ok ((settingsOf s.db user.id).elim ⟨none, "UTC", none⟩ UserSettings.ofRow) := by
  rw [getSettings, hc, Except.bind, eval_getByUserId rfl]
  rcases settingsOf s.db user.id with _ | row <;> rfl

/-- A change of the settings: refused exactly if a value is not known. The answer is the row it
leaves. -/
theorem updateSettings_user (h : Admissible s.db) {user : UserRow} {q : UpdateSettingsRequest}
    (hc : s.getCurrentUser bearer = .ok user) (hq : q.problem env = none) : ∃ db',
    s.updateSettings env bearer q = (.ok (.ofRow (settingsAfter user.id q.defaultRateSource
      q.timezone s.now (settingsOf s.db user.id))), { s with db := db' }) ∧
    Upserted user.id (settingsAfter user.id q.defaultRateSource q.timezone s.now
      (settingsOf s.db user.id)) s.db db' := by
  obtain ⟨db', heval, hup⟩ := @eval_upsert (userSession user.id (some user.role)) s.db user.id h rfl
    rfl (mem_userIds_of_getCurrentUser hc) q.defaultRateSource q.timezone s.now
  refine ⟨db', ?_, hup⟩
  rw [updateSettings, hc]
  simp only [hq, heval]

end ApiState

end Api

end Grosh
