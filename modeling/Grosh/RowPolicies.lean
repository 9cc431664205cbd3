import Grosh.Lib.RowSecurity
import Grosh.Linking
import Grosh.ReprocessJobs

/-!
# The row-level security of the tables

The migrations create six tables with row-level security and two roles that are subject to it,
`grosh_api` and `grosh_ingestion`. A request sets the session variables `app.current_user_id`,
`app.current_user_email`, `app.current_user_role` and `app.current_webhook_secret` for its
transaction, and the policies compare the rows with them.

The schema below is the one after the last migration. Whatever statements the requests execute:

* `members_isolated` — the answers and refusals a member gets and the rows a member owns are the
  same as if no other member, login or webhook had sent a request, as far as no constraint tells;
* `others_untouched` — what belongs to a user who sends no request stays as it is;
* `rows_stay` — no request removes a row, and only an admin's gives one to another user.
-/

namespace Grosh

open RowSecurity

/-! ## Rows

Each table has its own type of rows, with the columns a request can read or write. The rows of
accounts and bank integrations extend those that the linking of accounts works on. -/

/-- The tables with row-level security: those of the migrations that hold what belongs to a user.
The tables of tokens, rates, anomalies and locks have none and are not among them. -/
inductive TableName : Type where
  | users
  | userSettings
  | accounts
  | bankIntegrations
  | transactions
  | categories
  deriving DecidableEq

/-- A row of `users`. It belongs to the user it describes, whose id is its primary key. -/
structure UserRow : Type where
  id : UUID
  email : String
  passwordHash : String
  displayName : String
  role : UserRole
  isActive : Bool
  createdAt : Timestamp
  updatedAt : Timestamp
  lastActiveAt : Option Timestamp
  lastReprocessStartedAt : Option Timestamp
  deriving DecidableEq

/-- A row of `user_settings`, of which a user has at most one. -/
structure UserSettingsRow : Type where
  userId : UUID
  defaultRateSource : Option String
  timezone : String
  updatedAt : Timestamp
  deriving DecidableEq

/-- A row of `accounts`: the columns that linking writes, and the name, the flag and the times that
only the endpoints of the accounts use. -/
structure AccountRow extends LinkedAccount where
  name : Option String
  isActive : Bool
  createdAt : Timestamp
  updatedAt : Timestamp
  deriving DecidableEq

/-- A row of `categories`; `none` owns the system categories, which are everybody's to read. -/
structure CategoryRow : Type where
  id : UUID
  userId : Option UUID
  name : String
  parentId : Option UUID
  createdAt : Timestamp
  deriving DecidableEq

/-- The rows of a table. A program is typed by the table it works on. -/
abbrev TableName.Row : TableName → Type
  | users => UserRow
  | userSettings => UserSettingsRow
  | accounts => AccountRow
  | bankIntegrations => Integration
  | transactions => Transaction
  | categories => CategoryRow

/-- The user a row belongs to: the column that the policies compare with `app.current_user_id()`. A
system category has none. -/
def owner : ∀ t : TableName, t.Row → Option UUID
  | .users, r => some r.id
  | .userSettings, r => some r.userId
  | .accounts, r => some r.userId
  | .bankIntegrations, r => some r.userId
  | .transactions, r => some r.userId
  | .categories, r => r.userId

/-- `email` is a `citext`: it compares without case. Only the case of ASCII letters is left out
here; `citext` and Python's `str.lower` fold the letters of other alphabets as well. -/
def sameEmail (a b : String) : Bool := decide (a.toLower = b.toLower)

/-! ## Sessions and policies

The policies are permissive: a command may touch a row if one of those for the command, or for all
commands, lets it. A policy without a check of its own checks what is written with the condition for
what is seen. -/

/-- The roles the services connect as. The consumers connect as others, and the owner of the tables
is not subject to the policies. -/
inductive DbRole : Type where
  /-- `grosh_api` -/
  | api
  /-- `grosh_ingestion` -/
  | ingestion
  deriving DecidableEq

/-- A connection inside a request; `none` is a variable that is not set, with which no comparison of
a policy holds. -/
structure Session : Type where
  dbRole : DbRole
  userId : Option UUID
  email : Option String
  role : Option UserRole
  webhookSecret : Option String

/-- `user_id = app.current_user_id()`: with no user set the comparison is `NULL`, and no row
passes. -/
def isCurrentUser (t : TableName) (s : Session) (r : t.Row) : Bool :=
  s.userId.any fun u => decide (owner t r = some u)

/-- `app.current_user_role() = 'admin'`: the role the request has put into its variable, which the
services read from the row of the user. -/
def isAdmin (s : Session) : Bool := decide (s.role = some .admin)

/-- `…_isolation`, with the check of migration 0014: without it the condition for what is seen would
have to stand for what is written. -/
def isolation (t : TableName) : Policy Session t.Row :=
  ⟨none, isCurrentUser t, some (isCurrentUser t)⟩

/-- `…_admin_all`: an admin sees and may write every row. Only `users` and `user_settings` have
it. -/
def adminAll (t : TableName) : Policy Session t.Row :=
  ⟨none, fun s _ => isAdmin s, some fun s _ => isAdmin s⟩

/-- `users_isolation_select`, `users_isolation_update` and `users_isolation_delete`,
`users_auth_lookup` and `users_admin_all`: there is no policy for the insert of one's own row. -/
def usersPolicies : List (Policy Session UserRow) :=
  [⟨some .select, isCurrentUser .users, none⟩,
    ⟨some .update, isCurrentUser .users, some (isCurrentUser .users)⟩,
    ⟨some .delete, isCurrentUser .users, none⟩,
    ⟨some .select, fun s r => s.email.any fun e => sameEmail r.email e, none⟩,
    adminAll .users]

/-- `bank_integrations_isolation` and `bank_integrations_webhook_lookup`: a webhook, which has no
user, sees the active integration whose secret it names, and cannot write it. -/
def bankIntegrationsPolicies : List (Policy Session Integration) :=
  [isolation .bankIntegrations,
    ⟨some .select, fun s r => s.webhookSecret.any fun x => decide (r.config.webhookSecret = x) &&
      decide (r.status = .active), none⟩]

/-- `categories_isolation`: the system categories can be read by everyone, and written by an admin,
while the row of a user is the user's alone. -/
def categoriesPolicies : List (Policy Session CategoryRow) :=
  [⟨none, fun s r => isCurrentUser .categories s r || r.userId.isNone,
    some fun s r => isCurrentUser .categories s r || r.userId.isNone && isAdmin s⟩]

/-- The policies after the last migration. `accounts`, `bank_integrations` and `transactions` have
no carve-out for admins: there an admin is a user like any other. -/
def policies : ∀ t : TableName, List (Policy Session t.Row)
  | .users => usersPolicies
  | .userSettings => [isolation .userSettings, adminAll .userSettings]
  | .accounts => [isolation .accounts]
  | .bankIntegrations => bankIntegrationsPolicies
  | .transactions => [isolation .transactions]
  | .categories => categoriesPolicies

/-- The grants after the last migration. No role may delete from any of the tables, and
`transactions` and `categories` can only be read. -/
def granted : DbRole → TableName → Command → Bool
  | _, _, .select => true
  | .api, .users, .insert => true
  | .api, .users, .update => true
  | .api, .userSettings, .insert => true
  | .api, .userSettings, .update => true
  | .ingestion, .users, .update => true
  | .ingestion, .accounts, .insert => true
  | .ingestion, .accounts, .update => true
  | .ingestion, .bankIntegrations, .insert => true
  | .ingestion, .bankIntegrations, .update => true
  | _, _, _ => false

/-- `GRANT UPDATE (last_reprocess_started_at) ON users TO grosh_ingestion`; the trigger sets
`updated_at`. Everything else of the row has to stay as it is, whatever the policies let through. -/
def updatableColumns (s : Session) : ∀ t : TableName, t.Row → t.Row → Bool
  | .users, r, r' => match s.dbRole with
    | .api => true
    | .ingestion => decide (r' = { r with
        lastReprocessStartedAt := r'.lastReprocessStartedAt, updatedAt := r'.updatedAt })
  | _, _, _ => true

/-- The ids a foreign key to the users may have: those of the rows there are, of whomever. -/
def userIds (db : Db TableName.Row) : List UUID := (db .users).map UserRow.id

/-- What `idx_accounts_manual_name` covers: the named manual accounts, each with its user, its name
and its currency. -/
def manualNames (db : Db TableName.Row) : List (UUID × Option String × String) :=
  ((db .accounts).filter fun r => decide (r.source = .manual ∧ r.name ≠ none)).map fun r =>
    (r.userId, r.name, r.currencyCode)

/-- The constraints: primary keys, unique indexes and foreign keys. They look at all rows, also at
those a session does not see, which is why a refusal can tell something about the rows of others. -/
structure Admissible (db : Db TableName.Row) : Prop where
  userIds : (userIds db).Nodup
  emails : ((db .users).map fun r => r.email.toLower).Nodup
  settings : ((db .userSettings).map UserSettingsRow.userId).Nodup
  accountIds : ((db .accounts).map (·.id)).Nodup
  manualNames : (manualNames db).Nodup
  integrationIds : ((db .bankIntegrations).map Integration.id).Nodup
  slots : ((db .bankIntegrations).map Integration.slot).Nodup
  secrets : ((db .bankIntegrations).map Integration.secret).Nodup
  settingsUsers : ∀ r ∈ db .userSettings, r.userId ∈ Grosh.userIds db
  accountsUsers : ∀ r ∈ db .accounts, r.userId ∈ Grosh.userIds db
  accountsIntegrations : ∀ r ∈ db .accounts, ∀ i ∈ r.integrationId,
    i ∈ (db .bankIntegrations).map Integration.id
  integrationsUsers : ∀ r ∈ db .bankIntegrations, r.userId ∈ Grosh.userIds db

instance (db : Db TableName.Row) : Decidable (Admissible db) :=
  decidable_of_iff
    ((userIds db).Nodup ∧ ((db .users).map fun r => r.email.toLower).Nodup ∧
      ((db .userSettings).map UserSettingsRow.userId).Nodup ∧
      ((db .accounts).map (·.id)).Nodup ∧
      (manualNames db).Nodup ∧
      ((db .bankIntegrations).map Integration.id).Nodup ∧
      ((db .bankIntegrations).map Integration.slot).Nodup ∧
      ((db .bankIntegrations).map Integration.secret).Nodup ∧
      (∀ r ∈ db .userSettings, r.userId ∈ userIds db) ∧
      (∀ r ∈ db .accounts, r.userId ∈ userIds db) ∧
      (∀ r ∈ db .accounts, ∀ i ∈ r.integrationId, i ∈ (db .bankIntegrations).map Integration.id) ∧
      ∀ r ∈ db .bankIntegrations, r.userId ∈ userIds db)
    ⟨fun ⟨h₁, h₂, h₃, h₄, h₅, h₆, h₇, h₈, h₉, h₁₀, h₁₁, h₁₂⟩ =>
        ⟨h₁, h₂, h₃, h₄, h₅, h₆, h₇, h₈, h₉, h₁₀, h₁₁, h₁₂⟩,
      fun h => ⟨h.1, h.2, h.3, h.4, h.5, h.6, h.7, h.8, h.9, h.10, h.11, h.12⟩⟩

/-- **The tables, with who may do what**, after the last migration. A statement needs the privilege
of its command first; then the policies of the table choose the rows it sees and check those it
leaves behind; then the columns it has changed have to be those its role may update; and last the
tables as a whole have to meet the constraints. Whichever of these fails refuses the statement, and
with it the request. Every table here has policies, so that nothing is visible without one that lets
it through. -/
def schema : Schema TableName Session TableName.Row where
  granted := fun s => granted s.dbRole
  columns := updatableColumns
  policies := fun t => some (policies t)
  admissible := fun db => decide (Admissible db)

/-! ## What a session may do

What the policies come to for the three kinds of sessions a service opens: that of a member, that of
a login or a webhook, and that of an admin. -/

variable {s : Session} {t : TableName} {u : UUID} {db db' : Db TableName.Row} {α : Type}

/-- The variables of a member's request after authentication: the user and the role are set, and
neither the address of a login nor the secret of a webhook. -/
structure IsMember (s : Session) (u : UUID) : Prop where
  userId : s.userId = some u
  role : s.role ≠ some .admin
  email : s.email = none
  webhookSecret : s.webhookSecret = none

/-- The rows of the user, and the system categories: all that a member's request can see. -/
def isNear (u : UUID) (t : TableName) (r : t.Row) : Bool :=
  decide (owner t r = some u) || (owner t r).isNone

theorem isCurrentUser_iff {r : t.Row} :
    isCurrentUser t s r = true ↔ ∃ u, s.userId = some u ∧ owner t r = some u := by
  simp [isCurrentUser, Option.any_eq_true]

theorem isAdmin_eq_false (h : s.role ≠ some .admin) : isAdmin s = false := decide_eq_false h

/-- A member sees the rows that are near: whichever statements the request executes, it is answered
from those rows alone. -/
theorem IsMember.within (h : IsMember s u) : Program.Within schema s (isNear u) := by
  intro t r hp
  have hcurrent : isCurrentUser t s r = true → isNear u t r = true := by
    intro hc
    obtain ⟨u', hu', ho⟩ := isCurrentUser_iff.mp hc
    obtain rfl := Option.some.inj (h.userId.symm.trans hu')
    simp [isNear, ho]
  have hadmin := isAdmin_eq_false h.role
  have hcategory : t = .categories → (owner t r).isNone = true → isNear u t r = true :=
    fun _ hnone => by simp [isNear, hnone]
  cases t <;>
    simp only [Schema.passes, schema, policies, usersPolicies, bankIntegrationsPolicies,
      categoriesPolicies, isolation, adminAll, Policy.covers, Option.all_some, Option.all_none,
      List.any_cons, List.any_nil, hadmin, h.email, h.webhookSecret, Option.any_none, Bool.true_and,
      Bool.and_false, Bool.or_false, decide_true, reduceCtorEq, decide_false, Bool.false_and] at hp
  case categories =>
    rcases Bool.or_eq_true_iff.mp hp with hp | hp
    · exact hcurrent hp
    · exact hcategory rfl hp
  all_goals exact hcurrent hp

/-- **A session that is not an admin's may write the rows of its user only**: neither a row it
changes nor the row it puts there belongs to anybody else. -/
theorem confined_of_not_admin (h : s.role ≠ some .admin) :
    Program.Confined schema s fun t r => isCurrentUser t s r := by
  have hadmin := isAdmin_eq_false h
  refine ⟨fun t r hg ha => ?_, fun t r hg _ hp => ?_, fun t r hg ha => ?_, fun t r hg _ hp => ?_⟩
  all_goals
    cases t <;> cases hrole : s.dbRole <;>
      simp_all [schema, granted, Schema.admits, Schema.passes, policies, usersPolicies,
        bankIntegrationsPolicies, isolation, adminAll, Policy.covers]

/-- The sessions of others may write nothing near: neither the rows of the user nor the system
categories. -/
theorem confined_of_other (hu : s.userId ≠ some u) (hr : s.role ≠ some .admin) :
    Program.Confined schema s fun t r => !isNear u t r := by
  apply (confined_of_not_admin hr).mono
  intro t r hc
  obtain ⟨u', hu', ho⟩ := isCurrentUser_iff.mp hc
  have hne : u' ≠ u := fun h => hu (h ▸ hu')
  simp [isNear, ho, hne]

/-! ## Runs of requests

The requests are served one after another, each with the statements it likes. A request that is
refused has changed nothing, and its refusal is an answer like any other. -/

/-- A member with this id and address, active and never reprocessed. -/
def sampleMember (id : UUID) (email : String) : UserRow :=
  ⟨id, email, "", "", .member, true, 0, 0, none, none⟩

/-- A bank account of the first member, and a manual account of the second. -/
def sampleTwoAccounts : List AccountRow :=
  [{ id := 11, userId := 1, integrationId := none, source := .monobank, type := "black",
      currencyCode := "UAH", maskedPan := none, iban := none, externalId := some "x",
      cashbackType := none, clientId := some "c", name := none, isActive := true,
      createdAt := 0, updatedAt := 0 },
    { id := 12, userId := 2, integrationId := none, source := .manual, type := "cash",
      currencyCode := "UAH", maskedPan := none, iban := none, externalId := none,
      cashbackType := none, clientId := none, name := some "cash", isActive := true,
      createdAt := 0, updatedAt := 0 }]

/-- The tables of two members, with an account of each and nothing else. -/
def sampleTables : Db TableName.Row
  | .users => [sampleMember 1 "a", sampleMember 2 "b"]
  | .userSettings => []
  | .accounts => sampleTwoAccounts
  | .bankIntegrations => []
  | .transactions => []
  | .categories => []

/-- The second member renames every account there is to see and is refused a delete; then the first
lists the accounts, and inserts one that the second has inserted before. -/
def sampleTwoCalls : List (Call Session TableName.Row (List AccountRow)) :=
  [⟨⟨.ingestion, some 2, none, some .member, none⟩,
      Program.modify TableName.accounts (fun _ => true) fun r : AccountRow =>
        { r with name := some "mine" }⟩,
    ⟨⟨.ingestion, some 2, none, some .member, none⟩,
      Program.remove TableName.accounts fun _ => true⟩,
    ⟨⟨.api, some 1, none, some .member, none⟩, Program.fetch TableName.accounts fun _ => true⟩]

variable {qs : List (Call Session TableName.Row α)}

/-- **Members are isolated**: in a run of requests of members, logins and webhooks, whatever
statements each executes, the requests of one member are answered or refused the same, and what is
near that member is the same, as if nobody else had sent a request. A primary key, a unique index or
a foreign key looks at the rows of everybody, and that is all that can tell: it is so exactly if the
constraints refuse the same of the member's requests with the others and without them. -/
theorem members_isolated (hmembers : ∀ q ∈ qs, q.session.role ≠ some .admin)
    (hown : ∀ q ∈ qs, q.session.userId = some u → IsMember q.session u) :
    let kept := keptAnswers (fun s : Session => decide (s.userId = some u)) qs
      (serve schema qs db).1
    let alone := serve schema (qs.filter fun q => decide (q.session.userId = some u)) db
    kept.map isViolation = alone.1.map isViolation ↔
      kept = alone.1 ∧
        ∀ t, ((serve schema qs db).2 t).filter (isNear u t) = (alone.2 t).filter (isNear u t) := by
  refine ⟨fun hv => ?_, fun h => congrArg _ h.1⟩
  have hagree : Program.Agree (isNear u) db db := fun _ => rfl
  refine agree_serve (fun q hq hk => ?_) (fun q hq hk => ?_) hagree hv
  · exact (hown q hq (of_decide_eq_true hk)).within
  · exact confined_of_other (of_decide_eq_false hk) (hmembers q hq)

theorem members_isolated_two :
    keptAnswers (fun s : Session => decide (s.userId = some 1)) sampleTwoCalls
        (serve schema sampleTwoCalls sampleTables).1 =
      (serve schema (sampleTwoCalls.filter fun q => decide (q.session.userId = some 1))
        sampleTables).1 := by
  refine ((members_isolated ?_ ?_).mp (by decide +kernel)).1
  · simp [sampleTwoCalls]
  · intro q hq hu
    simp only [sampleTwoCalls, List.mem_cons, List.not_mem_nil, or_false] at hq
    rcases hq with rfl | rfl | rfl
    · cases hu
    · cases hu
    · exact ⟨rfl, by simp, rfl, rfl⟩

/-- The second member and then the first insert an account of their own, both under one id: the
primary key refuses the second of the two. -/
def sampleSameId : List (Call Session TableName.Row Unit) :=
  (sampleTwoAccounts.reverse.map fun r => { r with id := 99, name := some "new" }).map fun r =>
    ⟨⟨.ingestion, some r.userId, none, some .member, none⟩,
      Program.create TableName.accounts r true⟩

/-- A constraint tells: without the second member's request the first member's would be answered. -/
example :
    (serve schema sampleSameId sampleTables).1.map isViolation = [false, true] ∧
    (serve schema (sampleSameId.drop 1) sampleTables).1.map isViolation = [false] := by
  decide +kernel

/-- **What belongs to others stays as it is**: the requests of a run leave the rows of a user alone
who has sent none of them, if no admin has. No constraint is needed for it: a request that is
refused has changed nothing either. -/
theorem others_untouched (hmembers : ∀ q ∈ qs, q.session.role ≠ some .admin)
    (hothers : ∀ q ∈ qs, q.session.userId ≠ some u) (t : TableName) :
    ((serve schema qs db).2 t).filter (isNear u t) = (db t).filter (isNear u t) := by
  refine serve_induction (I := fun db' => (db' t).filter (isNear u t) = (db t).filter (isNear u t))
    (fun q hq db₁ a db₂ hI he => ?_) rfl
  have hleft := Program.others_eval (confined_of_other (hothers q hq) (hmembers q hq)) he t
  simp only [Program.others, Bool.not_not] at hleft
  exact hleft.trans hI

theorem others_untouched_two :
    ((serve schema (sampleTwoCalls.take 2) sampleTables).2 .accounts).filter (isNear 1 .accounts) =
      (sampleTables .accounts).filter (isNear 1 .accounts) := by
  refine others_untouched ?_ ?_ .accounts
  · simp [sampleTwoCalls]
  · simp [sampleTwoCalls]

/-- What stands in the place of a row after requests: the row, or what a chain of updates has made
of it, each by a session that may update the table, sees the row, and may put the next one there. -/
def Rewritten (qs : List (Call Session TableName.Row α)) (t : TableName) : t.Row → t.Row → Prop :=
  Relation.ReflTransGen fun r r' => ∃ q ∈ qs, schema.Replaces q.session t r r'

/-- A session that is not an admin's keeps the owner of a row that it replaces: the row it sees and
the row it puts there both belong to its user. -/
theorem owner_eq_of_replaces (h : s.role ≠ some .admin) {r r' : t.Row}
    (hr : schema.Replaces s t r r') : owner t r' = owner t r := by
  have hc := confined_of_not_admin h
  have hnew := hr.replace
  simp only [Schema.mayReplace, Bool.and_eq_true] at hnew
  obtain ⟨u, hu, ho⟩ := isCurrentUser_iff.mp (hc.replaced t r hr.granted hr.visible hr.taken)
  obtain ⟨u', hu', ho'⟩ := isCurrentUser_iff.mp (hc.replacing t r' hr.granted hnew.1.1)
  rw [ho, ho', ← hu, ← hu']

/-- Both roles may read all of the tables, so that a request is never refused for reading. -/
theorem granted_select : schema.granted s t .select = true := by
  change granted s.dbRole t .select = true
  cases s.dbRole <;> cases t <;> rfl

/-- Neither role has a privilege to delete, from whichever table: a `DELETE` is refused before the
policies are looked at. -/
theorem granted_delete : schema.granted s t .delete = false := by
  change granted s.dbRole t .delete = false
  cases s.dbRole <;> cases t <;> rfl

/-- **No request removes a row**: neither role may delete from any of the tables. Every row keeps
its place in its table, where it stands itself or what sessions that may replace it have put there;
it belongs to the same user, unless an admin has sent a request. Other rows come behind. -/
theorem rows_stay (t : TableName) :
    Kept (fun r r' => Rewritten qs t r r' ∧
        ((∀ q ∈ qs, q.session.role ≠ some .admin) → owner t r' = owner t r))
      (db t) ((serve schema qs db).2 t) := by
  have howner : ∀ r r' : t.Row, Rewritten qs t r r' →
      (∀ q ∈ qs, q.session.role ≠ some .admin) → owner t r' = owner t r := by
    intro r r' hr hmembers
    induction hr with
    | refl => rfl
    | tail _ hstep ih =>
      obtain ⟨q, hq, hreplaces⟩ := hstep
      exact (owner_eq_of_replaces (hmembers q hq) hreplaces).trans ih
  have hkept : Kept (Rewritten qs t) (db t) ((serve schema qs db).2 t) := by
    refine serve_induction (I := fun db' => Kept (Rewritten qs t) (db t) (db' t))
      (fun q hq db₁ a db₂ hI he => ?_) (.refl fun _ => .refl)
    exact hI.trans (fun _ _ _ => .trans) (Program.kept_eval (fun _ => .refl) (fun _ _ _ => .trans)
      granted_delete (fun r r' hr _ => .single ⟨q, hq, hr⟩) (Program.writes_any _) he)
  exact hkept.imp fun r r' hr => ⟨hr, howner r r' hr⟩

end Grosh
