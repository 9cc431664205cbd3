import Grosh.ServiceRequests

/-!
# Manual accounts

The endpoints of the manual source create, rename and delete accounts. A deletion is soft: the row
stays, and only `is_active` changes; the unique index over the names does not look at it.

`AccountBook` is what the endpoints are for: the accounts as a list, without statements, policies
or grants.

The requests are served with everything they go through: the caller's session, the policies, the
grants and the constraints. The book has none of this, and the refinement says that none of it
shows.

* `serveAll_eq_book` — the endpoints answer what the book answers, and leave its accounts: no
  policy, grant or foreign key ever gets in the way of the owner.
* `account_life` — a deleted account never comes back, and its name is never free again.
-/

namespace Grosh

open RowSecurity

/-! ## The accounts of the manual source

The repository methods are programs under the policies, and the endpoints are made of them. Each
looks for the account of the caller before it writes. -/

/-- `CreateAccountRequest`, with the id and the time the database gives the row; its `type` is
`cash`. The request checks neither text: both are taken to be texts PostgreSQL can store, without a
NUL, and the name to be one that fits an entry of the unique index over the names. -/
structure CreateAccountRequest : Type where
  currencyCode : String
  name : String
  newId : UUID
  createdAt : Timestamp

/-- `UpdateAccountRequest`, with the time of the transaction. The length of the name has been
checked. -/
structure UpdateAccountRequest : Type where
  name : String
  name_pos : 1 ≤ name.length
  name_le : name.length ≤ 255
  updatedAt : Timestamp

/-- `ManualAccountResponse`: what the client sees of an account. -/
structure ManualAccountResponse : Type where
  id : UUID
  type : String
  currencyCode : String
  name : String
  createdAt : Timestamp
  deriving DecidableEq

/-- `name or body.name`: an empty name counts as none. -/
def nameOr (name : Option String) (requested : String) : String :=
  (name.filter fun n => decide (n ≠ "")).getD requested

/-- The response made of a row, with the name of the request where the row has none. -/
def AccountRow.toManualResponse (r : AccountRow) (requested : String) : ManualAccountResponse :=
  ⟨r.id, r.type, r.currencyCode, nameOr r.name requested, r.createdAt⟩

/-- The row `create_account` inserts for the manual source: active, and without an integration. -/
def CreateAccountRequest.row (q : CreateAccountRequest) (userId : UUID) : AccountRow where
  id := q.newId
  userId := userId
  integrationId := none
  source := .manual
  type := "cash"
  currencyCode := q.currencyCode
  maskedPan := none
  iban := none
  externalId := none
  cashbackType := none
  clientId := none
  name := some q.name
  isActive := true
  createdAt := q.createdAt
  updatedAt := q.createdAt

namespace AccountRepo

/-- `manual_name_exists`: whether the account is deleted does not matter. -/
def manualNameExists (userId : UUID) (name currencyCode : String) :
    Program TableName.Row Bool := do
  let rows ← Program.fetch TableName.accounts fun r : AccountRow =>
    decide (r.userId = userId ∧ r.name = some name ∧ r.currencyCode = currencyCode ∧
      r.source = .manual)
  return !rows.isEmpty

/-- `create_account`, for the manual source. -/
def createAccount (userId : UUID) (q : CreateAccountRequest) :
    Program TableName.Row AccountRow := do
  Program.create TableName.accounts (q.row userId) true
  return q.row userId

/-- `update_name`; the trigger sets `updated_at`. No row comes back where there is no such
account. -/
def updateName (accountId userId : UUID) (q : UpdateAccountRequest) :
    Program TableName.Row (Option AccountRow) := do
  let rows ← Program.modify TableName.accounts (isOwn accountId userId) fun r : AccountRow =>
    { r with name := some q.name, updatedAt := q.updatedAt }
  return rows.head?

/-- `soft_delete`: an account that is deleted already is not found. -/
def softDelete (accountId userId : UUID) (now : Timestamp) : Program TableName.Row Bool := do
  let rows ← Program.modify TableName.accounts
    (fun r : AccountRow => isOwn accountId userId r && r.isActive) fun r : AccountRow =>
    { r with isActive := false, updatedAt := now }
  return !rows.isEmpty

end AccountRepo

/-- `AccountAlreadyExistsError` of `create_account`, with the name and the currency in the text. -/
def alreadyExists (q : CreateAccountRequest) : ProblemDetail :=
  ⟨409, "VALIDATION_ERROR",
    "Manual account '" ++ q.name ++ "' (" ++ q.currencyCode ++ ") already exists"⟩

/-- The answer where the unique index refuses the new name. The text does not say the currency. -/
def anotherNamed (q : UpdateAccountRequest) : ProblemDetail :=
  ⟨409, "VALIDATION_ERROR", "Another account named '" ++ q.name ++ "' already exists."⟩

/-- A bank account cannot be renamed, even by its owner. -/
def onlyManualEdited : ProblemDetail :=
  ⟨403, "INSUFFICIENT_PERMISSIONS", "Only manual accounts can be edited."⟩

/-- A bank account cannot be deleted, even by its owner. -/
def cannotDeleteBank : ProblemDetail :=
  ⟨403, "INSUFFICIENT_PERMISSIONS", "Cannot delete bank-connected accounts."⟩

/-- `POST /manual/accounts`. -/
def createAccount (userId : UUID) (q : CreateAccountRequest) :
    Program TableName.Row (Except ProblemDetail ManualAccountResponse) := do
  if ← AccountRepo.manualNameExists userId q.name q.currencyCode then
    return .error (alreadyExists q)
  let created ← AccountRepo.createAccount userId q
  return .ok (created.toManualResponse q.name)

/-- `PUT /manual/accounts/{account_id}`. -/
def updateAccount (userId accountId : UUID) (q : UpdateAccountRequest) :
    Program TableName.Row (Except ProblemDetail ManualAccountResponse) := do
  match ← AccountRepo.getById accountId userId with
  | none => return .error accountNotFound
  | some existing =>
    if existing.source ≠ .manual then
      return .error onlyManualEdited
    match ← AccountRepo.updateName accountId userId q with
    | none => return .error accountNotFound
    | some updated => return .ok (updated.toManualResponse q.name)

/-- `DELETE /manual/accounts/{account_id}`. -/
def deleteAccount (userId accountId : UUID) (now : Timestamp) :
    Program TableName.Row (Except ProblemDetail Unit) := do
  match ← AccountRepo.getById accountId userId with
  | none => return .error accountNotFound
  | some existing =>
    if existing.source ≠ .manual then
      return .error cannotDeleteBank
    if ← AccountRepo.softDelete accountId userId now then
      return .ok ()
    else
      return .error accountNotFound

/-- The requests of the manual source that write accounts. Only their owner is served. -/
inductive ManualAccountRequest : Type where
  | create (q : CreateAccountRequest)
  | update (accountId : UUID) (q : UpdateAccountRequest)
  | delete (accountId : UUID) (now : Timestamp)

/-- The request of a caller, with the response of `create` and `update`. -/
def ManualAccountRequest.serve (userId : UUID) (db : Db TableName.Row) :
    ManualAccountRequest → Except ProblemDetail (Option ManualAccountResponse) × Db TableName.Row
  | .create q =>
    (respond userId (createAccount userId q) (alreadyExists q) db).map (Except.map some) id
  | .update accountId q =>
    (respond userId (updateAccount userId accountId q) (anotherNamed q) db).map
      (Except.map some) id
  | .delete accountId now =>
    (respond userId (deleteAccount userId accountId now) internalError db).map
      (Except.map fun _ => none) id

/-! ## The book

The abstract side: a list of accounts, without policies, statements or constraints, and what each
request does to it. -/

namespace AccountBook

open AccountRepo

variable {rows : List AccountRow}

/-- A manual account of the user has this name in this currency, be it active or deleted. -/
def Named (rows : List AccountRow) (userId : UUID) (name currencyCode : String) : Prop :=
  ∃ r ∈ rows, r.userId = userId ∧ r.source = .manual ∧ r.name = some name ∧
    r.currencyCode = currencyCode

instance (userId : UUID) (name currencyCode : String) :
    Decidable (Named rows userId name currencyCode) :=
  inferInstanceAs (Decidable (∃ r ∈ rows, _))

/-- A new account, unless its name is taken, or its id. -/
def create (userId : UUID) (q : CreateAccountRequest) (rows : List AccountRow) :
    Except ProblemDetail (Option ManualAccountResponse) × List AccountRow :=
  if Named rows userId q.name q.currencyCode ∨ q.newId ∈ rows.map fun r => r.id then
    (.error (alreadyExists q), rows)
  else
    (.ok (some ⟨q.newId, "cash", q.currencyCode, q.name, q.createdAt⟩), rows ++ [q.row userId])

/-- A new name for a manual account of the caller, deleted or not, unless another has it. -/
def rename (userId accountId : UUID) (q : UpdateAccountRequest) (rows : List AccountRow) :
    Except ProblemDetail (Option ManualAccountResponse) × List AccountRow :=
  match rows.find? (isOwn accountId userId) with
  | none => (.error accountNotFound, rows)
  | some r =>
    if r.source ≠ .manual then
      (.error onlyManualEdited, rows)
    else if Named (rows.filter fun r' => decide (r'.id ≠ accountId)) userId q.name
        r.currencyCode then
      (.error (anotherNamed q), rows)
    else
      (.ok (some ⟨r.id, r.type, r.currencyCode, q.name, r.createdAt⟩),
        rows.map fun r' => if isOwn accountId userId r' then
          { r' with name := some q.name, updatedAt := q.updatedAt } else r')

/-- The deletion of a manual account of the caller, which has to be active. The row stays in the
book. -/
def delete (userId accountId : UUID) (now : Timestamp) (rows : List AccountRow) :
    Except ProblemDetail (Option ManualAccountResponse) × List AccountRow :=
  match rows.find? (isOwn accountId userId) with
  | none => (.error accountNotFound, rows)
  | some r =>
    if r.source ≠ .manual then
      (.error cannotDeleteBank, rows)
    else if r.isActive then
      (.ok none, rows.map fun r' => if isOwn accountId userId r' then
        { r' with isActive := false, updatedAt := now } else r')
    else
      (.error accountNotFound, rows)

/-- A request of an authenticated caller, in the book. -/
def serve (userId : UUID) (rows : List AccountRow) :
    ManualAccountRequest → Except ProblemDetail (Option ManualAccountResponse) × List AccountRow
  | .create q => create userId q rows
  | .update accountId q => rename userId accountId q rows
  | .delete accountId now => delete userId accountId now rows

end AccountBook

/-! ## The statements of the owner

Under the policies the statements of an owner do to the accounts what they say. -/

variable {s : Session} {u : UUID} {db : Db TableName.Row}

/-- `UPDATE accounts` with a condition that asks for the caller's own rows: only a constraint can
refuse it. -/
theorem eval_modify_accounts {w : AccountRow → Bool} {f : AccountRow → AccountRow}
    (hu : s.userId = some u) (hrole : s.dbRole = .ingestion)
    (hw : ∀ r, w r = true → r.userId = u) (hf : ∀ r, (f r).userId = r.userId) :
    (Program.modify TableName.accounts w f).eval schema s db =
      if Admissible (Function.update db .accounts
          ((db .accounts).map fun r => if w r then f r else r)) then
        some (((db .accounts).filter w).map f, Function.update db .accounts
          ((db .accounts).map fun r => if w r then f r else r))
      else none := by
  have htakes : ∀ r : AccountRow, schema.takes .update s .accounts w r = w r := by
    intro r
    rw [Schema.takes, passes_accounts, passes_accounts, isCurrentUser_accounts hu]
    rcases hr : w r with _ | _
    · simp
    · simp [hw r hr]
  have hgranted : ∀ c, c = Command.select ∨ c = Command.update →
      schema.granted s .accounts c = true := by
    rintro c (rfl | rfl)
    · cases hr : s.dbRole <;> rfl
    · exact congrArg (fun d => granted d .accounts .update) hrole
  have hreplace : ∀ r ∈ db .accounts, schema.takes .update s .accounts w r = true →
      schema.mayReplace s .accounts r (f r) = true := by
    intro r _ ht
    have hown : isCurrentUser .accounts s (f r) = true := by
      rw [isCurrentUser_accounts hu, hf r]
      exact decide_eq_true (hw r ((htakes r).symm.trans ht))
    simp only [Schema.mayReplace, admits_accounts, passes_accounts, hown, Bool.true_and]
    rfl
  have hupdated : schema.updated s .accounts w f (db .accounts) =
      (db .accounts).map fun r => if w r then f r else r := by
    rw [Schema.updated]
    exact List.map_congr_left fun r _ => by rw [htakes]
  have hfilter : (db .accounts).filter (schema.takes .update s .accounts w) =
      (db .accounts).filter w := List.filter_congr fun r _ => htakes r
  simp only [Program.modify, Program.eval_update, Program.eval_answer, hupdated, hfilter]
  refine if_congr ⟨fun h => of_decide_eq_true h.2.2.2, fun h => ?_⟩ rfl rfl
  exact ⟨hgranted _ (Or.inl rfl), hgranted _ (Or.inr rfl), hreplace, decide_eq_true h⟩

/-- `INSERT INTO accounts … RETURNING` of a row of the caller's: only a constraint can refuse it. -/
theorem eval_create_accounts {r : AccountRow} (hu : s.userId = some u)
    (hrole : s.dbRole = .ingestion) (hr : r.userId = u) :
    (Program.create TableName.accounts r true).eval schema s db =
      if Admissible (Function.update db .accounts (db .accounts ++ [r])) then
        some ((), Function.update db .accounts (db .accounts ++ [r]))
      else none := by
  have hown : isCurrentUser .accounts s r = true := by
    rw [isCurrentUser_accounts hu]
    exact decide_eq_true hr
  have hinsert : schema.granted s .accounts .insert = true :=
    congrArg (fun d => granted d .accounts .insert) hrole
  have hselect : schema.granted s .accounts .select = true := by cases hd : s.dbRole <;> rfl
  simp only [Program.create, Program.eval_insert, Program.eval_answer]
  refine if_congr ⟨fun h => of_decide_eq_true h.2.2.2, fun h => ?_⟩ rfl rfl
  exact ⟨hinsert, admits_accounts.trans hown, fun _ => ⟨hselect, passes_accounts.trans hown⟩,
    decide_eq_true h⟩

/-! ## The constraints

A name of a manual account is unique for its user and its currency, deleted accounts among them. -/

namespace AccountBook

variable {rows rows' l₁ l₂ : List AccountRow} {r : AccountRow}

/-- What the unique index holds of a row: the user, the name and the currency. -/
def nameKey (r : AccountRow) : UUID × Option String × String := (r.userId, r.name, r.currencyCode)

/-- The unique index covers the row: a manual account that has a name. -/
def indexed (r : AccountRow) : Bool := decide (r.source = .manual ∧ r.name ≠ none)

theorem manualNames_update :
    manualNames (Function.update db .accounts rows) = (rows.filter indexed).map nameKey := by
  rw [manualNames, Function.update_self]
  rfl

theorem named_iff {name currencyCode : String} :
    (u, some name, currencyCode) ∈ (rows.filter indexed).map nameKey ↔
      Named rows u name currencyCode := by
  simp only [List.mem_map, List.mem_filter, indexed, decide_eq_true_eq, nameKey, Prod.mk.injEq,
    Named]
  refine exists_congr fun r => ⟨?_, ?_⟩
  · rintro ⟨⟨hr, hs, -⟩, hu, hn, hc⟩
    exact ⟨hr, hu, hs, hn, hc⟩
  · rintro ⟨hr, hu, hs, hn, hc⟩
    exact ⟨⟨hr, hs, by simp [hn]⟩, hu, hn, hc⟩

/-- Of the constraints a change of `accounts` has to keep these. -/
theorem admissible_update (h : Admissible db)
    (hfk : ∀ r ∈ rows, r.userId ∈ userIds db ∧
      ∀ i ∈ r.integrationId, i ∈ (db .bankIntegrations).map Integration.id) :
    Admissible (Function.update db .accounts rows) ↔
      (rows.map fun r => r.id).Nodup ∧ ((rows.filter indexed).map nameKey).Nodup := by
  have hother : ∀ t, t ≠ .accounts → Function.update db .accounts rows t = db t :=
    fun t ht => Function.update_of_ne ht rows db
  have hids : userIds (Function.update db .accounts rows) = userIds db := by
    rw [userIds, hother .users (by simp), userIds]
  refine ⟨fun h' => ⟨?_, ?_⟩, fun ⟨hid, hnames⟩ => ?_⟩
  · simpa using h'.accountIds
  · simpa [manualNames_update] using h'.manualNames
  · exact
      { userIds := by rw [hids]; exact h.userIds
        emails := by rw [hother .users (by simp)]; exact h.emails
        settings := by rw [hother .userSettings (by simp)]; exact h.settings
        accountIds := by simpa using hid
        manualNames := by simpa [manualNames_update] using hnames
        integrationIds := by rw [hother .bankIntegrations (by simp)]; exact h.integrationIds
        slots := by rw [hother .bankIntegrations (by simp)]; exact h.slots
        secrets := by rw [hother .bankIntegrations (by simp)]; exact h.secrets
        settingsUsers := by rw [hother .userSettings (by simp), hids]; exact h.settingsUsers
        accountsUsers := by
          rw [Function.update_self, hids]
          exact fun r hr => (hfk r hr).1
        accountsIntegrations := by
          rw [Function.update_self, hother .bankIntegrations (by simp)]
          exact fun r hr => (hfk r hr).2
        integrationsUsers := by
          rw [hother .bankIntegrations (by simp), hids]
          exact h.integrationsUsers }

/-- Every account has its user, and its integration if it has one. -/
theorem foreignKeys (h : Admissible db) (hr : r ∈ db .accounts) :
    r.userId ∈ userIds db ∧
      ∀ i ∈ r.integrationId, i ∈ (db .bankIntegrations).map Integration.id :=
  ⟨h.accountsUsers r hr, h.accountsIntegrations r hr⟩

/-- A new manual account is admissible exactly if its id and its name are free. -/
theorem admissible_append (h : Admissible db) {q : CreateAccountRequest} (hu : u ∈ userIds db) :
    Admissible (Function.update db .accounts (db .accounts ++ [q.row u])) ↔
      ¬ (Named (db .accounts) u q.name q.currencyCode ∨
        q.newId ∈ (db .accounts).map fun r => r.id) := by
  rw [admissible_update h ?_]
  · have hkeys : ((db .accounts ++ [q.row u]).filter indexed).map nameKey =
        ((db .accounts).filter indexed).map nameKey ++ [(u, some q.name, q.currencyCode)] := by
      rw [List.filter_append, List.map_append]
      rfl
    have hids : ((db .accounts ++ [q.row u]).map fun r : AccountRow => r.id) =
        ((db .accounts).map fun r => r.id) ++ [q.newId] := List.map_append
    have hnames : (((db .accounts).filter indexed).map nameKey).Nodup := h.manualNames
    rw [hkeys, hids, ← List.concat_eq_append, ← List.concat_eq_append, List.nodup_concat,
      List.nodup_concat, named_iff, not_or]
    exact ⟨fun ⟨⟨hid, _⟩, hname, _⟩ => ⟨hname, hid⟩,
      fun ⟨hname, hid⟩ => ⟨⟨hid, h.accountIds⟩, hname, hnames⟩⟩
  · intro r hr
    rcases List.mem_append.mp hr with hr | hr
    · exact foreignKeys h hr
    · obtain rfl := List.mem_singleton.mp hr
      exact ⟨hu, fun i hi => by cases hi⟩

/-- A change that leaves ids, owners, integrations and names alone is admissible. -/
theorem admissible_map (h : Admissible db) {g : AccountRow → AccountRow}
    (hg : ∀ r, (g r).id = r.id ∧ (g r).userId = r.userId ∧
      (g r).integrationId = r.integrationId ∧ indexed (g r) = indexed r ∧
      nameKey (g r) = nameKey r) :
    Admissible (Function.update db .accounts ((db .accounts).map g)) := by
  rw [admissible_update h ?_]
  · refine ⟨?_, ?_⟩
    · have hids : (((db .accounts).map g).map fun r => r.id) =
          (db .accounts).map fun r => r.id := by
        rw [List.map_map]
        exact List.map_congr_left fun r _ => (hg r).1
      rw [hids]
      exact h.accountIds
    · have hfilter : (((db .accounts).map g).filter indexed).map nameKey =
          ((db .accounts).filter indexed).map nameKey := by
        have hindexed : (db .accounts).filter (indexed ∘ g) = (db .accounts).filter indexed :=
          List.filter_congr fun r _ => (hg r).2.2.2.1
        rw [List.filter_map, List.map_map, hindexed]
        exact List.map_congr_left fun r _ => (hg r).2.2.2.2
      rw [hfilter]
      exact h.manualNames
  · intro r' hr'
    obtain ⟨r, hr, rfl⟩ := List.mem_map.mp hr'
    rw [(hg r).2.1, (hg r).2.2.1]
    exact foreignKeys h hr

/-- A row among rows with other ids. -/
theorem split_own (hids : (rows.map fun r => r.id).Nodup) {accountId : UUID}
    (hr : rows.find? (AccountRepo.isOwn accountId u) = some r) :
    ∃ l₁ l₂, rows = l₁ ++ r :: l₂ ∧ r.id = accountId ∧ r.userId = u ∧
      ∀ r' ∈ l₁ ++ l₂, r'.id ≠ accountId := by
  have hown : AccountRepo.isOwn accountId u r = true := List.find?_some hr
  obtain ⟨hid, hu⟩ : r.id = accountId ∧ r.userId = u := of_decide_eq_true hown
  obtain ⟨l₁, l₂, rfl⟩ := List.append_of_mem (List.mem_of_find?_eq_some hr)
  rw [List.map_append, List.map_cons, List.nodup_middle, ← List.map_append, List.nodup_cons] at hids
  exact ⟨l₁, l₂, rfl, hid, hu, fun r' hr' heq =>
    hids.1 (List.mem_map.mpr ⟨r', hr', heq.trans hid.symm⟩)⟩

/-- A manual account may be given a name exactly if no other has it. -/
theorem admissible_rename (h : Admissible db) {accountId : UUID} {q : UpdateAccountRequest}
    (hr : (db .accounts).find? (AccountRepo.isOwn accountId u) = some r)
    (hs : r.source = .manual) :
    Admissible (Function.update db .accounts ((db .accounts).map fun r' =>
        if AccountRepo.isOwn accountId u r' then
          { r' with name := some q.name, updatedAt := q.updatedAt } else r')) ↔
      ¬ Named ((db .accounts).filter fun r' => decide (r'.id ≠ accountId)) u q.name
        r.currencyCode := by
  -- around the row renamed: the rows before and after it keep their names
  obtain ⟨l₁, l₂, hrows, hid, hu, hne⟩ := split_own h.accountIds hr
  have hother : ∀ l : List AccountRow, (∀ r' ∈ l, r' ∈ l₁ ++ l₂) → (l.map fun r' =>
      if AccountRepo.isOwn accountId u r' then
        { r' with name := some q.name, updatedAt := q.updatedAt } else r') = l := by
    intro l hl
    refine (List.map_congr_left fun r' hr' => if_neg ?_).trans (List.map_id l)
    exact fun hown => hne r' (hl r' hr') (of_decide_eq_true hown).1
  have hown : AccountRepo.isOwn accountId u r = true := decide_eq_true ⟨hid, hu⟩
  have hmap : ((db .accounts).map fun r' => if AccountRepo.isOwn accountId u r' then
      { r' with name := some q.name, updatedAt := q.updatedAt } else r') =
      l₁ ++ { r with name := some q.name, updatedAt := q.updatedAt } :: l₂ := by
    rw [hrows, List.map_append, List.map_cons, if_pos hown,
      hother l₁ fun r' hr' => List.mem_append_left _ hr',
      hother l₂ fun r' hr' => List.mem_append_right _ hr']
  have hfilter : (db .accounts).filter (fun r' => decide (r'.id ≠ accountId)) = l₁ ++ l₂ := by
    rw [hrows, List.filter_append, List.filter_cons_of_neg (by simp [hid]), ← List.filter_append]
    exact List.filter_eq_self.mpr fun r' hr' => decide_eq_true (hne r' hr')
  have hnames : (((l₁ ++ l₂).filter indexed).map nameKey).Nodup := by
    have hall : (((db .accounts).filter indexed).map nameKey).Nodup := h.manualNames
    refine hall.sublist (List.Sublist.map _ (List.Sublist.filter _ ?_))
    rw [hrows]
    exact List.Sublist.append_left (List.sublist_cons_self r l₂) l₁
  rw [admissible_update h ?_, hmap, hfilter]
  · have hids : ((l₁ ++ { r with name := some q.name, updatedAt := q.updatedAt } :: l₂).map
        fun r' => r'.id).Nodup := by
      have hall := h.accountIds
      rw [hrows] at hall
      simpa using hall
    have hkeys : ((l₁ ++ { r with name := some q.name, updatedAt := q.updatedAt } :: l₂).filter
        indexed).map nameKey = (l₁.filter indexed).map nameKey ++
          (u, some q.name, r.currencyCode) :: (l₂.filter indexed).map nameKey := by
      rw [List.filter_append, List.map_append, List.filter_cons_of_pos (by simp [indexed, hs]),
        List.map_cons, nameKey, hu]
    rw [hkeys, List.nodup_middle, ← List.map_append, ← List.filter_append, List.nodup_cons,
      named_iff]
    exact ⟨fun h' => h'.2.1, fun h' => ⟨hids, h', hnames⟩⟩
  · intro r' hr'
    obtain ⟨r₀, hr₀, rfl⟩ := List.mem_map.mp hr'
    have hfk := foreignKeys h hr₀
    split
    · exact hfk
    · exact hfk

end AccountBook

/-! ## The handlers -/

section handlers

open AccountBook

variable {q : CreateAccountRequest} {q' : UpdateAccountRequest} {accountId : UUID}
  {r : AccountRow} {now : Timestamp}

theorem eval_manualNameExists {name currencyCode : String} (hu : s.userId = some u) :
    (AccountRepo.manualNameExists u name currencyCode).eval schema s db =
      some (decide (Named (db .accounts) u name currencyCode), db) := by
  rw [AccountRepo.manualNameExists, Program.eval_bind, eval_fetch_own hu, Option.bind_some,
    Program.eval_pure]
  · congr 2
    rw [Bool.eq_iff_iff, decide_eq_true_eq, Bool.not_eq_true', List.isEmpty_eq_false_iff,
      ne_eq, List.filter_eq_nil_iff, Named]
    simp only [decide_eq_true_eq, not_forall, not_not, exists_prop]
    exact exists_congr fun r => and_congr_right fun _ => and_congr_right fun _ => by tauto
  · intro r hr
    exact congrArg some (of_decide_eq_true hr).1

/-- `PUT` on the row that was found. -/
theorem eval_updateName (hu : s.userId = some u) (hrole : s.dbRole = .ingestion)
    (hr : (db .accounts).find? (AccountRepo.isOwn accountId u) = some r) :
    (AccountRepo.updateName accountId u q').eval schema s db =
      if Admissible (Function.update db .accounts ((db .accounts).map fun r' =>
          if AccountRepo.isOwn accountId u r' then
            { r' with name := some q'.name, updatedAt := q'.updatedAt } else r')) then
        some (some { r with name := some q'.name, updatedAt := q'.updatedAt },
          Function.update db .accounts ((db .accounts).map fun r' =>
            if AccountRepo.isOwn accountId u r' then
              { r' with name := some q'.name, updatedAt := q'.updatedAt } else r'))
      else none := by
  rw [AccountRepo.updateName, Program.eval_bind, eval_modify_accounts hu hrole]
  · split
    · rw [Option.bind_some, Program.eval_pure, List.head?_map, List.head?_filter, hr]
      rfl
    · rfl
  · exact fun r hr => (of_decide_eq_true hr).2
  · exact fun _ => rfl

/-- `DELETE` on the row that was found. -/
theorem eval_softDelete (h : Admissible db) (hu : s.userId = some u)
    (hrole : s.dbRole = .ingestion)
    (hr : (db .accounts).find? (AccountRepo.isOwn accountId u) = some r) :
    (AccountRepo.softDelete accountId u now).eval schema s db =
      some (r.isActive, if r.isActive then
        Function.update db .accounts ((db .accounts).map fun r' =>
          if AccountRepo.isOwn accountId u r' then
            { r' with isActive := false, updatedAt := now } else r')
        else db) := by
  have huniq : ∀ r' ∈ db .accounts, AccountRepo.isOwn accountId u r' = true → r' = r := by
    intro r' hr' hown
    have hown' : AccountRepo.isOwn accountId u r = true := List.find?_some hr
    exact List.inj_on_of_nodup_map h.accountIds hr' (List.mem_of_find?_eq_some hr)
      ((of_decide_eq_true hown).1.trans (of_decide_eq_true hown').1.symm)
  have hcond : ∀ r' ∈ db .accounts, (AccountRepo.isOwn accountId u r' && r'.isActive) =
      (AccountRepo.isOwn accountId u r' && r.isActive) := by
    intro r' hr'
    rcases hown : AccountRepo.isOwn accountId u r' with _ | _
    · rfl
    · rw [huniq r' hr' hown]
  have hmap : ((db .accounts).map fun r' => if AccountRepo.isOwn accountId u r' && r'.isActive then
      { r' with isActive := false, updatedAt := now } else r') =
      (db .accounts).map fun r' => if AccountRepo.isOwn accountId u r' && r.isActive then
        { r' with isActive := false, updatedAt := now } else r' :=
    List.map_congr_left fun r' hr' => by rw [hcond r' hr']
  rw [AccountRepo.softDelete, Program.eval_bind, eval_modify_accounts hu hrole, if_pos,
    Option.bind_some, Program.eval_pure, hmap, List.isEmpty_map, List.filter_congr hcond]
  · rcases hactive : r.isActive with _ | _
    · simp
    · have hne : (db .accounts).filter (AccountRepo.isOwn accountId u) ≠ [] := fun hnil =>
        List.filter_eq_nil_iff.mp hnil r (List.mem_of_find?_eq_some hr) (List.find?_some hr)
      simp [hne]
  · apply admissible_map h
    intro r'
    split
    · exact ⟨rfl, rfl, rfl, rfl, rfl⟩
    · exact ⟨rfl, rfl, rfl, rfl, rfl⟩
  · intro r' hr'
    rw [Bool.and_eq_true] at hr'
    exact (of_decide_eq_true hr'.1).2
  · exact fun _ => rfl

theorem nameOr_self {name : String} : nameOr (some name) name = name := by
  rw [nameOr]
  by_cases hn : name = "" <;> simp [Option.filter, hn]

/-- `POST`: the answer of the book. -/
theorem runHandler_createAccount (h : Admissible db) (hu : s.userId = some u)
    (hrole : s.dbRole = .ingestion) (hmem : u ∈ userIds db) :
    (runHandler s (createAccount u q) (alreadyExists q) db).map (Except.map some) id =
      ((AccountBook.create u q (db .accounts)).1,
        Function.update db .accounts (AccountBook.create u q (db .accounts)).2) := by
  have heval : (createAccount u q).eval schema s db =
      if Named (db .accounts) u q.name q.currencyCode then
        some (.error (alreadyExists q), db)
      else if Admissible (Function.update db .accounts (db .accounts ++ [q.row u])) then
        some (.ok ((q.row u).toManualResponse q.name),
          Function.update db .accounts (db .accounts ++ [q.row u]))
      else none := by
    rw [createAccount, Program.eval_bind, eval_manualNameExists hu, Option.bind_some]
    simp only [decide_eq_true_eq]
    split
    · rfl
    · rw [Program.eval_bind, AccountRepo.createAccount, Program.eval_bind,
        eval_create_accounts hu hrole rfl]
      split <;> rfl
  rw [AccountBook.create]
  by_cases hnamed : Named (db .accounts) u q.name q.currencyCode
  · rw [if_pos hnamed] at heval
    rw [if_pos (Or.inl hnamed), runHandler_error heval, Function.update_eq_self]
    rfl
  rw [if_neg hnamed] at heval
  by_cases hid : q.newId ∈ (db .accounts).map fun r => r.id
  · have hnot : ¬ Admissible (Function.update db .accounts (db .accounts ++ [q.row u])) :=
      fun hadm => (admissible_append h hmem).mp hadm (Or.inr hid)
    rw [if_neg hnot] at heval
    rw [if_pos (Or.inr hid), runHandler_refused heval, Function.update_eq_self]
    rfl
  · have hfree := not_or.mpr ⟨hnamed, hid⟩
    rw [if_pos ((admissible_append h hmem).mpr hfree)] at heval
    rw [if_neg hfree, runHandler_ok heval]
    simp only [Prod.map, Except.map, AccountRow.toManualResponse, CreateAccountRequest.row,
      nameOr_self, id]

/-- `PUT`: the answer of the book. -/
theorem runHandler_updateAccount (h : Admissible db) (hu : s.userId = some u)
    (hrole : s.dbRole = .ingestion) :
    (runHandler s (updateAccount u accountId q') (anotherNamed q') db).map (Except.map some) id =
      ((AccountBook.rename u accountId q' (db .accounts)).1,
        Function.update db .accounts (AccountBook.rename u accountId q' (db .accounts)).2) := by
  rcases hr : (db .accounts).find? (AccountRepo.isOwn accountId u) with _ | r
  · have heval : (updateAccount u accountId q').eval schema s db =
        some (.error accountNotFound, db) := by
      rw [updateAccount, Program.eval_bind, eval_getById hu, hr]
      rfl
    rw [runHandler_error heval, AccountBook.rename, hr, Function.update_eq_self]
    rfl
  by_cases hs : r.source = .manual
  swap
  · have heval : (updateAccount u accountId q').eval schema s db =
        some (.error onlyManualEdited, db) := by
      rw [updateAccount, Program.eval_bind, eval_getById hu, hr, Option.bind_some]
      simp only [ne_eq, hs, not_false_eq_true, if_true]
      rfl
    simp only [runHandler_error heval, AccountBook.rename, hr, ne_eq, hs, not_false_eq_true,
      if_true, Function.update_eq_self]
    rfl
  have hupdate := @eval_updateName s u db q' accountId r hu hrole hr
  have heval : (updateAccount u accountId q').eval schema s db =
      if Admissible (Function.update db .accounts ((db .accounts).map fun r' =>
          if AccountRepo.isOwn accountId u r' then
            { r' with name := some q'.name, updatedAt := q'.updatedAt } else r')) then
        some (.ok ⟨r.id, r.type, r.currencyCode, q'.name, r.createdAt⟩,
          Function.update db .accounts ((db .accounts).map fun r' =>
            if AccountRepo.isOwn accountId u r' then
              { r' with name := some q'.name, updatedAt := q'.updatedAt } else r'))
      else none := by
    rw [updateAccount, Program.eval_bind, eval_getById hu, hr, Option.bind_some]
    simp only [ne_eq, hs, not_true_eq_false, if_false]
    rw [Program.eval_bind, hupdate]
    split
    · simp only [Option.bind_some, Program.eval_pure, AccountRow.toManualResponse, nameOr_self]
    · rfl
  by_cases hnamed : Named ((db .accounts).filter fun r' => decide (r'.id ≠ accountId)) u q'.name
      r.currencyCode
  · rw [if_neg fun hadm => (admissible_rename h hr hs).mp hadm hnamed] at heval
    simp only [runHandler_refused heval, AccountBook.rename, hr, ne_eq, hs, not_true_eq_false,
      if_false, if_pos hnamed, Function.update_eq_self]
    rfl
  · rw [if_pos ((admissible_rename h hr hs).mpr hnamed)] at heval
    simp only [runHandler_ok heval, AccountBook.rename, hr, ne_eq, hs, not_true_eq_false,
      if_false, if_neg hnamed]
    rfl

/-- `DELETE`: the answer of the book. -/
theorem runHandler_deleteAccount (h : Admissible db) (hu : s.userId = some u)
    (hrole : s.dbRole = .ingestion) :
    (runHandler s (deleteAccount u accountId now) internalError db).map
      (Except.map fun _ => none) id =
        ((AccountBook.delete u accountId now (db .accounts)).1,
          Function.update db .accounts (AccountBook.delete u accountId now (db .accounts)).2) := by
  rcases hr : (db .accounts).find? (AccountRepo.isOwn accountId u) with _ | r
  · have heval : (deleteAccount u accountId now).eval schema s db =
        some (.error accountNotFound, db) := by
      rw [deleteAccount, Program.eval_bind, eval_getById hu, hr]
      rfl
    simp only [runHandler_error heval, AccountBook.delete, hr, Function.update_eq_self]
    rfl
  by_cases hs : r.source = .manual
  swap
  · have heval : (deleteAccount u accountId now).eval schema s db =
        some (.error cannotDeleteBank, db) := by
      rw [deleteAccount, Program.eval_bind, eval_getById hu, hr, Option.bind_some]
      simp only [ne_eq, hs, not_false_eq_true, if_true]
      rfl
    simp only [runHandler_error heval, AccountBook.delete, hr, ne_eq, hs, not_false_eq_true,
      if_true, Function.update_eq_self]
    rfl
  have hdelete := @eval_softDelete s u db accountId r now h hu hrole hr
  have heval : (deleteAccount u accountId now).eval schema s db =
      some (if r.isActive then (.ok (), Function.update db .accounts ((db .accounts).map fun r' =>
          if AccountRepo.isOwn accountId u r' then
            { r' with isActive := false, updatedAt := now } else r'))
        else (.error accountNotFound, db)) := by
    rw [deleteAccount, Program.eval_bind, eval_getById hu, hr, Option.bind_some]
    simp only [ne_eq, hs, not_true_eq_false, if_false]
    rw [Program.eval_bind, hdelete]
    rcases r.isActive with _ | _ <;> rfl
  rcases hactive : r.isActive with _ | _
  · rw [hactive] at heval
    simp only [runHandler_error heval, AccountBook.delete, hr, ne_eq, hs, not_true_eq_false,
      if_false, hactive, Bool.false_eq_true, Function.update_eq_self]
    rfl
  · rw [hactive] at heval
    simp only [runHandler_ok heval, AccountBook.delete, hr, ne_eq, hs, not_true_eq_false,
      if_false, hactive, if_true]
    rfl

end handlers

/-! ## Runs -/

/-- Requests of any callers, one after another. -/
def serveAll : List (UUID × ManualAccountRequest) → Db TableName.Row →
    List (Except ProblemDetail (Option ManualAccountResponse)) × Db TableName.Row
  | [], db => ([], db)
  | x :: xs, db =>
    ((x.2.serve x.1 db).1 :: (serveAll xs (x.2.serve x.1 db).2).1,
      (serveAll xs (x.2.serve x.1 db).2).2)

namespace AccountBook

/-- A request; only an authenticated caller's does anything. -/
def request (authenticated : UUID → Bool) (rows : List AccountRow)
    (x : UUID × ManualAccountRequest) :
    Except ProblemDetail (Option ManualAccountResponse) × List AccountRow :=
  if authenticated x.1 then serve x.1 rows x.2 else (.error notAuthenticated, rows)

/-- The same requests in the book. -/
def run (authenticated : UUID → Bool) : List (UUID × ManualAccountRequest) → List AccountRow →
    List (Except ProblemDetail (Option ManualAccountResponse)) × List AccountRow
  | [], rows => ([], rows)
  | x :: xs, rows =>
    ((request authenticated rows x).1 :: (run authenticated xs (request authenticated rows x).2).1,
      (run authenticated xs (request authenticated rows x).2).2)

end AccountBook

variable {xs : List (UUID × ManualAccountRequest)} {x : UUID × ManualAccountRequest}

/-- One request: the endpoint does what the book says. -/
theorem serve_eq_book (h : Admissible db) :
    x.2.serve x.1 db =
      ((AccountBook.request (isAuthenticated db) (db .accounts) x).1,
        Function.update db .accounts
          (AccountBook.request (isAuthenticated db) (db .accounts) x).2) := by
  obtain ⟨u, q⟩ := x
  rcases ha : isAuthenticated db u with _ | _
  · cases q <;>
      simp only [ManualAccountRequest.serve, respond_eq, ha, Bool.false_eq_true, if_false,
        AccountBook.request, Function.update_eq_self] <;> rfl
  · have hmem := mem_userIds_of_isAuthenticated ha
    cases q with
    | create q =>
      simp only [ManualAccountRequest.serve, respond_eq, ha, if_true, AccountBook.request]
      exact runHandler_createAccount h rfl rfl hmem
    | update accountId q =>
      simp only [ManualAccountRequest.serve, respond_eq, ha, if_true, AccountBook.request]
      exact runHandler_updateAccount h rfl rfl
    | delete accountId now =>
      simp only [ManualAccountRequest.serve, respond_eq, ha, if_true, AccountBook.request]
      exact runHandler_deleteAccount h rfl rfl

/-- No request breaks a constraint. -/
theorem admissible_serve (h : Admissible db) : Admissible (x.2.serve x.1 db).2 := by
  obtain ⟨u, q⟩ := x
  have hrespond : ∀ {α : Type} (handler : Program TableName.Row (Except ProblemDetail α))
      (refused : ProblemDetail), Admissible (respond u handler refused db).2 := by
    intro α handler refused
    rw [respond_eq]
    split
    · exact admissible_runHandler h
    · exact h
  cases q with
  | create q => exact hrespond (createAccount u q) _
  | update accountId q => exact hrespond (updateAccount u accountId q) _
  | delete accountId now => exact hrespond (deleteAccount u accountId now) _

theorem isAuthenticated_update {rows : List AccountRow} :
    isAuthenticated (Function.update db .accounts rows) = isAuthenticated db := by
  funext u
  rw [isAuthenticated, isAuthenticated, callerRow, callerRow, Function.update_of_ne (by simp)]

/-- **The endpoints keep the book**: in every run of requests of any callers, from any tables that
keep their constraints, the answers are the book's, its accounts are the rows of `accounts`, and
no other table changes. No policy, grant or foreign key refuses what the book accepts. -/
theorem serveAll_eq_book (h : Admissible db) :
    serveAll xs db = ((AccountBook.run (isAuthenticated db) xs (db .accounts)).1,
      Function.update db .accounts (AccountBook.run (isAuthenticated db) xs (db .accounts)).2) := by
  induction xs generalizing db with
  | nil => exact Prod.ext rfl (Function.update_eq_self TableName.accounts db).symm
  | cons x xs ih =>
    rw [serveAll, ih (admissible_serve h), serve_eq_book h, AccountBook.run]
    simp only [isAuthenticated_update, Function.update_self, Function.update_idem]

/-- Two callers open an account of one name, the first twice, and then delete and rename. -/
def sampleRequests : List (UUID × ManualAccountRequest) :=
  [(1, .create ⟨"UAH", "cash", 13, 5⟩), (1, .create ⟨"UAH", "cash", 14, 6⟩),
    (1, .delete 13 7), (1, .create ⟨"UAH", "cash", 14, 8⟩), (1, .delete 11 9), (2, .delete 11 9),
    (3, .delete 12 9), (2, .update 12 ⟨"purse", by decide, by decide, 10⟩)]

theorem serveAll_eq_book_sample : serveAll sampleRequests sampleTables =
    ((AccountBook.run (isAuthenticated sampleTables) sampleRequests
        (sampleTables .accounts)).1,
      Function.update sampleTables .accounts
        (AccountBook.run (isAuthenticated sampleTables) sampleRequests
          (sampleTables .accounts)).2) :=
  serveAll_eq_book (by decide +kernel)

/-! ## The life of an account -/

/-- What becomes of an account in a run of requests. -/
structure Evolves (xs : List (UUID × ManualAccountRequest)) (r r' : AccountRow) : Prop where
  /-- nothing but the name, the flag and the time of the last change is written -/
  same : r' = { r with name := r'.name, isActive := r'.isActive, updatedAt := r'.updatedAt }
  /-- a bank account is never written -/
  bank : r.source ≠ .manual → r' = r
  /-- nor one whose owner sends no request -/
  owner : (∀ x ∈ xs, x.1 ≠ r.userId) → r' = r
  /-- a deleted account stays deleted -/
  deleted : r.isActive = false → r'.isActive = false
  /-- only its owner renames it -/
  name : r'.name = r.name ∨ ∃ q, (r.userId, .update r.id q) ∈ xs

theorem Evolves.refl {r : AccountRow} : Evolves xs r r :=
  ⟨rfl, fun _ => rfl, fun _ => rfl, id, Or.inl rfl⟩

theorem Evolves.trans {ys : List (UUID × ManualAccountRequest)} {r r' r'' : AccountRow}
    (h : Evolves xs r r') (h' : Evolves ys r' r'') : Evolves (xs ++ ys) r r'' := by
  have hid : r'.id = r.id := by rw [h.same]
  have huser : r'.userId = r.userId := by rw [h.same]
  have hsource : r'.source = r.source := by rw [h.same]
  refine ⟨?_, fun hs => ?_, fun ho => ?_, fun hd => h'.deleted (h.deleted hd), ?_⟩
  · rw [h'.same, h.same]
  · rw [h'.bank (hsource ▸ hs), h.bank hs]
  · rw [h'.owner fun x hx => huser ▸ ho x (List.mem_append_right _ hx),
      h.owner fun x hx => ho x (List.mem_append_left _ hx)]
  · rcases h'.name with hn' | ⟨q, hq⟩
    · rcases h.name with hn | ⟨q, hq⟩
      · exact Or.inl (hn'.trans hn)
      · exact Or.inr ⟨q, List.mem_append_left _ hq⟩
    · exact Or.inr ⟨q, List.mem_append_right _ (hid ▸ huser ▸ hq)⟩

/-- Every account evolves, and what is new is a manual account of someone who asked. -/
structure Grows (xs : List (UUID × ManualAccountRequest)) (rows rows' : List AccountRow) :
    Prop where
  old : ∀ r ∈ rows, ∃ r' ∈ rows', Evolves xs r r'
  new : ∀ r' ∈ rows', (∃ r ∈ rows, Evolves xs r r') ∨
    r'.source = .manual ∧ ∃ x ∈ xs, x.1 = r'.userId

theorem Grows.refl {rows : List AccountRow} : Grows xs rows rows :=
  ⟨fun r hr => ⟨r, hr, .refl⟩, fun r hr => Or.inl ⟨r, hr, .refl⟩⟩

theorem Grows.trans {ys : List (UUID × ManualAccountRequest)}
    {rows rows' rows'' : List AccountRow} (h : Grows xs rows rows') (h' : Grows ys rows' rows'') :
    Grows (xs ++ ys) rows rows'' := by
  refine ⟨fun r hr => ?_, fun r'' hr'' => ?_⟩
  · obtain ⟨r', hr', he⟩ := h.old r hr
    obtain ⟨r'', hr'', he'⟩ := h'.old r' hr'
    exact ⟨r'', hr'', he.trans he'⟩
  rcases h'.new r'' hr'' with ⟨r', hr', he'⟩ | ⟨hs, x, hx, hu⟩
  · rcases h.new r' hr' with ⟨r, hr, he⟩ | ⟨hs, x, hx, hu⟩
    · exact Or.inl ⟨r, hr, he.trans he'⟩
    · refine Or.inr ⟨?_, x, List.mem_append_left _ hx, ?_⟩
      · rw [he'.same, hs]
      · rw [he'.same, hu]
  · exact Or.inr ⟨hs, x, List.mem_append_right _ hx, hu⟩

/-- A change of some rows. -/
theorem grows_map {rows : List AccountRow} {w : AccountRow → Bool} {f : AccountRow → AccountRow}
    (hf : ∀ r ∈ rows, w r = true → Evolves xs r (f r)) :
    Grows xs rows (rows.map fun r => if w r then f r else r) := by
  have hone : ∀ r ∈ rows, Evolves xs r (if w r then f r else r) := by
    intro r hr
    split
    · next hw => exact hf r hr hw
    · exact .refl
  refine ⟨fun r hr => ⟨_, List.mem_map_of_mem hr, hone r hr⟩, fun r' hr' => ?_⟩
  obtain ⟨r, hr, rfl⟩ := List.mem_map.mp hr'
  exact Or.inl ⟨r, hr, hone r hr⟩

/-- One request. -/
theorem grows_request {rows : List AccountRow} {authenticated : UUID → Bool}
    (hids : (rows.map fun r => r.id).Nodup) :
    Grows [x] rows (AccountBook.request authenticated rows x).2 := by
  obtain ⟨u, q⟩ := x
  rw [AccountBook.request]
  split
  swap
  · exact Grows.refl
  -- ids are unique, so the row `find?` returns is the only one the rewrite touches
  have hfound : ∀ {accountId : UUID} {r r' : AccountRow},
      rows.find? (AccountRepo.isOwn accountId u) = some r → r' ∈ rows →
      AccountRepo.isOwn accountId u r' = true → r' = r ∧ r.id = accountId ∧ r.userId = u := by
    intro accountId r r' hr hr' hown'
    have hown : AccountRepo.isOwn accountId u r = true := List.find?_some hr
    obtain ⟨hid, hu⟩ : r.id = accountId ∧ r.userId = u := of_decide_eq_true hown
    exact ⟨List.inj_on_of_nodup_map hids hr' (List.mem_of_find?_eq_some hr)
      ((of_decide_eq_true hown').1.trans hid.symm), hid, hu⟩
  cases q with
  | create q =>
    simp only [AccountBook.serve, AccountBook.create]
    split
    · exact Grows.refl
    · refine ⟨fun r hr => ⟨r, List.mem_append_left _ hr, .refl⟩, fun r hr => ?_⟩
      rcases List.mem_append.mp hr with hr | hr
      · exact Or.inl ⟨r, hr, .refl⟩
      · obtain rfl := List.mem_singleton.mp hr
        exact Or.inr ⟨rfl, _, List.mem_singleton_self _, rfl⟩
  | update accountId q =>
    simp only [AccountBook.serve, AccountBook.rename]
    rcases hr : rows.find? (AccountRepo.isOwn accountId u) with _ | r
    · exact Grows.refl
    by_cases hs : r.source = .manual
    swap
    · simp only [ne_eq, hs, not_false_eq_true, if_true]
      exact Grows.refl
    simp only [ne_eq, hs, not_true_eq_false, if_false]
    split
    · exact Grows.refl
    apply grows_map
    intro r' hr' hown
    obtain ⟨rfl, rfl, rfl⟩ := hfound hr hr' hown
    exact ⟨rfl, fun hbank => absurd hs hbank,
      fun ho => absurd rfl (ho _ (List.mem_singleton_self _)), id,
      Or.inr ⟨q, List.mem_singleton_self _⟩⟩
  | delete accountId now =>
    simp only [AccountBook.serve, AccountBook.delete]
    rcases hr : rows.find? (AccountRepo.isOwn accountId u) with _ | r
    · exact Grows.refl
    by_cases hs : r.source = .manual
    swap
    · simp only [ne_eq, hs, not_false_eq_true, if_true]
      exact Grows.refl
    simp only [ne_eq, hs, not_true_eq_false, if_false]
    split
    swap
    · exact Grows.refl
    apply grows_map
    intro r' hr' hown
    obtain ⟨rfl, rfl, rfl⟩ := hfound hr hr' hown
    exact ⟨rfl, fun hbank => absurd hs hbank,
      fun ho => absurd rfl (ho _ (List.mem_singleton_self _)), fun _ => rfl, Or.inl rfl⟩

theorem grows_serveAll (h : Admissible db) :
    Grows xs (db .accounts) ((serveAll xs db).2 .accounts) := by
  induction xs generalizing db with
  | nil => exact .refl
  | cons x xs ih =>
    have hone : Grows [x] (db .accounts) ((x.2.serve x.1 db).2 .accounts) := by
      simp only [serve_eq_book h, Function.update_self]
      exact grows_request h.accountIds
    exact hone.trans (ih (admissible_serve h))

theorem admissible_serveAll (h : Admissible db) : Admissible (serveAll xs db).2 := by
  induction xs generalizing db with
  | nil => exact h
  | cons x xs ih => exact ih (admissible_serve h)

theorem isAuthenticated_serveAll (h : Admissible db) :
    isAuthenticated (serveAll xs db).2 = isAuthenticated db := by
  induction xs generalizing db with
  | nil => rfl
  | cons x xs ih =>
    rw [serveAll, ih (admissible_serve h)]
    simp only [serve_eq_book h, isAuthenticated_update]

/-- **The life of an account**: in every run of requests of any callers an account keeps its id, its
owner and its currency, bank accounts and the accounts of others are not written at all, and a
deleted account never comes back. A name is held for good: the requests to create an account with
the name and the currency of a manual account are refused in every later state, also after that
account has been deleted, unless its owner renames it. -/
theorem account_life (xs : List (UUID × ManualAccountRequest)) (h : Admissible db) :
    Grows xs (db .accounts) ((serveAll xs db).2 .accounts) ∧
      ∀ r ∈ db .accounts, r.source = .manual → (∀ q, (r.userId, .update r.id q) ∉ xs) →
        isAuthenticated db r.userId = true → ∀ q : CreateAccountRequest,
          r.name = some q.name → q.currencyCode = r.currencyCode →
            ((ManualAccountRequest.create q).serve r.userId (serveAll xs db).2).1 =
              .error (alreadyExists q) := by
  refine ⟨grows_serveAll h, fun r hr hs hkept ha q hn hc => ?_⟩
  obtain ⟨r', hr', he⟩ := (grows_serveAll h : Grows xs _ _).old r hr
  have hname : r'.name = r.name := he.name.resolve_right fun ⟨q, hq⟩ => hkept q hq
  have hnamed : AccountBook.Named ((serveAll xs db).2 .accounts) r.userId q.name
      q.currencyCode := by
    refine ⟨r', hr', ?_, ?_, ?_, ?_⟩
    · rw [he.same]
    · rw [he.same, hs]
    · rw [hname, hn]
    · rw [he.same, hc]
  have hserve := @serve_eq_book (serveAll xs db).2 (r.userId, .create q) (admissible_serveAll h)
  rw [hserve]
  simp only [AccountBook.request, isAuthenticated_serveAll h, ha, if_true, AccountBook.serve,
    AccountBook.create, if_pos (Or.inl hnamed)]

/-- The second caller deletes the account `cash`, and cannot open another one of that name. -/
theorem account_life_sample :
    Grows (sampleRequests.take 7 ++ [(2, .delete 12 9)]) (sampleTables .accounts)
        ((serveAll (sampleRequests.take 7 ++ [(2, .delete 12 9)]) sampleTables).2 .accounts) ∧
      ((ManualAccountRequest.create ⟨"UAH", "cash", 15, 10⟩).serve 2
        (serveAll (sampleRequests.take 7 ++ [(2, .delete 12 9)]) sampleTables).2).1 =
          .error (alreadyExists ⟨"UAH", "cash", 15, 10⟩) := by
  obtain ⟨hgrows, hname⟩ := account_life (sampleRequests.take 7 ++ [(2, .delete 12 9)])
    (by decide +kernel : Admissible sampleTables)
  refine ⟨hgrows, hname _ (List.mem_cons_of_mem _ (List.mem_cons_self ..)) rfl (fun q hq => ?_)
    (by decide +kernel) ⟨"UAH", "cash", 15, 10⟩ rfl rfl⟩
  simp [sampleRequests] at hq

end Grosh
