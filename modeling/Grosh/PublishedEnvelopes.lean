import Grosh.ClusterJobs
import Grosh.IngestedPayloads
import Grosh.ManualAccounts

/-!
# The envelopes that ingestion publishes

A transaction is published by the manual endpoint, by the webhook or by a backfill job. Each names
the user and the account itself, after lookups in a session of its own: the endpoint as the caller,
the webhook first as whoever knows the secret and then as the user of the integration, the job as
the user it was started for.

* `owned_of_published` — whatever the request or the parameters of the job say, an envelope names an
  account that is there, its user, and its source.
* `deleteIntegration_denied` — no request deletes an integration.
* `keeps_handler` — no request gives an account another id, source or external id.
-/

namespace Grosh

open RowSecurity

/-! ## The lookups

The statements of the three publishers, as programs under the policies. What each finds is what its
session may see. -/

/-- The answer of statements in a session, and `none` where they raise or find nothing. -/
def answerIn {α : Type} (s : Session) (db : Db TableName.Row)
    (p : Program TableName.Row (Option α)) : Option α :=
  (p.eval schema s db).bind Prod.fst

/-- `UserSettingsRepo.get_default_rate_source`: the setting of the user, who may have none. -/
def UserSettingsRepo.getDefaultRateSource (userId : UUID) :
    Program TableName.Row (Option String) := do
  let rows ← Program.fetch TableName.userSettings fun r : UserSettingsRow =>
    decide (r.userId = userId)
  return rows.head?.bind UserSettingsRow.defaultRateSource

/-- `IntegrationRepo.get_bank_source`; the bank is always Monobank, so that all it tells is whether
the integration is there. -/
def IntegrationRepo.getBankSource (integrationId : UUID) :
    Program TableName.Row (Option String) := do
  let rows ← Program.fetch TableName.bankIntegrations fun r : Integration =>
    decide (r.id = integrationId)
  return rows.head?.map fun _ => "monobank"

namespace MonobankRepo

/-- `get_active_integration_by_webhook_secret`: the id and the user. The policy compares the secret
once more. -/
def getActiveIntegrationByWebhookSecret (webhookSecret : String) :
    Program TableName.Row (Option (UUID × UUID)) := do
  let rows ← Program.fetch TableName.bankIntegrations fun r : Integration =>
    decide (r.config.webhookSecret = webhookSecret ∧ r.status = .active)
  return rows.head?.map fun r => (r.id, r.userId)

/-- `get_account_by_external_id`: the account of the integration with this id at the bank, if the
session sees it. -/
def getAccountByExternalId (externalId : String) (integrationId : UUID) :
    Program TableName.Row (Option UUID) := do
  let rows ← Program.fetch TableName.accounts fun r : AccountRow =>
    decide (r.externalId = some externalId ∧ r.integrationId = some integrationId)
  return rows.head?.map fun r => r.id

/-- `decrypt_token`; `pgp_sym_decrypt` raises where the key is not the token's. An integration that
is not active is not found. -/
def decryptToken (decrypt : String → Option String) (integrationId : UUID) :
    Program TableName.Row (Option String) := do
  let rows ← Program.fetch TableName.bankIntegrations fun r : Integration =>
    decide (r.id = integrationId ∧ r.status = .active)
  match rows.head? with
  | none => return none
  | some r =>
    match decrypt r.config.encryptedToken with
    | none => Program.raise
    | some token => return some token

/-- `mark_integration_error`: the integration is left out from then on, until the user links
again. -/
def markIntegrationError (integrationId : UUID) : Program TableName.Row Unit := do
  let _ ← Program.modify TableName.bankIntegrations
    (fun r : Integration => decide (r.id = integrationId)) fun r : Integration =>
    { r with status := .error }
  return ()

end MonobankRepo

/-! ## The manual endpoint

The endpoint reads the account and the settings as the caller, and then decides without the
tables. -/

/-- What `get_by_id` returns of a row: five of its columns. -/
def AccountRow.record (r : AccountRow) : AccountRecord :=
  ⟨r.id, r.source, r.userId, r.name, r.isActive⟩

/-- The handlers of the errors of `create_transaction`: the status, the code and the text of
each. -/
def CreateTransactionError.problem : CreateTransactionError → ProblemDetail
  | accountNotOwned accountId userId =>
    ⟨403, "INSUFFICIENT_PERMISSIONS",
      "Account " ++ uuidString accountId ++ " does not belong to user " ++ uuidString userId⟩
  | accountNotManual accountId source =>
    ⟨403, "INSUFFICIENT_PERMISSIONS",
      "Account " ++ uuidString accountId ++ " is a " ++ source.toText ++ " account; " ++
        "manual transactions can only be recorded against manual accounts."⟩
  | invalidRateSource rateSource =>
    ⟨422, "VALIDATION_ERROR", "Unknown rate source: '" ++ rateSource ++ "'"⟩

/-- `POST /manual/transactions`: the lookups, and the envelope that is published. The table
`rate_source_config` has no row security. -/
def createTransactionIn (nenv : NormalizerEnv) (rateSources : List String) (q : TimedRequest) :
    Program TableName.Row (Except ProblemDetail PublishedEnvelope) := do
  let account ← AccountRepo.getById q.accountId q.userId
  let defaultRateSource ← UserSettingsRepo.getDefaultRateSource q.userId
  let ienv : IngestionEnv :=
    ⟨(account.map AccountRow.record).toList, fun _ => defaultRateSource, rateSources⟩
  return (publishManual nenv ienv q).mapError CreateTransactionError.problem

/-! ## The webhook

A webhook has no user at first. The secret in its path finds the integration, and the integration
says whose account it may look for. -/

/-- The session of a webhook, before and after `set_rls_user_id`. The secret stays set. -/
def webhookSession (webhookSecret : String) (userId : Option UUID) : Session :=
  ⟨.ingestion, userId, none, none, some webhookSecret⟩

/-- The lookups of `receive_webhook`: the integration in the session of the secret, the account in
the session of the integration's user. -/
def WebhookEnv.ofTables (db : Db TableName.Row) (webhookSecret : String) : WebhookEnv where
  integration := fun x =>
    answerIn (webhookSession webhookSecret none) db
      (MonobankRepo.getActiveIntegrationByWebhookSecret x)
  account := fun externalId integrationId =>
    (answerIn (webhookSession webhookSecret none) db
      (MonobankRepo.getActiveIntegrationByWebhookSecret webhookSecret)).bind fun found =>
        answerIn (webhookSession webhookSecret (some found.2)) db
          (MonobankRepo.getAccountByExternalId externalId integrationId)

/-! ## The backfill job

The job runs outside of any request, with the user of its environment in the session. It reads the
token and the account once, before it asks the bank. -/

/-- Monobank, pgcrypto and the producer, as a job meets them: what is not in the tables. -/
structure BackfillServices : Type where
  decrypt : String → Option String
  getStatements : String → StatementWindow → StatementsReply
  produces : TransactionEnvelope → MonobankStatementItem → Bool
  /-- `original_mcc` of the messages in order: the windows leave it out -/
  originalMcc : ℕ → ℤ

/-- The parameters in the environment of a backfill job, as the trigger has set them. -/
structure BackfillJob : Type where
  integrationId : UUID
  userId : UUID
  accountExternalId : String
  fromTimestamp : ℤ
  toTimestamp : ℤ

namespace BackfillJob

/-- The session of a job: the user of its environment, no role. -/
def session (job : BackfillJob) : Session := ⟨.ingestion, some job.userId, none, none, none⟩

/-- What `run_backfill` reads of the tables; `none` where the token does not decrypt. -/
def env (ext : BackfillServices) (db : Db TableName.Row) (job : BackfillJob) :
    Option BackfillEnv :=
  ((MonobankRepo.decryptToken ext.decrypt job.integrationId).eval schema job.session db).map
    fun read =>
      { userId := job.userId
        token := read.1
        accountId := answerIn job.session db
          (MonobankRepo.getAccountByExternalId job.accountExternalId job.integrationId)
        getStatements := ext.getStatements
        produces := ext.produces }

/-- `run_transactions_backfill`: it ends at once where the integration is gone or the token does not
decrypt. -/
def run (ext : BackfillServices) (db : Db TableName.Row) (job : BackfillJob) : BackfillRun :=
  match answerIn job.session db (IntegrationRepo.getBankSource job.integrationId) with
  | none => .ended (some .integrationNotFound)
  | some _ =>
    match job.env ext db with
    | none => .ended (some .other)
    | some benv => runBackfill benv job.fromTimestamp job.toTimestamp

/-- The envelopes a job publishes, window by window. -/
def published (ext : BackfillServices) (db : Db TableName.Row) (job : BackfillJob) :
    List PublishedEnvelope :=
  (job.run ext db).produced.zipIdx.map fun (p, n) =>
    backfillEnvelope p.1 { toMonobankStatementItem := p.2, originalMcc := ext.originalMcc n }

/-- The tables after a job: a bank that refuses the token has the integration marked, and nothing
else is written. -/
def tables (ext : BackfillServices) (db : Db TableName.Row) (job : BackfillJob) :
    Db TableName.Row :=
  if (job.run ext db).integrationError then
    (((MonobankRepo.markIntegrationError job.integrationId).eval schema job.session db).map
      Prod.snd).getD db
  else db

end BackfillJob

/-! ## Linking

The statements of a link, in the order in which the service executes them, under the policies of the
caller. -/

namespace MonobankRepo

/-- `get_integration_by_client_id`: an active integration of the user and the client. -/
def getIntegrationByClientId (userId : UUID) (clientId : String) :
    Program TableName.Row (Option Integration) := do
  let rows ← Program.fetch TableName.bankIntegrations fun r : Integration =>
    decide (r.userId = userId ∧ r.status = .active ∧ r.config.monobankClientId = clientId)
  return rows.head?

/-- `get_any_active_integration`: whatever the client. -/
def getAnyActiveIntegration (userId : UUID) : Program TableName.Row (Option Integration) := do
  let rows ← Program.fetch TableName.bankIntegrations fun r : Integration =>
    decide (r.userId = userId ∧ r.status = .active)
  return rows.head?

/-- `create_integration_idempotent`: the id, and that the row is new. The index entry of a user and
a client is visible to the user. -/
def createIntegrationIdempotent (r : Integration) :
    Program TableName.Row (Option UUID × Bool) := do
  let taken ← Program.fetch TableName.bankIntegrations fun r' : Integration =>
    decide (r'.slot = r.slot)
  if taken.isEmpty then
    Program.create TableName.bankIntegrations r true
    return (some r.id, true)
  else
    let existing ← getIntegrationByClientId r.userId r.config.monobankClientId
    return (existing.map Integration.id, false)

/-- `update_integration_token`: the token of the row, and the version of its key. -/
def updateIntegrationToken (integrationId : UUID) (encryptedToken : String) (keyVersion : ℤ) :
    Program TableName.Row Unit := do
  let _ ← Program.modify TableName.bankIntegrations
    (fun r : Integration => decide (r.id = integrationId)) fun r : Integration =>
    { r with config := r.config.rotate encryptedToken keyVersion }
  return ()

/-- `find_orphan_accounts_for_rebind`: accounts of the client that an unlink has left without an
integration. -/
def findOrphanAccountsForRebind (userId : UUID) (clientId : String) (externalIds : List String) :
    Program TableName.Row (List AccountRow) :=
  Program.fetch TableName.accounts fun r : AccountRow =>
    decide (r.userId = userId ∧ r.source = .monobank ∧ r.clientId = some clientId ∧
      r.integrationId = none ∧ ∃ x ∈ externalIds, r.externalId = some x)

/-- `rebind_account`. -/
def rebindAccount (accountId : UUID) (integrationId : Option UUID) (now : Timestamp) :
    Program TableName.Row Unit := do
  let _ ← Program.modify TableName.accounts (fun r : AccountRow => decide (r.id = accountId))
    fun r : AccountRow => { r with integrationId := integrationId, updatedAt := now }
  return ()

/-- `set_account_monobank_client_id`: the client is remembered by the account, so that it is found
again after an unlink. -/
def setAccountMonobankClientId (accountId : UUID) (clientId : String) (now : Timestamp) :
    Program TableName.Row Unit := do
  let _ ← Program.modify TableName.accounts (fun r : AccountRow => decide (r.id = accountId))
    fun r : AccountRow => { r with clientId := some clientId, updatedAt := now }
  return ()

/-- `delete_integration`: whether there was a row. -/
def deleteIntegration (integrationId : UUID) : Program TableName.Row Bool := do
  let rows ← Program.remove TableName.bankIntegrations fun r : Integration =>
    decide (r.id = integrationId)
  return !rows.isEmpty

end MonobankRepo

section Link

variable (numericToAlpha : ℤ → Option String) (call : LinkCall) (info : MonobankClientInfo)
  (now : Timestamp)

/-- The accounts from the `n`-th on: an orphan is rebound, the others are created. At the end the
response is built, which an integration without an id does not fit. -/
def linkAccounts (integrationId : Option UUID) (orphans : List AccountRow) :
    ℕ → List MonobankAccount → Program TableName.Row Unit
  | _, [] => if integrationId = none then Program.raise else pure ()
  | n, account :: rest =>
    match numericToAlpha account.currencyCode with
    | none => Program.raise
    | some currencyCode =>
      match orphans.reverse.find? fun r => decide (r.externalId = some account.id) with
      | some orphan => do
        MonobankRepo.rebindAccount orphan.id integrationId now
        linkAccounts integrationId orphans (n + 1) rest
      | none => do
        let r : AccountRow :=
          { toLinkedAccount := newAccount call integrationId n account currencyCode
            name := none
            isActive := true
            createdAt := now
            updatedAt := now }
        Program.create TableName.accounts r true
        MonobankRepo.setAccountMonobankClientId r.id info.clientId now
        linkAccounts integrationId orphans (n + 1) rest

/-- The statements of `MonobankLinkingService.link`, once Monobank has answered for the token. -/
def link : Program TableName.Row (Except ProblemDetail Unit) := do
  match ← MonobankRepo.getIntegrationByClientId call.userId info.clientId with
  | some existing =>
    MonobankRepo.updateIntegrationToken existing.id call.encryptedToken call.keyVersion
    return .ok ()
  | none =>
    match ← MonobankRepo.getAnyActiveIntegration call.userId with
    | some _ =>
      return .error ⟨409, "INTEGRATION_ALREADY_LINKED",
        "User has an integration for a different Monobank account;" ++
          " DELETE it before linking a new one."⟩
    | none =>
      let created ← MonobankRepo.createIntegrationIdempotent (newIntegration call info)
      -- another request has linked the client meanwhile
      let existing ← (if created.2 then pure none else
        MonobankRepo.getIntegrationByClientId call.userId info.clientId :
          Program TableName.Row (Option Integration))
      match existing with
      | some existing =>
        MonobankRepo.updateIntegrationToken existing.id call.encryptedToken call.keyVersion
        return .ok ()
      | none =>
        let orphans ← MonobankRepo.findOrphanAccountsForRebind call.userId info.clientId
          (info.accounts.map MonobankAccount.id)
        linkAccounts numericToAlpha call info now created.1 orphans 0 info.accounts
        return .ok ()

end Link

/-- `DELETE /monobank/integrations/{integration_id}`. -/
def deleteIntegration (decrypt : String → Option String) (integrationId : UUID) :
    Program TableName.Row (Except ProblemDetail Unit) := do
  let notFound : ProblemDetail := ⟨404, "INTEGRATION_NOT_FOUND", "Integration not found."⟩
  match ← MonobankRepo.decryptToken decrypt integrationId with
  | none => return .error notFound
  | some _ =>
    if ← MonobankRepo.deleteIntegration integrationId then
      return .ok ()
    else
      return .error notFound

/-- **No unlink goes through** with the grants of the migrations: where the token of the integration
is found, the deletion of the row is denied, and the request ends with an error. -/
theorem deleteIntegration_denied {decrypt : String → Option String} {integrationId : UUID}
    {s : Session} {db db' : Db TableName.Row} {token : String}
    (hfound : (MonobankRepo.decryptToken decrypt integrationId).outcome schema s db =
      .ok (some token, db')) :
    (deleteIntegration decrypt integrationId).outcome schema s db = .error .denied := by
  have hdenied : (MonobankRepo.deleteIntegration integrationId).outcome schema s db' =
      .error .denied := by
    rw [MonobankRepo.deleteIntegration, Program.outcome_bind, Program.remove, Program.outcome]
    rw [if_neg fun hg => absurd (granted_delete.symm.trans hg.2) Bool.false_ne_true]
    rfl
  rw [deleteIntegration, Program.outcome_bind, hfound]
  change (MonobankRepo.deleteIntegration integrationId >>= _).outcome schema s db' = _
  rw [Program.outcome_bind, hdenied]
  rfl

/-! ## What no request does to an account

Three columns of an account say what may be published for it: its id, its source and its external
id. No request changes any of them. -/

/-- A manual account is created without an external id, so that no statement item is ever matched to
it. -/
def NewRow : ∀ t : TableName, t.Row → Prop
  | .accounts, r => r.source = .manual → r.externalId = none
  | _, _ => True

/-- An account keeps its id, its source and its external id. Other tables may change as they
like. -/
def SameRow : ∀ t : TableName, t.Row → t.Row → Prop
  | .accounts, r, r' => r'.id = r.id ∧ r'.source = r.source ∧ r'.externalId = r.externalId
  | _, _, _ => True

/-- The statements give no account another id, source or external id, whichever rows they find. -/
def KeepsAccounts {α : Type} (p : Program TableName.Row α) : Prop := p.Writes NewRow SameRow

section Keeps

variable {α : Type} {userId accountId integrationId : UUID}

open Program

/-- An update of accounts that leaves the three columns alone is such a statement. -/
theorem keeps_modify_accounts {w : AccountRow → Bool} {f : AccountRow → AccountRow}
    {g : List AccountRow → Program TableName.Row α} (hf : ∀ r, SameRow .accounts r (f r))
    (hg : ∀ rows, KeepsAccounts (g rows)) :
    KeepsAccounts (Program.modify TableName.accounts w f >>= g) :=
  (writes_modify (t := TableName.accounts) hf).bind hg

theorem keeps_createAccount (q : CreateAccountRequest) :
    KeepsAccounts (createAccount userId q) := by
  apply Writes.bind (Writes.bind (writes_fetch _ _) fun _ => writes_pure _)
  intro taken
  split
  · exact writes_pure _
  · refine Writes.bind (Writes.bind ?_ fun _ => writes_pure _) fun _ => writes_pure _
    exact writes_create (t := TableName.accounts) fun _ => rfl

theorem keeps_getById : KeepsAccounts (AccountRepo.getById accountId userId) :=
  Writes.bind (writes_fetch _ _) fun _ => writes_pure _

theorem keeps_updateAccount (q : UpdateAccountRequest) :
    KeepsAccounts (updateAccount userId accountId q) := by
  apply Writes.bind keeps_getById
  intro existing
  rcases existing with _ | r
  · exact writes_pure _
  dsimp only
  split
  · exact writes_pure _
  · refine Writes.bind (keeps_modify_accounts (fun _ => ⟨rfl, rfl, rfl⟩) fun _ => writes_pure _)
      fun updated => ?_
    cases updated <;> exact writes_pure _

theorem keeps_deleteAccount (now : Timestamp) :
    KeepsAccounts (deleteAccount userId accountId now) := by
  apply Writes.bind keeps_getById
  intro existing
  rcases existing with _ | r
  · exact writes_pure _
  dsimp only
  split
  · exact writes_pure _
  · refine Writes.bind (keeps_modify_accounts (fun _ => ⟨rfl, rfl, rfl⟩) fun _ => writes_pure _)
      fun deleted => ?_
    cases deleted <;> exact writes_pure _

/-- An update of integrations touches no account. -/
theorem keeps_modify_integrations {w : Integration → Bool} {f : Integration → Integration} :
    KeepsAccounts (Program.modify TableName.bankIntegrations w f) :=
  writes_modify (t := TableName.bankIntegrations) fun _ => trivial

theorem keeps_linkAccounts (numericToAlpha : ℤ → Option String) (call : LinkCall)
    (info : MonobankClientInfo) (now : Timestamp) (integration : Option UUID)
    (orphans : List AccountRow) (accounts : List MonobankAccount) : ∀ n : ℕ,
      KeepsAccounts (linkAccounts numericToAlpha call info now integration orphans n accounts) := by
  induction accounts with
  | nil =>
    intro n
    rw [linkAccounts]
    split
    · exact writes_raise
    · exact writes_pure _
  | cons account rest ih =>
    intro n
    rw [linkAccounts]
    split
    · exact writes_raise
    split
    · exact Writes.bind (keeps_modify_accounts (fun _ => ⟨rfl, rfl, rfl⟩) fun _ => writes_pure _)
        fun _ => ih _
    · refine Writes.bind (writes_create (t := TableName.accounts) ?_) fun _ => ?_
      · exact fun hmanual => nomatch hmanual
      · exact Writes.bind
          (keeps_modify_accounts (fun _ => ⟨rfl, rfl, rfl⟩) fun _ => writes_pure _) fun _ => ih _

theorem keeps_createIntegrationIdempotent (r : Integration) :
    KeepsAccounts (MonobankRepo.createIntegrationIdempotent r) := by
  apply Writes.bind (writes_fetch _ _)
  intro taken
  split
  · exact Writes.bind (writes_create (t := TableName.bankIntegrations) trivial) fun _ =>
      writes_pure _
  · exact Writes.bind (Writes.bind (writes_fetch _ _) fun _ => writes_pure _) fun _ =>
      writes_pure _

/-- Linking creates bank accounts, and binds others: the client and the integration of an account
change, not what it is. -/
theorem keeps_link (numericToAlpha : ℤ → Option String) (call : LinkCall)
    (info : MonobankClientInfo) (now : Timestamp) :
    KeepsAccounts (link numericToAlpha call info now) := by
  have hlookup : ∀ userId clientId,
      KeepsAccounts (MonobankRepo.getIntegrationByClientId userId clientId) := fun _ _ =>
    Writes.bind (writes_fetch _ _) fun _ => writes_pure _
  have hrotate : ∀ id token version,
      KeepsAccounts (MonobankRepo.updateIntegrationToken id token version) := fun _ _ _ =>
    Writes.bind keeps_modify_integrations fun _ => writes_pure _
  apply Writes.bind (hlookup _ _)
  intro existing
  rcases existing with _ | existing
  swap
  · exact Writes.bind (hrotate _ _ _) fun _ => writes_pure _
  apply Writes.bind (Writes.bind (writes_fetch _ _) fun _ => writes_pure _)
  intro conflicting
  rcases conflicting with _ | conflicting
  swap
  · exact writes_pure _
  apply Writes.bind (keeps_createIntegrationIdempotent _)
  intro created
  refine Writes.bind ?_ fun existing => ?_
  · split
    · exact writes_pure _
    · exact hlookup _ _
  rcases existing with _ | existing
  · exact Writes.bind (writes_fetch _ _) fun _ =>
      Writes.bind (keeps_linkAccounts _ _ _ _ _ _ _ _) fun _ => writes_pure _
  · exact Writes.bind (hrotate _ _ _) fun _ => writes_pure _

theorem keeps_deleteIntegration (decrypt : String → Option String) :
    KeepsAccounts (deleteIntegration decrypt integrationId) := by
  refine Writes.bind (Writes.bind (writes_fetch _ _) fun rows => ?_) fun token => ?_
  · rcases rows.head? with _ | r
    · exact writes_pure _
    · dsimp only
      split
      · exact writes_raise
      · exact writes_pure _
  · rcases token with _ | token
    · exact writes_pure _
    · apply Writes.bind (Writes.bind (writes_remove _ _) fun _ => writes_pure _)
      intro gone
      cases gone <;> exact writes_pure _

/-- The requests that write accounts and integrations. All others only read them. -/
inductive AccountRequest : Type where
  | create (q : CreateAccountRequest)
  | update (accountId : UUID) (q : UpdateAccountRequest)
  | delete (accountId : UUID) (now : Timestamp)
  | link (numericToAlpha : ℤ → Option String) (call : LinkCall) (info : MonobankClientInfo)
      (now : Timestamp)
  | unlink (decrypt : String → Option String) (integrationId : UUID)

/-- The handler of a request, without its answer. -/
def AccountRequest.handler (userId : UUID) :
    AccountRequest → Program TableName.Row (Except ProblemDetail Unit)
  | create q => Except.map (fun _ => ()) <$> createAccount userId q
  | update accountId q => Except.map (fun _ => ()) <$> updateAccount userId accountId q
  | delete accountId now => deleteAccount userId accountId now
  | link numericToAlpha call info now => Grosh.link numericToAlpha call info now
  | unlink decrypt integrationId => deleteIntegration decrypt integrationId

/-- **No request gives an account another id, source or external id**, whatever it asks for. -/
theorem keeps_handler (q : AccountRequest) : KeepsAccounts (q.handler userId) := by
  cases q with
  | create q => exact (keeps_createAccount q).bind fun _ => writes_pure _
  | update accountId q => exact (keeps_updateAccount q).bind fun _ => writes_pure _
  | delete accountId now => exact keeps_deleteAccount now
  | link numericToAlpha call info now => exact keeps_link numericToAlpha call info now
  | unlink decrypt integrationId => exact keeps_deleteIntegration decrypt

end Keeps

/-! ## What an envelope names

The user and the account of an envelope come from the lookups, and these see only what belongs
together. -/

/-- A call that publishes transactions, by one of the three ways. -/
inductive IngestionCall : Type where
  | manual (q : TimedRequest)
  | webhook (webhookSecret account : String) (statementItem : Dict)
  | backfill (job : BackfillJob)

/-- What a call meets beside the tables with row security: the services, and the table of the rate
sources. -/
structure IngestionServices extends BackfillServices where
  /-- `rate_source_config` -/
  rateSources : List String

/-- The envelopes a call publishes: one at most, but for a job. -/
def IngestionCall.published (py : Pydantic) (nenv : NormalizerEnv) (ext : IngestionServices)
    (db : Db TableName.Row) : IngestionCall → List PublishedEnvelope
  | manual q =>
    (respond q.userId (createTransactionIn nenv ext.rateSources q) internalError
      db).1.toOption.toList
  | webhook webhookSecret account statementItem =>
    (receiveWebhook py (.ofTables db webhookSecret) webhookSecret account
      statementItem).toOption.toList
  | backfill job => job.published ext.toBackfillServices db

/-- The tables after a call: only a job may write, and only the status of its integration. -/
def IngestionCall.tables (ext : IngestionServices) (db : Db TableName.Row) :
    IngestionCall → Db TableName.Row
  | manual _ => db
  | webhook _ _ _ => db
  | backfill job => job.tables ext.toBackfillServices db

/-- The account is there, belongs to the user and is of the source. It is what the normalizer relies
on without asking. -/
def OwnAccount (db : Db TableName.Row) (userId accountId : UUID) (source : String) : Prop :=
  ∃ r ∈ db .accounts, r.id = accountId ∧ r.userId = userId ∧ r.source.toText = source

/-- The envelope names an account of its user and of its source, in the tables as they are. -/
def PublishedEnvelope.Owned (db : Db TableName.Row) (e : PublishedEnvelope) : Prop :=
  OwnAccount db e.userId e.accountId e.source

/-- No manual account has an external id. It holds of every table that only the requests have
written. -/
def WellSourced (db : Db TableName.Row) : Prop := ∀ r ∈ db .accounts, NewRow .accounts r

section Owned

variable {db : Db TableName.Row} {s : Session} {u : UUID} {e : PublishedEnvelope}
  {py : Pydantic} {nenv : NormalizerEnv} {ext : IngestionServices}

/-- The account lookup finds an account of the user of the session, and a bank's, since a manual one
has no external id to be found by. -/
theorem ownAccount_of_external (hsource : WellSourced db) (hu : s.userId = some u)
    {externalId : String} {integrationId accountId : UUID}
    (h : answerIn s db (MonobankRepo.getAccountByExternalId externalId integrationId) =
      some accountId) : OwnAccount db u accountId "monobank" := by
  rw [answerIn, MonobankRepo.getAccountByExternalId, Program.eval_bind, eval_fetch_accounts hu,
    Option.bind_some, Program.eval_pure, Option.bind_some] at h
  obtain ⟨r, hr, rfl⟩ := Option.map_eq_some_iff.mp h
  obtain ⟨hr, hw⟩ := List.mem_filter.mp (List.mem_of_head? hr)
  obtain ⟨hown, hw⟩ := Bool.and_eq_true_iff.mp hw
  have hexternal := (of_decide_eq_true hw).1
  refine ⟨r, hr, rfl, of_decide_eq_true hown, ?_⟩
  rcases hs : r.source with _ | _
  · rfl
  · rw [hsource r hr hs] at hexternal
    cases hexternal

theorem eval_getDefaultRateSource (hu : s.userId = some u) :
    ∃ rateSource, (UserSettingsRepo.getDefaultRateSource u).eval schema s db =
      some (rateSource, db) := by
  rw [UserSettingsRepo.getDefaultRateSource, Program.eval_bind, eval_fetch_own hu,
    Option.bind_some, Program.eval_pure]
  · exact ⟨_, rfl⟩
  · exact fun r hr => congrArg some (of_decide_eq_true hr)

/-- What `create_transaction` publishes names an account that it has found, and a manual one. Its
user is the caller. -/
theorem publishManual_ok {ienv : IngestionEnv} {q : TimedRequest}
    (h : publishManual nenv ienv q = .ok e) :
    e.source = "manual" ∧ e.userId = q.userId ∧ e.accountId = q.accountId ∧
      ∃ a, ienv.getById q.accountId q.userId = some a ∧ a.source = .manual := by
  rw [publishManual, createTransaction] at h
  rcases ha : ienv.getById q.accountId q.userId with _ | a
  · rw [ha] at h
    cases h
  rw [ha] at h
  dsimp only at h
  split at h
  · cases h
  next hmanual =>
  split at h
  · cases h
  · obtain rfl := Except.ok.inj h
    exact ⟨rfl, rfl, rfl, a, rfl, not_not.mp hmanual⟩

theorem owned_manual {q : TimedRequest}
    (h : e ∈ (IngestionCall.manual q).published py nenv ext db) : e.Owned db := by
  rw [IngestionCall.published, respond_eq] at h
  split at h
  swap
  · cases h
  obtain ⟨rateSource, hrate⟩ := @eval_getDefaultRateSource db
    (callerSession q.userId ((callerRow db q.userId).map UserRow.role)) q.userId rfl
  have heval : (createTransactionIn nenv ext.rateSources q).eval schema
      (callerSession q.userId ((callerRow db q.userId).map UserRow.role)) db =
        some ((publishManual nenv
          ⟨(((db .accounts).find? (AccountRepo.isOwn q.accountId q.userId)).map
            AccountRow.record).toList, fun _ => rateSource, ext.rateSources⟩ q).mapError
          CreateTransactionError.problem, db) := by
    rw [createTransactionIn, Program.eval_bind, eval_getById rfl, Option.bind_some,
      Program.eval_bind, hrate, Option.bind_some, Program.eval_pure]
  rw [runHandler, heval] at h
  rcases hpublish : publishManual nenv
      ⟨(((db .accounts).find? (AccountRepo.isOwn q.accountId q.userId)).map
        AccountRow.record).toList, fun _ => rateSource, ext.rateSources⟩ q with error | e'
  · rw [hpublish] at h
    cases h
  rw [hpublish] at h
  obtain rfl := List.mem_singleton.mp h
  obtain ⟨hs, hu, ha, a, hfound, hmanual⟩ := publishManual_ok hpublish
  rw [PublishedEnvelope.Owned, hs, hu, ha]
  rcases hr : (db .accounts).find? (AccountRepo.isOwn q.accountId q.userId) with _ | r
  · rw [hr] at hfound
    cases hfound
  have hown : AccountRepo.isOwn q.accountId q.userId r = true := List.find?_some hr
  obtain ⟨hid, huser⟩ := of_decide_eq_true hown
  rw [hr] at hfound
  have hrecord : a = r.record := by
    have hmem := List.mem_of_find?_eq_some hfound
    exact List.mem_singleton.mp hmem
  subst hrecord
  exact ⟨r, List.mem_of_find?_eq_some hr, hid, huser, congrArg TransactionSource.toText hmanual⟩

theorem owned_webhook (hsource : WellSourced db) {webhookSecret account : String}
    {statementItem : Dict}
    (h : e ∈ (IngestionCall.webhook webhookSecret account statementItem).published py nenv ext db) :
    e.Owned db := by
  rw [IngestionCall.published, receiveWebhook] at h
  rcases hi : (WebhookEnv.ofTables db webhookSecret).integration webhookSecret with _ | found
  · rw [hi] at h
    cases h
  obtain ⟨integrationId, userId⟩ := found
  rw [hi] at h
  dsimp only at h
  rcases ha : (WebhookEnv.ofTables db webhookSecret).account account integrationId with
    _ | accountId
  · rw [ha] at h
    cases h
  rw [ha] at h
  dsimp only at h
  split at h
  · cases h
  obtain rfl := List.mem_singleton.mp h
  obtain ⟨found, hfound, hlookup⟩ := Option.bind_eq_some_iff.mp ha
  obtain rfl := Option.some.inj (hfound.symm.trans hi)
  exact ownAccount_of_external hsource rfl hlookup

/-- The loop produces for one envelope only, that of the account the job has read. -/
theorem backfillLoop_envelope {benv : BackfillEnv} {token : String} {envelope : TransactionEnvelope}
    {fromTimestamp currentTo : ℤ} :
    ∀ p ∈ (backfillLoop benv token envelope fromTimestamp currentTo).produced, p.1 = envelope := by
  fun_induction backfillLoop benv token envelope fromTimestamp currentTo with
  | case1 | case2 | case3 | case4 | case7 => exact fun p hp => absurd hp List.not_mem_nil
  | case5 currentTo _ _ window items _ _ sent _ ih =>
    intro p hp
    rcases List.mem_append.mp hp with hp | hp
    · obtain ⟨item, -, rfl⟩ := List.mem_map.mp hp
      rfl
    · exact ih p hp
  | case6 currentTo _ _ window items _ _ sent =>
    intro p hp
    rcases List.mem_append.mp hp with hp | hp
    · obtain ⟨item, -, rfl⟩ := List.mem_map.mp hp
      rfl
    · exact absurd hp List.not_mem_nil

theorem owned_backfill (hsource : WellSourced db) {job : BackfillJob}
    (h : e ∈ (IngestionCall.backfill job).published py nenv ext db) : e.Owned db := by
  obtain ⟨⟨p, n⟩, hp, rfl⟩ := List.mem_map.mp h
  have hp := List.fst_mem_of_mem_zipIdx hp
  have hnone : p ∉ ([] : List (TransactionEnvelope × MonobankStatementItem)) := List.not_mem_nil
  rw [BackfillJob.run] at hp
  split at hp
  · exact absurd hp hnone
  split at hp
  · exact absurd hp hnone
  next benv henv =>
  obtain ⟨read, -, rfl⟩ := Option.map_eq_some_iff.mp henv
  rw [runBackfill] at hp
  split at hp
  · exact absurd hp hnone
  split at hp
  · exact absurd hp hnone
  next accountId haccount =>
  have henvelope := backfillLoop_envelope p hp
  change OwnAccount db p.1.userId p.1.accountId "monobank"
  rw [henvelope]
  exact ownAccount_of_external hsource rfl haccount

/-- **Every envelope names an account of its user**, whatever the call asks for. -/
theorem owned_of_published (hsource : WellSourced db) {call : IngestionCall}
    (h : e ∈ call.published py nenv ext db) : e.Owned db := by
  cases call with
  | manual q => exact owned_manual h
  | webhook webhookSecret account statementItem => exact owned_webhook hsource h
  | backfill job => exact owned_backfill hsource h

end Owned

end Grosh
