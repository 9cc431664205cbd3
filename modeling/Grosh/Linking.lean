import Grosh.Lib.ReadCommitted
import Grosh.Domain

/-!
# Linking a Monobank client

`MonobankLinkingService.link` and `unlink` as the statements of their requests, each of which is one
transaction. An integration belongs to a user and a Monobank client; the unique index over the two
looks at every row, the lookups of the service at the active ones. The statements are executed here
as by a role with the privileges they need. The role of the service has none to delete an
integration, so that with the grants of the migrations an unlink that finds its integration ends
with an error; `deleteIntegration_denied` states this.

* `relink_never_recovers` — a client whose integration has status `error` cannot be linked again.
-/

namespace Grosh

open Transition ReadCommitted

/-! ## The tables

The integrations and the accounts, with the columns a link reads or writes. The constraints are
fields of the tables, so that a statement has to keep them. -/

/-- `bank_integrations.status`: an integration is active, or its token was refused. -/
inductive IntegrationStatus : Type where
  | active
  | error
  deriving DecidableEq

/-- `bank_integrations.config`, of a Monobank integration. -/
structure IntegrationConfig : Type where
  encryptedToken : String
  keyVersion : ℤ
  webhookSecret : String
  webhookUrl : String
  monobankClientId : String
  deriving DecidableEq

/-- `reregister_webhooks` rewrites the webhook keys of a config, and keeps the others. -/
def IntegrationConfig.reregister (config : IntegrationConfig) (secret url : String) :
    IntegrationConfig :=
  { config with webhookSecret := secret, webhookUrl := url }

/-- A row of `bank_integrations`; the bank is always Monobank. -/
structure Integration : Type where
  id : UUID
  userId : UUID
  config : IntegrationConfig
  status : IntegrationStatus
  deriving DecidableEq

namespace Integration

/-- What `idx_bank_integrations_user_monobank_client_id` covers. -/
def slot (r : Integration) : UUID × String := (r.userId, r.config.monobankClientId)

/-- What `idx_bank_integrations_webhook_secret` covers. -/
def secret (r : Integration) : String := r.config.webhookSecret

end Integration

/-- `bank_integrations`, with its primary key and its two unique indexes. -/
structure IntegrationTable extends KeyedTable Integration.id where
  slots : (rows.map Integration.slot).Nodup
  secrets : (rows.map Integration.secret).Nodup

namespace IntegrationTable

instance : Membership Integration IntegrationTable := ⟨fun t r => r ∈ t.rows⟩

variable {t : IntegrationTable} {r r' : Integration}

theorem eq_of_id_eq (hr : r ∈ t) (hr' : r' ∈ t) (h : r.id = r'.id) : r = r' :=
  List.inj_on_of_nodup_map t.nodup hr hr' h

theorem eq_of_slot_eq (hr : r ∈ t) (hr' : r' ∈ t) (hu : r.userId = r'.userId)
    (hc : r.config.monobankClientId = r'.config.monobankClientId) : r = r' :=
  List.inj_on_of_nodup_map t.slots hr hr' (Prod.ext hu hc)

/-- No integrations, which meets every constraint. -/
def empty : IntegrationTable := ⟨.empty, List.nodup_nil, List.nodup_nil⟩

/-- `DELETE … WHERE p`. A part of the rows meets the constraints as well. -/
def delete (t : IntegrationTable) (p : Integration → Bool) : IntegrationTable where
  toKeyedTable := t.deleteWhere p
  slots := t.slots.sublist (List.filter_sublist.map _)
  secrets := t.secrets.sublist (List.filter_sublist.map _)

theorem mem_delete {p : Integration → Bool} : r ∈ t.delete p ↔ r ∈ t ∧ p r = false :=
  KeyedTable.mem_deleteWhere

/-- `UPDATE … WHERE p`, the assignment leaving the indexed columns alone. -/
def update (t : IntegrationTable) (p : Integration → Bool) (f : Integration → Integration)
    (hid : ∀ r, (f r).id = r.id) (hslot : ∀ r, (f r).slot = r.slot)
    (hsecret : ∀ r, (f r).secret = r.secret) : IntegrationTable where
  toKeyedTable := t.updateWhere p f hid
  slots := (KeyedTable.map_update hslot p t.rows).symm ▸ t.slots
  secrets := (KeyedTable.map_update hsecret p t.rows).symm ▸ t.secrets

theorem mem_update {p : Integration → Bool} {f : Integration → Integration}
    (hid : ∀ r, (f r).id = r.id) (hslot : ∀ r, (f r).slot = r.slot)
    (hsecret : ∀ r, (f r).secret = r.secret) :
    r ∈ t.update p f hid hslot hsecret ↔ ∃ r₀ ∈ t, (if p r₀ then f r₀ else r₀) = r :=
  KeyedTable.mem_updateWhere hid

/-- `UPDATE … SET webhook_secret` of one row, to a secret that no row has. -/
def setWebhook (t : IntegrationTable) (id : UUID) (secret url : String)
    (hnew : secret ∉ t.rows.map Integration.secret) : IntegrationTable where
  toKeyedTable := t.updateWhere (fun r => decide (r.id = id))
    (fun r => { r with config := r.config.reregister secret url }) fun _ => rfl
  slots := by
    have hslot : ∀ r : Integration,
        Integration.slot { r with config := r.config.reregister secret url } = r.slot :=
      fun _ => rfl
    exact (KeyedTable.map_update hslot _ t.rows).symm ▸ t.slots
  secrets := by
    rw [KeyedTable.updateWhere_rows, List.map_map]
    refine List.Nodup.map_on (fun r hr r' hr' heq => ?_) (List.Nodup.of_map _ t.nodup)
    simp only [Function.comp_apply, decide_eq_true_eq] at heq
    by_cases hid : r.id = id
    · by_cases hid' : r'.id = id
      · exact eq_of_id_eq (t := t) hr hr' (hid.trans hid'.symm)
      · rw [if_pos hid, if_neg hid'] at heq
        have hsecret : secret = r'.secret := heq
        exact absurd (List.mem_map_of_mem hr') (hsecret ▸ hnew)
    · by_cases hid' : r'.id = id
      · rw [if_neg hid, if_pos hid'] at heq
        have hsecret : r.secret = secret := heq
        exact absurd (List.mem_map_of_mem hr) (hsecret ▸ hnew)
      · rw [if_neg hid, if_neg hid'] at heq
        exact List.inj_on_of_nodup_map t.secrets hr hr' heq

/-- The row violates a unique constraint: its id, its user and client, or its secret is taken. -/
def Clash (t : IntegrationTable) (r : Integration) : Prop :=
  r.id ∈ t.rows.map Integration.id ∨ r.slot ∈ t.rows.map Integration.slot ∨
    r.secret ∈ t.rows.map Integration.secret

instance : Decidable (t.Clash r) := inferInstanceAs (Decidable (_ ∨ _))

/-- `INSERT`, where the row clashes with none. Otherwise the table stays. -/
def insert (t : IntegrationTable) (r : Integration) : IntegrationTable :=
  if h : t.Clash r then t
  else
    { rows := t.rows ++ [r]
      nodup := KeyedTable.nodup_concat t.nodup fun hr => h (Or.inl hr)
      slots := KeyedTable.nodup_concat t.slots fun hr => h (Or.inr (Or.inl hr))
      secrets := KeyedTable.nodup_concat t.secrets fun hr => h (Or.inr (Or.inr hr)) }

theorem mem_insert (h : ¬ t.Clash r) : r' ∈ t.insert r ↔ r' ∈ t ∨ r' = r := by
  simp only [insert, dif_neg h]
  exact List.mem_append.trans (or_congr Iff.rfl List.mem_singleton)

theorem mem_insert_of_mem (h : r' ∈ t) : r' ∈ t.insert r := by
  by_cases hc : t.Clash r
  · simp only [insert, dif_pos hc]
    exact h
  · exact (mem_insert hc).mpr (Or.inl h)

theorem mem_of_mem_insert (h : r' ∈ t.insert r) : r' ∈ t ∨ r' = r := by
  by_cases hc : t.Clash r
  · simp only [insert, dif_pos hc] at h
    exact Or.inl h
  · exact (mem_insert hc).mp h

end IntegrationTable

/-- A row of `accounts`; `clientId` is `config->>'monobank_client_id'`. -/
structure LinkedAccount : Type where
  id : UUID
  userId : UUID
  integrationId : Option UUID
  source : TransactionSource
  type : String
  currencyCode : String
  maskedPan : Option String
  iban : Option String
  externalId : Option String
  cashbackType : Option String
  clientId : Option String
  deriving DecidableEq

/-- The two tables a link writes. -/
structure LinkDb : Type where
  integrations : IntegrationTable
  accounts : KeyedTable LinkedAccount.id

/-- What a transaction locks: a row, or the place of a user and a client in the unique index, which
an uncommitted row takes. -/
inductive LinkKey : Type where
  | integration (id : UUID)
  | slot (userId : UUID) (clientId : String)
  | account (id : UUID)
  deriving DecidableEq

/-! ## What Monobank answers

The answer of `get_client_info`, as far as the service looks at it. -/

/-- `MonobankAccount`. -/
structure MonobankAccount : Type where
  id : String
  type : String
  currencyCode : ℤ
  cashbackType : Option String
  maskedPan : List String
  iban : String

/-- `MonobankClientInfo`. -/
structure MonobankClientInfo : Type where
  clientId : String
  accounts : List MonobankAccount

/-- A link request: the user, what `get_client_info` answers for the token (`none` where it is
refused), the token as `pgp_sym_encrypt` encrypts it, the random secret and ids, and the settings
of the service. -/
structure LinkCall : Type where
  userId : UUID
  info : Option MonobankClientInfo
  encryptedToken : String
  keyVersion : ℤ
  webhookSecret : String
  webhookBaseUrl : String
  newIntegrationId : UUID
  newAccountId : ℕ → UUID

/-- The URL of a webhook, which ends in the secret that authenticates the calls. -/
def webhookUrl (base secret : String) : String := base ++ "/monobank/webhook/" ++ secret

/-! ## The statements

Each statement says which rows it finds, which it has to lock and what it makes of the tables. -/

/-- `MonobankRepo.get_integration_by_client_id`: an active integration of the user with the
client. -/
def getIntegrationByClientId (db : LinkDb) (userId : UUID) (clientId : String) :
    Option Integration :=
  db.integrations.rows.find? fun r =>
    decide (r.userId = userId ∧ r.status = .active ∧ r.config.monobankClientId = clientId)

/-- `MonobankRepo.get_any_active_integration`: whether the user has linked any client. -/
def getAnyActiveIntegration (db : LinkDb) (userId : UUID) : Option Integration :=
  db.integrations.rows.find? fun r => decide (r.userId = userId ∧ r.status = .active)

/-- What the `INSERT` of `create_integration_idempotent` has to wait for: the index entry of the
user and the client, unless a committed row has it. PostgreSQL's `ON CONFLICT` would also wait for a
transaction that is about to delete or update that row; here it takes the row as it is committed. -/
def freeSlot (userId : UUID) (clientId : String) (db : LinkDb) : List LinkKey :=
  if (userId, clientId) ∈ db.integrations.rows.map Integration.slot then []
  else [.slot userId clientId]

/-- The rows `WHERE id = $1` finds in `bank_integrations`. -/
def integrationKeys (id : UUID) (db : LinkDb) : List LinkKey :=
  (db.integrations.rows.filter fun r => decide (r.id = id)).map fun r => .integration r.id

/-- The rows `WHERE id = $1` finds in `accounts`. -/
def accountKeys (id : UUID) (db : LinkDb) : List LinkKey :=
  (db.accounts.rows.filter fun a => decide (a.id = id)).map fun a => .account a.id

/-- The accounts of an integration. -/
def boundKeys (id : UUID) (db : LinkDb) : List LinkKey :=
  (db.accounts.rows.filter fun a => decide (a.integrationId = some id)).map fun a => .account a.id

/-- The `INSERT` of an integration. -/
def insertIntegration (r : Integration) (db : LinkDb) : LinkDb :=
  { db with integrations := db.integrations.insert r }

/-- The token keys that `update_integration_token` merges into a config. -/
def IntegrationConfig.rotate (config : IntegrationConfig) (encryptedToken : String)
    (keyVersion : ℤ) : IntegrationConfig :=
  { config with encryptedToken := encryptedToken, keyVersion := keyVersion }

/-- `MonobankRepo.update_integration_token`, of the rows that were locked. -/
def updateIntegrationToken (held : List LinkKey) (encryptedToken : String) (keyVersion : ℤ)
    (db : LinkDb) : LinkDb :=
  { db with
    integrations := db.integrations.update (fun r => decide (.integration r.id ∈ held))
      (fun r => { r with config := r.config.rotate encryptedToken keyVersion })
      (fun _ => rfl) (fun _ => rfl) (fun _ => rfl) }

theorem mem_updateIntegrationToken {held : List LinkKey} {encryptedToken : String}
    {keyVersion : ℤ} {db : LinkDb} {r : Integration} :
    r ∈ (updateIntegrationToken held encryptedToken keyVersion db).integrations ↔
      ∃ r₀ ∈ db.integrations, (if LinkKey.integration r₀.id ∈ held then
        { r₀ with config := r₀.config.rotate encryptedToken keyVersion } else r₀) = r := by
  refine (IntegrationTable.mem_update
    (f := fun r => { r with config := r.config.rotate encryptedToken keyVersion })
    (fun _ => rfl) (fun _ => rfl) fun _ => rfl).trans ?_
  simp only [decide_eq_true_eq]

/-- The deletion of the integrations that were locked. -/
def deleteIntegrations (held : List LinkKey) (db : LinkDb) : LinkDb :=
  { db with integrations := db.integrations.delete fun r => decide (.integration r.id ∈ held) }

/-- The integration of the accounts that were locked. -/
def bindAccounts (held : List LinkKey) (integrationId : Option UUID) (db : LinkDb) : LinkDb :=
  { db with
    accounts := db.accounts.updateWhere (fun a => decide (.account a.id ∈ held))
      (fun a => { a with integrationId := integrationId }) fun _ => rfl }

/-- `set_account_monobank_client_id`, of the accounts that were locked. -/
def tagAccounts (held : List LinkKey) (clientId : String) (db : LinkDb) : LinkDb :=
  { db with
    accounts := db.accounts.updateWhere (fun a => decide (.account a.id ∈ held))
      (fun a => { a with clientId := some clientId }) fun _ => rfl }

/-- The `INSERT` of an account. -/
def insertAccount (a : LinkedAccount) (db : LinkDb) : LinkDb :=
  { db with accounts := db.accounts.insertIgnore a }

/-- `MonobankRepo.find_orphan_accounts_for_rebind`. -/
def findOrphanAccounts (db : LinkDb) (userId : UUID) (clientId : String)
    (externalIds : List String) : List LinkedAccount :=
  db.accounts.rows.filter fun a =>
    decide (a.userId = userId ∧ a.source = .monobank ∧ a.clientId = some clientId ∧
      a.integrationId = none ∧ ∃ x ∈ externalIds, a.externalId = some x)

/-- `orphan_by_external_id.get`: of two accounts with one external id, the later. -/
def orphanByExternalId (orphans : List LinkedAccount) (externalId : String) :
    Option LinkedAccount :=
  orphans.reverse.find? fun a => decide (a.externalId = some externalId)

/-! ## The requests -/

section Link

variable (numericToAlpha : ℤ → Option String) (call : LinkCall) (info : MonobankClientInfo)

/-- The row of a new integration. -/
def newIntegration : Integration where
  id := call.newIntegrationId
  userId := call.userId
  config :=
    { encryptedToken := call.encryptedToken
      keyVersion := call.keyVersion
      webhookSecret := call.webhookSecret
      webhookUrl := webhookUrl call.webhookBaseUrl call.webhookSecret
      monobankClientId := info.clientId }
  status := .active

/-- The row of the `n`-th account, as `AccountRepo.create_account` inserts it. -/
def newAccount (integrationId : Option UUID) (n : ℕ) (account : MonobankAccount)
    (currencyCode : String) : LinkedAccount where
  id := call.newAccountId n
  userId := call.userId
  integrationId := integrationId
  source := .monobank
  type := account.type
  currencyCode := currencyCode
  maskedPan := account.maskedPan.head?
  iban := some account.iban
  externalId := some account.id
  cashbackType := account.cashbackType
  clientId := none

/-- The accounts from the `n`-th on. At the end the response is built: an integration without an id
does not fit it. -/
def accountsTx (integrationId : Option UUID) (orphans : List LinkedAccount) :
    ℕ → List MonobankAccount → Program LinkDb LinkKey
  | _, [] => if integrationId = none then .rollback else .commit
  | n, account :: rest =>
    match numericToAlpha account.currencyCode with
    | none => .rollback
    | some currencyCode =>
      match orphanByExternalId orphans account.id with
      | some orphan =>
        .lock false (accountKeys orphan.id) fun held _ =>
          .write (bindAccounts held integrationId)
            (accountsTx integrationId orphans (n + 1) rest)
      | none =>
        .read fun db =>
          if db.accounts.HasKey (call.newAccountId n) then .rollback
          else
            .write (insertAccount (newAccount call integrationId n account currencyCode))
              (.lock false (accountKeys (call.newAccountId n)) fun held _ =>
                .write (tagAccounts held info.clientId)
                  (accountsTx integrationId orphans (n + 1) rest))

/-- The accounts refer to an integration that is gone, which their foreign key refuses. Without an
account nothing refers to it. -/
def Dangling (db : LinkDb) (integrationId : Option UUID) : Prop :=
  info.accounts ≠ [] ∧
    ∃ id, integrationId = some id ∧ id ∉ db.integrations.rows.map Integration.id

instance (db : LinkDb) (integrationId : Option UUID) :
    Decidable (Dangling info db integrationId) :=
  inferInstanceAs (Decidable (_ ∧ _))

/-- The second savepoint of `link`: the orphans, then the accounts. -/
def bindTx (integrationId : Option UUID) : Program LinkDb LinkKey :=
  .read fun db =>
    if Dangling info db integrationId then .rollback
    else
      accountsTx numericToAlpha call info integrationId
        (findOrphanAccounts db call.userId info.clientId (info.accounts.map MonobankAccount.id))
        0 info.accounts

/-- `_rotate_existing_integration`. -/
def rotateIntegrationTx (existing : Integration) : Program LinkDb LinkKey :=
  .lock false (integrationKeys existing.id) fun held _ =>
    .write (updateIntegrationToken held call.encryptedToken call.keyVersion)
      (.read fun _ => .commit)

/-- The `INSERT` found the user and the client taken: `existing_id`, and the second lookup. -/
def conflictTx : Program LinkDb LinkKey :=
  .read fun db =>
    let existingId := (getIntegrationByClientId db call.userId info.clientId).map Integration.id
    .read fun db' =>
      match getIntegrationByClientId db' call.userId info.clientId with
      | some existing => rotateIntegrationTx call existing
      | none => bindTx numericToAlpha call info existingId

/-- `create_integration_idempotent`, and what follows. `DO NOTHING` returns no row where another row
has the user and the client by the time the index entry is free; a clash of the other unique columns
is an error. -/
def createIntegrationTx : Program LinkDb LinkKey :=
  .lock false (freeSlot call.userId info.clientId) fun held _ =>
    if held = [] then conflictTx numericToAlpha call info
    else
      .read fun db =>
        if db.integrations.Clash (newIntegration call info) then .rollback
        else
          .write (insertIntegration (newIntegration call info))
            (bindTx numericToAlpha call info (some call.newIntegrationId))

/-- Step 3b: another client of the user is linked. -/
def checkOtherClient : Option Integration → Program LinkDb LinkKey
  | some _ => .rollback
  | none => createIntegrationTx numericToAlpha call info

/-- Step 3a: the client is linked. -/
def checkSameClient : Option Integration → Program LinkDb LinkKey
  | some existing => rotateIntegrationTx call existing
  | none => .read fun db =>
      checkOtherClient numericToAlpha call info (getAnyActiveIntegration db call.userId)

/-- `MonobankLinkingService.link` in the transaction of its request; an exception rolls it back. The
calls of Monobank do not touch the database. -/
def linkTx : Program LinkDb LinkKey :=
  match call.info with
  | none => .rollback
  | some info => .read fun db =>
      checkSameClient numericToAlpha call info
        (getIntegrationByClientId db call.userId info.clientId)

end Link

/-- `MonobankRepo.decrypt_token` under the row level security of the user: an active integration of
the user. -/
def decryptToken (db : LinkDb) (userId id : UUID) : Option Integration :=
  db.integrations.rows.find? fun r =>
    decide (r.id = id ∧ r.status = .active ∧ r.userId = userId)

/-- `MonobankLinkingService.unlink` in the transaction of its request, and the `ON DELETE SET NULL`
of the accounts. -/
def unlinkTx (userId id : UUID) : Program LinkDb LinkKey :=
  .read fun db =>
    match decryptToken db userId id with
    | none => .rollback
    | some _ =>
      .lock false (integrationKeys id) fun held _ =>
        if held = [] then .rollback
        else
          .write (deleteIntegrations held)
            (.lock false (boundKeys id) fun bound _ => .write (bindAccounts bound none) .commit)

/-- The turn of one integration in `reregister_webhooks`, nobody interfering: `list_active` has
returned it, and `update_config` fits the unique index over the secrets. -/
def reregisterOne (db : LinkDb) (id : UUID) (secret url : String) : Option LinkDb :=
  if h : secret ∉ db.integrations.rows.map Integration.secret ∧
      ∃ r ∈ db.integrations.rows, r.id = id ∧ r.status = .active then
    some { db with integrations := db.integrations.setWebhook id secret url h.1 }
  else none

/-- `MonobankRepo.mark_integration_error`. -/
def markIntegrationError (db : LinkDb) (id : UUID) : LinkDb :=
  { db with
    integrations := db.integrations.update (fun r => decide (r.id = id))
      (fun r => { r with status := .error }) (fun _ => rfl) (fun _ => rfl) (fun _ => rfl) }

/-! ## One call after another

Without anybody interfering: each call finds the tables as the last one has left them. -/

/-- A call of the service that succeeds, the turn of an integration in `reregister_webhooks`, or the
mark of a token that was refused. -/
inductive LinkStep : Type where
  | link (call : LinkCall)
  | unlink (userId id : UUID)
  | reregister (id : UUID) (secret url : String)
  | markError (id : UUID)

/-- What the calls make of the tables; `none` where the call does not succeed. -/
def linkStep (numericToAlpha : ℤ → Option String) (db : LinkDb) : LinkStep → Option LinkDb
  | .link call => (linkTx numericToAlpha call).result db
  | .unlink userId id => (unlinkTx userId id).result db
  | .reregister id secret url => reregisterOne db id secret url
  | .markError id => some (markIntegrationError db id)

/-- Nobody has linked a client yet; there may be manual accounts. -/
def LinkDb.start (accounts : KeyedTable LinkedAccount.id) : LinkDb := ⟨.empty, accounts⟩

/-! ## Linking again after an error

A mark of error takes the integration out of every look-up of a link, but not out of the unique
index. A link of the same client falls between the two. -/

section Error

variable {numericToAlpha : ℤ → Option String} {db db' : LinkDb} {call : LinkCall}
  {info : MonobankClientInfo} {r existing : Integration} {userId : UUID} {clientId : String}

theorem getIntegrationByClientId_eq_some
    (h : getIntegrationByClientId db userId clientId = some r) :
    r ∈ db.integrations ∧ r.userId = userId ∧ r.status = .active ∧
      r.config.monobankClientId = clientId :=
  ⟨List.mem_of_find?_eq_some h, by simpa using List.find?_some h⟩

/-- The lookup looks at active rows only, and the row in error is the only one of the user and the
client. -/
theorem getIntegrationByClientId_of_error (hr : r ∈ db.integrations)
    (herror : r.status = .error) :
    getIntegrationByClientId db r.userId r.config.monobankClientId = none := by
  rcases h : getIntegrationByClientId db r.userId r.config.monobankClientId with _ | r'
  · rfl
  obtain ⟨hr', hu, hactive, hc⟩ := getIntegrationByClientId_eq_some h
  obtain rfl := IntegrationTable.eq_of_slot_eq hr' hr hu hc
  rw [herror] at hactive
  cases hactive

/-- The unique index looks at every row, so a row in error takes the place as an active one does. -/
theorem freeSlot_of_mem (hr : r ∈ db.integrations) :
    freeSlot r.userId r.config.monobankClientId db = [] :=
  if_pos (List.mem_map_of_mem hr)

/-- No response has an integration without an id, so the loop over the accounts ends with an
error. -/
theorem accountsTx_none_result (orphans : List LinkedAccount) (rest : List MonobankAccount) :
    ∀ (n : ℕ) (db : LinkDb),
      (accountsTx numericToAlpha call info none orphans n rest).result db = none := by
  induction rest with
  | nil => exact fun _ _ => rfl
  | cons account rest ih =>
    intro n db
    simp only [accountsTx]
    split
    · rfl
    split
    · exact ih _ _
    · simp only [Program.result]
      split
      · rfl
      · exact ih _ _

theorem bindTx_none_result :
    (bindTx numericToAlpha call info none).result db = none := by
  simp only [bindTx, Program.result]
  split
  · rfl
  · exact accountsTx_none_result _ _ _ _

/-- **A client whose integration is in error cannot be linked again**: the lookups do not see the
row, the `INSERT` runs into it, and the request ends with an error. -/
theorem link_of_error (hr : r ∈ db.integrations) (hu : r.userId = call.userId)
    (hc : r.config.monobankClientId = info.clientId) (herror : r.status = .error)
    (hinfo : call.info = some info) : (linkTx numericToAlpha call).result db = none := by
  have hnone : getIntegrationByClientId db call.userId info.clientId = none := by
    rw [← hu, ← hc]
    exact getIntegrationByClientId_of_error hr herror
  have hslot : freeSlot call.userId info.clientId db = [] := by
    rw [← hu, ← hc]
    exact freeSlot_of_mem hr
  simp only [linkTx, hinfo, Program.result, hnone, checkSameClient]
  rcases getAnyActiveIntegration db call.userId with _ | other
  · simp only [checkOtherClient, createIntegrationTx, Program.result, hslot, Bool.false_eq_true,
      if_false, if_true, conflictTx, hnone, Option.map_none]
    exact bindTx_none_result
  · rfl

end Error

/-- The link goes through, and leaves an active integration of the user and the client that holds
the new token and to which the client's accounts are bound. -/
def Recovers (numericToAlpha : ℤ → Option String) (db : LinkDb) (call : LinkCall)
    (info : MonobankClientInfo) : Prop :=
  ∃ db', (linkTx numericToAlpha call).result db = some db' ∧
    ∃ r ∈ db'.integrations, r.userId = call.userId ∧
      r.config.monobankClientId = info.clientId ∧ r.status = .active ∧
      r.config.encryptedToken = call.encryptedToken ∧
      ∀ account ∈ info.accounts, ∃ a ∈ db'.accounts, a.userId = call.userId ∧
        a.source = .monobank ∧ a.externalId = some account.id ∧ a.integrationId = some r.id

/-- **Relinking never recovers**: whatever the tables are, a link by the client of an integration
that is in error does not go through, though Monobank accepts the token. -/
theorem relink_never_recovers (numericToAlpha : ℤ → Option String) (db : LinkDb) (call : LinkCall)
    (info : MonobankClientInfo) (hinfo : call.info = some info)
    (herror : ∃ r ∈ db.integrations, r.userId = call.userId ∧
      r.config.monobankClientId = info.clientId ∧ r.status = .error) :
    ¬ Recovers numericToAlpha db call info := by
  rintro ⟨db', hlink, -⟩
  obtain ⟨r, hr, hu, hc, hstatus⟩ := herror
  rw [link_of_error hr hu hc hstatus hinfo] at hlink
  cases hlink

/-- A client with one card. -/
def sampleClient : MonobankClientInfo := ⟨"c", [⟨"card", "black", 980, none, [], "UA1"⟩]⟩

/-- User 1 links the client, with what is random numbered by `n`. -/
def sampleLink (n : ℕ) : LinkCall where
  userId := 1
  info := some sampleClient
  encryptedToken := "token" ++ toString n
  keyVersion := 1
  webhookSecret := "secret" ++ toString n
  webhookBaseUrl := "https://grosh"
  newIntegrationId := n
  newAccountId := fun k => 10 * n + k

/-- Linked, then refused by Monobank at some later call. -/
def sampleError : List LinkStep := [.link (sampleLink 2), .markError 2]

/-- The tables then: one integration, in error. -/
theorem sampleError_reached :
    ∃ db, exec (linkStep fun _ => some "UAH") (LinkDb.start .empty) sampleError = some db ∧
      ∃ r ∈ db.integrations, r.userId = 1 ∧ r.config.monobankClientId = "c" ∧
        r.status = .error := by
  have hrun : ((exec (linkStep fun _ => some "UAH") (LinkDb.start .empty) sampleError).map
      fun db => db.integrations.rows.any fun r =>
        decide (r.userId = 1 ∧ r.config.monobankClientId = "c" ∧ r.status = .error)) =
      some true := by
    decide +kernel
  obtain ⟨db, he, h⟩ := Option.map_eq_some_iff.mp hrun
  obtain ⟨r, hr, h⟩ := List.any_eq_true.mp h
  exact ⟨db, he, r, hr, of_decide_eq_true h⟩

/-- The next link of the client, from there. -/
theorem relink_never_recovers_sampleError :
    ∃ db, exec (linkStep fun _ => some "UAH") (LinkDb.start .empty) sampleError = some db ∧
      ¬ Recovers (fun _ => some "UAH") db (sampleLink 3) sampleClient := by
  obtain ⟨db, he, herror⟩ := sampleError_reached
  exact ⟨db, he, relink_never_recovers _ db (sampleLink 3) sampleClient rfl herror⟩

/-- A user whose token was revoked at Monobank cannot link the client with a new one. -/
theorem relink_fails :
    ∃ db, exec (linkStep fun _ => some "UAH") (LinkDb.start .empty) sampleError = some db ∧
      (∃ r ∈ db.integrations, r.userId = 1 ∧ r.config.monobankClientId = "c" ∧
        r.status = .error) ∧
      (linkTx (fun _ => some "UAH") (sampleLink 3)).result db = none ∧
      ¬ Recovers (fun _ => some "UAH") db (sampleLink 3) sampleClient := by
  obtain ⟨db, he, herror⟩ := sampleError_reached
  obtain ⟨r, hr, hu, hc, hstatus⟩ := herror
  have hlink : (linkTx (fun _ => some "UAH") (sampleLink 3)).result db = none :=
    link_of_error hr hu hc hstatus rfl
  refine ⟨db, he, ⟨r, hr, hu, hc, hstatus⟩, hlink, ?_⟩
  rintro ⟨db', h, -⟩
  rw [hlink] at h
  cases h

end Grosh
