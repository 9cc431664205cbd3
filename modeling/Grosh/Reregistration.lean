import Grosh.WebhookRotation

/-!
# Registering the webhooks again

`reregister_webhooks` goes through the active integrations: it decrypts the token, writes a new
secret and URL into the config, and registers the URL at Monobank. A call of Monobank that fails is
noted in the result, and the next integration follows. A token that does not decrypt is meant to be
noted as well, but `pgp_sym_decrypt` raises instead of returning `NULL`, and nothing catches it.

* `goesThrough_of_decrypts` — as long as no decryption raises, every failure stays with its
  integration;
* `isolatesFailures_iff` — failures are isolated exactly if no decryption raises.
-/

namespace Grosh

/-! ## The job

The loop goes through the rows of one query, and handles each in statements of its own. What it
raises itself ends the loop; what Monobank refuses becomes a result. -/

/-- A row of `list_active`: the bank of the integration, and the integration. -/
structure ActiveRow : Type where
  bank : String
  integration : Integration

/-- `row["bank"] == BankSource.monobank`: the rows of other banks are passed over. -/
def ActiveRow.isMonobank (row : ActiveRow) : Bool := decide (row.bank = "monobank")

/-- What `reregister_webhooks` can raise. The loop catches neither. -/
inductive ReregisterError : Type where
  /-- `pgp_sym_decrypt`: a wrong key, or corrupt data -/
  | decryption
  /-- a secret that another integration has -/
  | uniqueViolation
  deriving DecidableEq

/-- The status of a result: registered, written but refused by Monobank, or not tried for lack of a
token. -/
inductive ReregisterStatus : Type where
  | ok
  | webhookFailed
  | error
  deriving DecidableEq

/-- An entry of the results: the integration, what has become of it, and why. -/
structure ReregisterResult : Type where
  integrationId : UUID
  status : ReregisterStatus
  detail : Option String
  webhookUrl : Option String
  deriving DecidableEq

/-- What a run meets: the answers of `decrypt_token_value` under its key, `none` for a `NULL`, the
random secrets, the setting of the job, and the integrations whose call of Monobank succeeds. -/
structure ReregisterEnv : Type where
  decryptTokenValue : String → Except ReregisterError (Option String)
  newSecret : UUID → String
  webhookBaseUrl : String
  accepts : UUID → Bool

/-- The tables, and the calls of `set_webhook` that Monobank has accepted in this run of the job,
each a token and a URL, the last one first. It is a record of the calls: which URL is registered in
the end is for the last call of a token to say. -/
structure ReregisterState : Type where
  db : LinkDb
  registered : List (String × String)

namespace ReregisterEnv

/-- The URL of the new secret, under the base of the setting. -/
def newUrl (env : ReregisterEnv) (id : UUID) : String :=
  webhookUrl env.webhookBaseUrl (env.newSecret id)

/-- `new_config`: a new secret and its URL, the token and the client as they were. -/
def newConfig (env : ReregisterEnv) (r : Integration) : IntegrationConfig :=
  r.config.reregister (env.newSecret r.id) (env.newUrl r.id)

end ReregisterEnv

/-- The body of the loop of `reregister_webhooks`. Every statement is its own transaction. -/
def reregisterWebhook (env : ReregisterEnv) (r : Integration) (s : ReregisterState) :
    Except ReregisterError ReregisterResult × ReregisterState :=
  match env.decryptTokenValue r.config.encryptedToken with
  | .error e => (.error e, s)
  | .ok none => (.ok ⟨r.id, .error, some "token decryption failed", none⟩, s)
  | .ok (some token) =>
    match updateConfig s.db r.id (env.newConfig r) with
    | none => (.error .uniqueViolation, s)
    | some db =>
      if env.accepts r.id then
        (.ok ⟨r.id, .ok, none, some (env.newUrl r.id)⟩,
          ⟨db, (token, env.newUrl r.id) :: s.registered⟩)
      else (.ok ⟨r.id, .webhookFailed, none, some (env.newUrl r.id)⟩, { s with db := db })

/-- `MonobankLinkingService.reregister_webhooks`, over the rows of `list_active`. -/
def reregisterWebhooks (env : ReregisterEnv) :
    List ActiveRow → ReregisterState →
      Except ReregisterError (List ReregisterResult) × ReregisterState
  | [], s => (.ok [], s)
  | row :: rows, s =>
    if row.isMonobank then
      match reregisterWebhook env row.integration s with
      | (.error e, s) => (.error e, s)
      | (.ok result, s) =>
        ((reregisterWebhooks env rows s).1.map (result :: ·), (reregisterWebhooks env rows s).2)
    else reregisterWebhooks env rows s

/-! ## What is expected

A failure should stay with its integration. Which ones fail is known beforehand, from the decryption
and from Monobank. -/

variable {env : ReregisterEnv} {rows : List ActiveRow} {rs : List Integration}
  {s s' : ReregisterState} {r : Integration} {db : LinkDb}

/-- The Monobank integrations of the rows, in their order. -/
def monobankIntegrations (rows : List ActiveRow) : List Integration :=
  (rows.filter ActiveRow.isMonobank).map ActiveRow.integration

/-- `IntegrationRepo.list_active`; the enumeration of the banks has one value. -/
def listActiveRows (db : LinkDb) : List ActiveRow :=
  (db.integrations.rows.filter fun r => decide (r.status = .active)).map fun r => ⟨"monobank", r⟩

/-- The integrations are those of the table, each once: a query without duplicates. -/
structure Lists (db : LinkDb) (rs : List Integration) : Prop where
  stored : ∀ r ∈ rs, r ∈ db.integrations
  nodup : (rs.map Integration.id).Nodup

/-- The random secrets differ from each other and from those that are stored, as they do with all
likelihood. -/
structure FreshSecrets (env : ReregisterEnv) (db : LinkDb) : Prop where
  fresh : ∀ id, env.newSecret id ∉ db.integrations.rows.map Integration.secret
  injective : Function.Injective env.newSecret

/-- The status an integration should have, whatever becomes of the others. -/
def ReregisterEnv.expectedStatus (env : ReregisterEnv) (r : Integration) : ReregisterStatus :=
  match env.decryptTokenValue r.config.encryptedToken with
  | .ok (some _) => if env.accepts r.id then .ok else .webhookFailed
  | _ => .error

/-- The integration has a new secret and its URL, and Monobank has accepted the URL for its
token. -/
def Reregistered (env : ReregisterEnv) (r : Integration) (s s' : ReregisterState) : Prop :=
  ∃ config token, s'.db.config r.id = some config ∧
    config.webhookSecret ∉ s.db.integrations.rows.map Integration.secret ∧
    config.webhookUrl = webhookUrl env.webhookBaseUrl config.webhookSecret ∧
    env.decryptTokenValue config.encryptedToken = .ok (some token) ∧
    (token, config.webhookUrl) ∈ s'.registered

/-- **Failures are isolated**: there is one result for each Monobank integration, with its status,
and those that do not fail are registered again. -/
def IsolatesFailures (env : ReregisterEnv) (rows : List ActiveRow) (s : ReregisterState) : Prop :=
  ∃ results s', reregisterWebhooks env rows s = (.ok results, s') ∧
    results.map (fun result => (result.integrationId, result.status)) =
      (monobankIntegrations rows).map (fun r => (r.id, env.expectedStatus r)) ∧
    ∀ r ∈ monobankIntegrations rows, env.expectedStatus r = .ok → Reregistered env r s s'

/-- No decryption raises. One that answers nothing is a failure of its own kind. -/
def Decrypts (env : ReregisterEnv) (rs : List Integration) : Prop :=
  ∀ r ∈ rs, ∀ e, env.decryptTokenValue r.config.encryptedToken ≠ .error e

/-- The query lists what is stored, each active integration once. -/
theorem lists_listActiveRows (db : LinkDb) :
    Lists db (monobankIntegrations (listActiveRows db)) := by
  have heq : monobankIntegrations (listActiveRows db) =
      db.integrations.rows.filter fun r => decide (r.status = .active) := by
    rw [monobankIntegrations, listActiveRows, List.filter_map, List.map_map]
    have hall : ∀ r : Integration,
        (ActiveRow.isMonobank ∘ fun r => (⟨"monobank", r⟩ : ActiveRow)) r = true := fun _ => rfl
    rw [List.filter_eq_self.mpr fun r _ => hall r]
    exact List.map_id _
  rw [heq]
  exact ⟨fun r hr => (List.mem_filter.mp hr).1,
    db.integrations.nodup.sublist (List.filter_sublist.map _)⟩

/-! ## One integration

The body of the loop on one row: it writes the config first and calls Monobank then. -/

/-- A new secret clashes with nothing, so that the update goes through. -/
theorem updateConfig_reregister {secret url : String} (hr : r ∈ db.integrations)
    (hnew : secret ∉ db.integrations.rows.map Integration.secret) :
    updateConfig db r.id (r.config.reregister secret url) =
      some { db with integrations := db.integrations.setWebhook r.id secret url hnew } := by
  have htable : db.integrations.toKeyedTable.updateWhere (fun r' => decide (r'.id = r.id))
      (fun r' => { r' with config := r.config.reregister secret url }) (fun _ => rfl) =
        (db.integrations.setWebhook r.id secret url hnew).toKeyedTable := by
    refine KeyedTable.ext (List.map_congr_left fun r' hr' => ?_)
    by_cases hid : r'.id = r.id
    · rw [IntegrationTable.eq_of_id_eq hr' hr hid]
    · simp [hid]
  rw [updateConfig, IntegrationTable.setConfig]
  simp only [htable]
  rw [dif_pos ⟨IntegrationTable.slots _, IntegrationTable.secrets _⟩]
  rfl

theorem mem_setWebhook {t : IntegrationTable} {r' : Integration} {secret url : String}
    (hnew : secret ∉ t.rows.map Integration.secret) (hr : r ∈ t) :
    r' ∈ t.setWebhook r.id secret url hnew ↔
      r' = { r with config := r.config.reregister secret url } ∨ r' ∈ t ∧ r'.id ≠ r.id :=
  KeyedTable.mem_updateWhere_key
    (f := fun r => { r with config := r.config.reregister secret url }) (fun _ => rfl) hr

/-- What is left to do is stored as it was listed, and its secrets are new. -/
structure Remaining (env : ReregisterEnv) (db : LinkDb) (rs : List Integration) : Prop where
  lists : Lists db rs
  fresh : ∀ r ∈ rs, env.newSecret r.id ∉ db.integrations.rows.map Integration.secret

theorem Remaining.tail (h : Remaining env db (r :: rs)) : Remaining env db rs :=
  ⟨⟨fun q hq => h.lists.stored q (List.mem_cons_of_mem _ hq),
      (List.nodup_cons.mp h.lists.nodup).2⟩, fun q hq => h.fresh q (List.mem_cons_of_mem _ hq)⟩

theorem Remaining.ne_of_mem (h : Remaining env db (r :: rs)) {q : Integration} (hq : q ∈ rs) :
    q.id ≠ r.id :=
  fun heq => (List.nodup_cons.mp h.lists.nodup).1 (heq ▸ List.mem_map_of_mem hq)

/-- The config of the first integration is written; the others do not notice, and their secrets are
still new. -/
theorem Remaining.update (h : Remaining env db (r :: rs))
    (hinj : Function.Injective env.newSecret) :
    ∃ db', updateConfig db r.id (env.newConfig r) = some db' ∧ Remaining env db' rs ∧
      db'.config r.id = some (env.newConfig r) ∧
      ∀ id, id ≠ r.id → db'.config id = db.config id := by
  have hr := h.lists.stored r (List.mem_cons_self ..)
  have hnew := h.fresh r (List.mem_cons_self ..)
  have hupdate := @updateConfig_reregister _ _ _ (env.newUrl r.id) hr hnew
  have hconfig := config_updateConfig hupdate
  refine ⟨_, hupdate, ⟨⟨fun q hq => ?_, h.tail.lists.nodup⟩, fun q hq hmem => ?_⟩, ?_,
    fun id hid => ?_⟩
  · exact (mem_setWebhook hnew hr).mpr (Or.inr ⟨h.tail.lists.stored q hq, h.ne_of_mem hq⟩)
  · obtain ⟨r', hr', hsecret⟩ := List.mem_map.mp hmem
    rcases (mem_setWebhook hnew hr).mp hr' with rfl | ⟨hr', -⟩
    · exact h.ne_of_mem hq (hinj hsecret.symm)
    · exact h.tail.fresh q hq (List.mem_map.mpr ⟨r', hr', hsecret⟩)
  · rw [hconfig, config_of_mem hr, Option.map_some, if_pos rfl]
    rfl
  · rw [hconfig]
    rcases db.config id with _ | c
    · rfl
    · rw [Option.map_some, if_neg hid]

/-- What is done for an integration that did not fail: it stays done, as no later row touches it. -/
def Done (env : ReregisterEnv) (r : Integration) (s : ReregisterState) : Prop :=
  s.db.config r.id = some (env.newConfig r) ∧
    ∃ token, env.decryptTokenValue r.config.encryptedToken = .ok (some token) ∧
      (token, env.newUrl r.id) ∈ s.registered

/-- **One integration** gets its status, and its failure stays with it. -/
theorem reregisterWebhook_of_decrypts (h : Remaining env s.db (r :: rs))
    (hinj : Function.Injective env.newSecret)
    (hdecrypts : ∀ e, env.decryptTokenValue r.config.encryptedToken ≠ .error e) :
    ∃ result s₁, reregisterWebhook env r s = (.ok result, s₁) ∧
      (result.integrationId, result.status) = (r.id, env.expectedStatus r) ∧
      Remaining env s₁.db rs ∧ (env.expectedStatus r = .ok → Done env r s₁) ∧
      (∀ id, id ≠ r.id → s₁.db.config id = s.db.config id) ∧ s.registered ⊆ s₁.registered := by
  rcases htoken : env.decryptTokenValue r.config.encryptedToken with e | _ | token
  · exact absurd htoken (hdecrypts e)
  · simp only [reregisterWebhook, ReregisterEnv.expectedStatus, htoken]
    exact ⟨_, s, rfl, rfl, h.tail, nofun, fun _ _ => rfl, List.Subset.refl _⟩
  · obtain ⟨db, hupdate, hrest, hconfig, hothers⟩ := h.update hinj
    simp only [reregisterWebhook, ReregisterEnv.expectedStatus, htoken, hupdate]
    rcases haccepts : env.accepts r.id with _ | _
    · simp only [Bool.false_eq_true, if_false]
      exact ⟨_, _, rfl, rfl, hrest, nofun, hothers, List.Subset.refl _⟩
    · simp only [if_true]
      exact ⟨_, _, rfl, rfl, hrest, fun _ => ⟨hconfig, token, htoken, List.mem_cons_self ..⟩,
        hothers, List.subset_cons_self ..⟩

/-! ## A run

By induction on the rows: each integration gets what is expected, unless a decryption raises. -/

/-- The rows of another bank change nothing, and have no result. -/
theorem reregisterWebhooks_filter (env : ReregisterEnv) (rows : List ActiveRow)
    (s : ReregisterState) :
    reregisterWebhooks env rows s =
      reregisterWebhooks env (rows.filter ActiveRow.isMonobank) s := by
  induction rows generalizing s with
  | nil => rfl
  | cons row rows ih =>
    rcases hbank : row.isMonobank with _ | _
    · rw [List.filter_cons_of_neg (by simp [hbank]), reregisterWebhooks, hbank, ← ih]
      rfl
    · rw [List.filter_cons_of_pos hbank, reregisterWebhooks, reregisterWebhooks]
      simp only [ih]

/-- What a run does where every failure stays with its integration: a result for each, and the rest
is done. -/
structure GoesThrough (env : ReregisterEnv) (rs : List Integration) (s : ReregisterState)
    (results : List ReregisterResult) (s' : ReregisterState) : Prop where
  statuses : results.map (fun result => (result.integrationId, result.status)) =
    rs.map fun r => (r.id, env.expectedStatus r)
  done : ∀ r ∈ rs, env.expectedStatus r = .ok → Done env r s'
  others : ∀ id, (∀ r ∈ rs, id ≠ r.id) → s'.db.config id = s.db.config id
  kept : s.registered ⊆ s'.registered

/-- **A run in which no decryption raises** goes through, whichever integrations fail. -/
theorem goesThrough_of_decrypts (hinj : Function.Injective env.newSecret)
    (hrows : ∀ row ∈ rows, row.isMonobank = true)
    (h : Remaining env s.db (rows.map ActiveRow.integration))
    (hdecrypts : Decrypts env (rows.map ActiveRow.integration)) :
    ∃ results s', reregisterWebhooks env rows s = (.ok results, s') ∧
      GoesThrough env (rows.map ActiveRow.integration) s results s' := by
  induction rows generalizing s with
  | nil =>
    refine ⟨[], s, rfl, rfl, fun r hr => ?_, fun _ _ => rfl, List.Subset.refl _⟩
    exact absurd hr List.not_mem_nil
  | cons row rows ih =>
    obtain ⟨result, s₁, hone, hstatus, hrest, hdone, hothers, hkept⟩ :=
      reregisterWebhook_of_decrypts h hinj (hdecrypts _ (List.mem_cons_self ..))
    obtain ⟨results, s', hrun, hthrough⟩ :=
      ih (fun q hq => hrows q (List.mem_cons_of_mem _ hq)) hrest
        fun r hr => hdecrypts r (List.mem_cons_of_mem _ hr)
    refine ⟨result :: results, s', ?_, ?_, fun r hr hok => ?_, fun id hid => ?_,
      List.Subset.trans hkept hthrough.kept⟩
    · rw [reregisterWebhooks, hrows row (List.mem_cons_self ..), if_pos rfl, hone]
      simp only [hrun]
      rfl
    · rw [List.map_cons, List.map_cons, List.map_cons, hstatus, hthrough.statuses]
    · rcases List.mem_cons.mp hr with rfl | hr
      · -- the integrations that follow leave its config and its registration
        obtain ⟨hconfig, token, htoken, hmem⟩ := hdone hok
        refine ⟨?_, token, htoken, hthrough.kept hmem⟩
        rw [hthrough.others _ fun q hq => (h.ne_of_mem hq).symm, hconfig]
      · exact hthrough.done r hr hok
    · rw [hthrough.others id fun r hr => hid r (List.mem_cons_of_mem _ hr),
        hothers id (hid _ (List.mem_cons_self ..))]

/-- A decryption that raises ends the run: one that returns has met none. -/
theorem decrypts_of_reregisterWebhooks {results : List ReregisterResult}
    (hrun : reregisterWebhooks env rows s = (.ok results, s')) :
    Decrypts env (monobankIntegrations rows) := by
  induction rows generalizing s results with
  | nil => exact fun r hr => absurd hr List.not_mem_nil
  | cons row rows ih =>
    rw [reregisterWebhooks] at hrun
    rcases hbank : row.isMonobank with _ | _
    · rw [hbank] at hrun
      have heq : monobankIntegrations (row :: rows) = monobankIntegrations rows := by
        rw [monobankIntegrations, List.filter_cons_of_neg (by simp [hbank])]
        rfl
      rw [heq]
      exact ih hrun
    · rw [hbank, if_pos rfl] at hrun
      have heq : monobankIntegrations (row :: rows) =
          row.integration :: monobankIntegrations rows := by
        rw [monobankIntegrations, List.filter_cons_of_pos hbank]
        rfl
      rw [heq]
      rcases hone : reregisterWebhook env row.integration s with ⟨_ | result, s₁⟩
      · rw [hone] at hrun
        cases hrun
      rw [hone] at hrun
      obtain ⟨hrest, hs'⟩ := Prod.mk.inj hrun
      rcases hresults : (reregisterWebhooks env rows s₁).1 with e | results'
      · rw [hresults] at hrest
        cases hrest
      intro r hr
      rcases List.mem_cons.mp hr with rfl | hr
      · intro e hraises
        rw [reregisterWebhook, hraises] at hone
        cases hone
      · exact ih (Prod.ext hresults hs') r hr

/-- **Failures are isolated** exactly if no decryption raises. -/
theorem isolatesFailures_iff (hlists : Lists s.db (monobankIntegrations rows))
    (hfresh : FreshSecrets env s.db) :
    IsolatesFailures env rows s ↔ Decrypts env (monobankIntegrations rows) := by
  refine ⟨?_, fun hdecrypts => ?_⟩
  · rintro ⟨results, s', hrun, -⟩
    exact decrypts_of_reregisterWebhooks hrun
  · have honly : ∀ row ∈ rows.filter ActiveRow.isMonobank, row.isMonobank = true :=
      fun row hrow => (List.mem_filter.mp hrow).2
    obtain ⟨results, s', hrun, hthrough⟩ :=
      goesThrough_of_decrypts hfresh.injective honly ⟨hlists, fun r _ => hfresh.fresh r.id⟩
        hdecrypts
    refine ⟨results, s', (reregisterWebhooks_filter env rows s).trans hrun, hthrough.statuses,
      fun r hr hok => ?_⟩
    obtain ⟨hconfig, token, htoken, hmem⟩ := hthrough.done r hr hok
    exact ⟨env.newConfig r, token, hconfig, hfresh.fresh r.id, rfl, htoken, hmem⟩

/-- A second integration, of another user. -/
def sampleSecond : Integration where
  id := 3
  userId := 4
  config := ⟨"token3", 1, "secret3", "url3", "d"⟩
  status := .active

/-- The two integrations. -/
def sampleTwoIntegrations : LinkDb :=
  ⟨sampleIntegrations.integrations.insert sampleSecond, .empty⟩

/-- Their rows. -/
def sampleActive : List ActiveRow := [⟨"monobank", sampleIntegration⟩, ⟨"monobank", sampleSecond⟩]

/-- A run in which the token of the first integration is corrupt, or none is. -/
def sampleReregister (corrupt : Bool) : ReregisterEnv where
  decryptTokenValue := fun token =>
    if corrupt && decide (token = sampleIntegration.config.encryptedToken) then .error .decryption
    else .ok (some token)
  newSecret := fun id => String.ofList (List.replicate (10 + id) 'x')
  webhookBaseUrl := "https://new.example.com"
  accepts := fun _ => true

theorem sampleLists : Lists sampleTwoIntegrations (monobankIntegrations sampleActive) where
  stored := fun r hr => (show ∀ r ∈ [sampleIntegration, sampleSecond],
    r ∈ sampleTwoIntegrations.integrations.rows by decide) r hr
  nodup := by decide

theorem sampleFresh (corrupt : Bool) :
    FreshSecrets (sampleReregister corrupt) sampleTwoIntegrations where
  fresh := fun id hmem => by
    have hlength : ∀ secret ∈ sampleTwoIntegrations.integrations.rows.map Integration.secret,
        secret.length < 10 := by decide
    have hlt := hlength _ hmem
    rw [sampleReregister, String.length_ofList, List.length_replicate] at hlt
    omega
  injective := fun id id' heq => by
    have hlength := congrArg String.length heq
    simpa [sampleReregister] using hlength

theorem isolatesFailures_iff_sample :
    IsolatesFailures (sampleReregister false) sampleActive ⟨sampleTwoIntegrations, []⟩ ↔
      Decrypts (sampleReregister false) (monobankIntegrations sampleActive) :=
  isolatesFailures_iff (s := ⟨sampleTwoIntegrations, []⟩) sampleLists (sampleFresh false)

/-- A corrupt token of the first integration leaves the second with its old secret. -/
theorem not_isolatesFailures_of_corrupt :
    ¬ IsolatesFailures (sampleReregister true) sampleActive ⟨sampleTwoIntegrations, []⟩ ∧
      (reregisterWebhooks (sampleReregister true) sampleActive
        ⟨sampleTwoIntegrations, []⟩).2.db.config sampleSecond.id = some sampleSecond.config := by
  refine ⟨?_, by decide⟩
  rintro ⟨results, s', hrun, -⟩
  cases hrun

end Grosh
