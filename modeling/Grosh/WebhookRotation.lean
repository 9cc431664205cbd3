import Grosh.Lib.Transition
import Grosh.Linking

/-!
# Rotating a token while webhooks are registered again

A link of a client that is linked already merges the new token into the config of the integration
and registers the stored webhook at Monobank again. `reregister_webhooks` reads the configs of all
integrations, and then, row after row, writes the whole config back with a new secret and calls
Monobank. Nothing keeps the two apart.

A run of the job is no transaction: each of its statements is committed at once, and a row it has
read may be changed before it writes it. A rotation is one, and holds its row until it commits. The
states in between are all states of the system, and the calls of Monobank are steps of their own.

* `WebhookState.step_cases` — what a step does.
* `rotation_kept_iff` — the token of the last rotation is the one that is stored, exactly if every
  config that is written back still has the stored token.
-/

namespace Grosh

open Transition ReadCommitted

/-! ## The parties

A link that rotates is a single transaction, which holds the row of the integration from its
`UPDATE` on. A run of `reregister_webhooks` lists the integrations once, and then writes the configs
it has listed, one statement after another. -/

/-- A link that rotates: its user and client, the token as `pgp_sym_encrypt` encrypts it, and the
settings of the service. -/
structure Rotation : Type where
  userId : UUID
  clientId : String
  encryptedToken : String
  keyVersion : ℤ
  webhookBaseUrl : String

/-- A run of `reregister_webhooks`: the rows that row level security shows its connection, the
tokens `decrypt_token_value` does not answer with `None`, the random secrets, and the setting of
the job. Where the decryption raises, the run ends by a crash. -/
structure Reregistration : Type where
  sees : Integration → Bool
  decrypts : String → Bool
  newSecret : UUID → String
  webhookBaseUrl : String

/-- Who takes part: a link of a client that is linked already, or a run of `reregister_webhooks`. -/
inductive WebhookParty : Type where
  | rotate (q : Rotation)
  | reregister (q : Reregistration)

/-- Where a party is, with the rows it has read. A run carries the configs of its list along until
it writes them. -/
inductive WebhookPhase : Type where
  | start
  /-- a link has looked its integration up -/
  | found (existing : Integration)
  /-- a link has executed its `UPDATE`, and holds the row -/
  | rotated (existing : Integration)
  /-- a link has called Monobank -/
  | called (existing : Integration)
  /-- a run turns to the next of the rows it has listed -/
  | listed (rest : List Integration)
  /-- a run has written the config of a row -/
  | written (r : Integration) (rest : List Integration)
  | ended
  deriving DecidableEq

/-- The rows a party has read and is not done with. -/
def WebhookPhase.rows : WebhookPhase → List Integration
  | .start => []
  | .found existing => [existing]
  | .rotated existing => [existing]
  | .called existing => [existing]
  | .listed rest => rest
  | .written r rest => r :: rest
  | .ended => []

/-- The committed tables, the holders of the row locks, the URL that each client has registered at
Monobank, and the parties. -/
structure WebhookState (τ : Type*) : Type _ where
  db : LinkDb
  holder : UUID → Option τ
  registered : String → Option String
  phase : τ → WebhookPhase

/-- Who moves, and whether Monobank accepts the call, if the step makes one. -/
inductive WebhookLabel (τ : Type*) : Type _ where
  | run (i : τ) (ok : Bool)
  | crash (i : τ)

/-- The party that moves, or dies. -/
def WebhookLabel.who {τ : Type*} : WebhookLabel τ → τ
  | .run i _ => i
  | .crash i => i

/-! ## The statements and the calls

A run writes the whole config back that it has listed, with the webhook keys replaced. The token in
it is the one of the listing. -/

/-- The URL `_try_set_webhook` registers: the one in the config, or one made of its secret where
there is none. -/
def IntegrationConfig.storedUrl (config : IntegrationConfig) (base : String) : String :=
  if config.webhookUrl = "" then Grosh.webhookUrl base config.webhookSecret else config.webhookUrl

/-- `IntegrationRepo.list_active`: the active integrations, as far as the connection sees them. -/
def listActive (q : Reregistration) (db : LinkDb) : List Integration :=
  db.integrations.rows.filter fun r => q.sees r && decide (r.status = .active)

/-- `new_config`: the config that was listed, with a new secret and its URL. -/
def newConfig (q : Reregistration) (r : Integration) : IntegrationConfig :=
  r.config.reregister (q.newSecret r.id) (webhookUrl q.webhookBaseUrl (q.newSecret r.id))

/-- `UPDATE … SET config = $2`; `none` where a unique index refuses it. -/
def IntegrationTable.setConfig (t : IntegrationTable) (id : UUID) (config : IntegrationConfig) :
    Option IntegrationTable :=
  let t' := t.updateWhere (fun r => decide (r.id = id)) (fun r => { r with config := config })
    fun _ => rfl
  if h : (t'.rows.map Integration.slot).Nodup ∧ (t'.rows.map Integration.secret).Nodup then
    some ⟨t', h.1, h.2⟩
  else none

/-- `IntegrationRepo.update_config`: the config of an integration is replaced as a whole. -/
def updateConfig (db : LinkDb) (id : UUID) (config : IntegrationConfig) : Option LinkDb :=
  (db.integrations.setConfig id config).map fun t => { db with integrations := t }

/-- The config that is stored for an integration. -/
def LinkDb.config (db : LinkDb) (id : UUID) : Option IntegrationConfig :=
  (db.integrations.toKeyedTable.find? id).map Integration.config

namespace WebhookState

variable {τ : Type*} [DecidableEq τ]

/-- All parties are about to start, on tables that are committed. -/
def start (db : LinkDb) (registered : String → Option String) : WebhookState τ :=
  ⟨db, fun _ => none, registered, fun _ => .start⟩

/-- A party moves on to another phase, and changes nothing else. -/
def goto (s : WebhookState τ) (i : τ) (phase : WebhookPhase) : WebhookState τ :=
  { s with phase := Function.update s.phase i phase }

/-- `set_webhook`, with the token of a client. A call that Monobank accepts replaces the URL it has
for the client. -/
def call (s : WebhookState τ) (ok : Bool) (clientId url : String) : WebhookState τ :=
  if ok then { s with registered := Function.update s.registered clientId (some url) } else s

/-- A party ends with the tables it leaves: its locks are released. -/
def finish (s : WebhookState τ) (i : τ) (db : LinkDb) : WebhookState τ where
  db := db
  holder := fun k => if s.holder k = some i then none else s.holder k
  registered := s.registered
  phase := Function.update s.phase i .ended

/-- The next step of a party: a statement, or a call of Monobank. A link is one transaction; every
statement of a run is its own. -/
def runStep (p : τ → WebhookParty) (s : WebhookState τ) (i : τ) (ok : Bool) :
    Option (WebhookState τ) :=
  match p i, s.phase i with
  | .rotate q, .start =>
    match getIntegrationByClientId s.db q.userId q.clientId with
    | none => some (s.goto i .ended)
    | some existing => some (s.goto i (.found existing))
  | .rotate _, .found existing =>
    if s.holder existing.id = none then
      some ({ s with holder := Function.update s.holder existing.id (some i) }.goto i
        (.rotated existing))
    else none
  | .rotate q, .rotated existing =>
    some ((s.call ok existing.config.monobankClientId
      (existing.config.storedUrl q.webhookBaseUrl)).goto i (.called existing))
  | .rotate q, .called existing =>
    -- nobody has written the row since the `UPDATE`, which holds it
    some (s.finish i
      (updateIntegrationToken [.integration existing.id] q.encryptedToken q.keyVersion s.db))
  | .reregister q, .start => some (s.goto i (.listed (listActive q s.db)))
  | .reregister _, .listed [] => some (s.goto i .ended)
  | .reregister q, .listed (r :: rest) =>
    if q.decrypts r.config.encryptedToken then
      if s.holder r.id = none then
        (updateConfig s.db r.id (newConfig q r)).map fun db =>
          { s with db := db }.goto i (.written r rest)
      else none
    else some (s.goto i (.listed rest))
  | .reregister q, .written r rest =>
    some ((s.call ok r.config.monobankClientId (newConfig q r).webhookUrl).goto i (.listed rest))
  | _, _ => none

/-- One step of the system. Any party may die at any moment; what it has not committed is gone, and
what Monobank has accepted stays. -/
def step (p : τ → WebhookParty) (s : WebhookState τ) : WebhookLabel τ → Option (WebhookState τ)
  | .run i ok => s.runStep p i ok
  | .crash i => if s.phase i = .ended then none else some (s.finish i s.db)

/-! ## What a step does

One constructor for each statement and each call, with what it requires of the state. -/

/-- What a party can do in its next step. -/
inductive Move (p : τ → WebhookParty) (s : WebhookState τ) (i : τ) (ok : Bool) :
    WebhookState τ → Prop where
  | notLinked (q : Rotation) (hp : p i = .rotate q) (h : s.phase i = .start) :
      Move p s i ok (s.goto i .ended)
  | find (q : Rotation) (existing : Integration) (hp : p i = .rotate q)
      (h : s.phase i = .start)
      (hfind : getIntegrationByClientId s.db q.userId q.clientId = some existing) :
      Move p s i ok (s.goto i (.found existing))
  | rotate (q : Rotation) (existing : Integration) (hp : p i = .rotate q)
      (h : s.phase i = .found existing) :
      Move p s i ok ({ s with holder := Function.update s.holder existing.id (some i) }.goto i
        (.rotated existing))
  | linkCall (q : Rotation) (existing : Integration) (hp : p i = .rotate q)
      (h : s.phase i = .rotated existing) :
      Move p s i ok ((s.call ok existing.config.monobankClientId
        (existing.config.storedUrl q.webhookBaseUrl)).goto i (.called existing))
  | commit (q : Rotation) (existing : Integration) (hp : p i = .rotate q)
      (h : s.phase i = .called existing) :
      Move p s i ok (s.finish i
        (updateIntegrationToken [.integration existing.id] q.encryptedToken q.keyVersion s.db))
  | list (q : Reregistration) (hp : p i = .reregister q) (h : s.phase i = .start) :
      Move p s i ok (s.goto i (.listed (listActive q s.db)))
  | done (q : Reregistration) (hp : p i = .reregister q) (h : s.phase i = .listed []) :
      Move p s i ok (s.goto i .ended)
  | skip (q : Reregistration) (r : Integration) (rest : List Integration)
      (hp : p i = .reregister q) (h : s.phase i = .listed (r :: rest))
      (hno : q.decrypts r.config.encryptedToken = false) :
      Move p s i ok (s.goto i (.listed rest))
  | write (q : Reregistration) (r : Integration) (rest : List Integration) (db : LinkDb)
      (hp : p i = .reregister q) (h : s.phase i = .listed (r :: rest))
      (hyes : q.decrypts r.config.encryptedToken = true)
      (hdb : updateConfig s.db r.id (newConfig q r) = some db) :
      Move p s i ok ({ s with db := db }.goto i (.written r rest))
  | runCall (q : Reregistration) (r : Integration) (rest : List Integration)
      (hp : p i = .reregister q) (h : s.phase i = .written r rest) :
      Move p s i ok ((s.call ok r.config.monobankClientId (newConfig q r).webhookUrl).goto i
        (.listed rest))

variable {p : τ → WebhookParty} {s s' : WebhookState τ} {i j : τ} {ok : Bool}
  {l : WebhookLabel τ}

/-- **Inversion** of a step of a party: it is one of the moves. -/
theorem runStep_cases (h : s.runStep p i ok = some s') : Move p s i ok s' := by
  simp only [runStep] at h
  split at h
  · next q hp hph =>
    split at h
    · obtain rfl := Option.some.inj h
      exact .notLinked q hp hph
    · next existing hfind =>
      obtain rfl := Option.some.inj h
      exact .find q existing hp hph hfind
  · next q existing hp hph =>
    split at h
    · obtain rfl := Option.some.inj h
      exact .rotate q existing hp hph
    · cases h
  · next q existing hp hph =>
    obtain rfl := Option.some.inj h
    exact .linkCall q existing hp hph
  · next q existing hp hph =>
    obtain rfl := Option.some.inj h
    exact .commit q existing hp hph
  · next q hp hph =>
    obtain rfl := Option.some.inj h
    exact .list q hp hph
  · next q hp hph =>
    obtain rfl := Option.some.inj h
    exact .done q hp hph
  · next q r rest hp hph =>
    split at h
    · next hyes =>
      split at h
      · obtain ⟨db, hdb, rfl⟩ := Option.map_eq_some_iff.mp h
        exact .write q r rest db hp hph hyes hdb
      · cases h
    · next hno =>
      obtain rfl := Option.some.inj h
      exact .skip q r rest hp hph (Bool.eq_false_iff.mpr hno)
  · next q r rest hp hph =>
    obtain rfl := Option.some.inj h
    exact .runCall q r rest hp hph
  · cases h

/-- **Inversion** of a step: a move of some party, or the end of one that dies. -/
theorem step_cases (h : step p s l = some s') :
    (∃ i ok, l = .run i ok ∧ Move p s i ok s') ∨ ∃ i, l = .crash i ∧ s' = s.finish i s.db := by
  cases l with
  | run i ok => exact Or.inl ⟨i, ok, rfl, runStep_cases h⟩
  | crash i =>
    simp only [step] at h
    split at h
    · cases h
    · exact Or.inr ⟨i, rfl, (Option.some.inj h).symm⟩

end WebhookState

/-! ## The stored configs -/

section Config

variable {db db' : LinkDb} {id id' : UUID} {config c : IntegrationConfig} {r : Integration}

theorem config_of_mem (hr : r ∈ db.integrations) : db.config r.id = some r.config := by
  rw [LinkDb.config, KeyedTable.find?_eq_some.mpr ⟨hr, rfl⟩]
  rfl

theorem config_updateConfig (h : updateConfig db id config = some db') (id' : UUID) :
    db'.config id' = (db.config id').map fun c => if id' = id then config else c := by
  obtain ⟨t, ht, rfl⟩ := Option.map_eq_some_iff.mp h
  simp only [IntegrationTable.setConfig] at ht
  split at ht
  swap
  · cases ht
  obtain rfl := Option.some.inj ht
  simp only [LinkDb.config, KeyedTable.find?_updateWhere, Option.map_map]
  rcases hfind : db.integrations.toKeyedTable.find? id' with _ | r
  · rfl
  obtain ⟨-, rfl⟩ := KeyedTable.find?_eq_some.mp hfind
  simp only [Option.map_some, Function.comp_apply, decide_eq_true_eq]
  by_cases hid : r.id = id
  · simp only [if_pos hid]
  · simp only [if_neg hid]

theorem config_updateIntegrationToken {token : String} {version : ℤ} (id' : UUID) :
    (updateIntegrationToken [.integration id] token version db).config id' =
      (db.config id').map fun c => if id' = id then c.rotate token version else c := by
  simp only [LinkDb.config, updateIntegrationToken, IntegrationTable.update,
    KeyedTable.find?_updateWhere, Option.map_map]
  rcases hfind : db.integrations.toKeyedTable.find? id' with _ | r
  · rfl
  obtain ⟨-, rfl⟩ := KeyedTable.find?_eq_some.mp hfind
  simp only [Option.map_some, Function.comp_apply, List.mem_singleton,
    LinkKey.integration.injEq, decide_eq_true_eq]
  by_cases hid : r.id = id
  · simp only [if_pos hid]
  · simp only [if_neg hid]

end Config

/-! ## The rows that are under way

A row that a party carries along may be out of date, but the integration is still stored, and still
of the same client. -/

namespace WebhookState

variable {τ : Type*} [DecidableEq τ] {p : τ → WebhookParty} {s s' : WebhookState τ} {i j : τ}
  {ok : Bool} {l : WebhookLabel τ} {id : UUID}

@[simp] theorem goto_phase (phase : WebhookPhase) : (s.goto i phase).phase i = phase :=
  Function.update_self ..

@[simp] theorem finish_phase (db : LinkDb) : (s.finish i db).phase i = .ended :=
  Function.update_self ..

omit [DecidableEq τ] in
@[simp] theorem call_db (clientId url : String) : (s.call ok clientId url).db = s.db := by
  cases ok <;> rfl

omit [DecidableEq τ] in
@[simp] theorem call_phase (clientId url : String) :
    (s.call ok clientId url).phase = s.phase := by
  cases ok <;> rfl

/-- The other parties stay where they are. Only the one that moves has another phase. -/
theorem phase_of_ne (h : step p s l = some s') (hj : j ≠ l.who) : s'.phase j = s.phase j := by
  obtain ⟨i, ok, rfl, hm⟩ | ⟨i, rfl, rfl⟩ := step_cases h
  · cases hm with
    | linkCall => exact (Function.update_of_ne hj _ _).trans (congrFun (call_phase _ _) j)
    | runCall => exact (Function.update_of_ne hj _ _).trans (congrFun (call_phase _ _) j)
    | _ => exact Function.update_of_ne hj _ _
  · exact Function.update_of_ne hj _ _

/-- A row that is under way after a step was so before, or is read by it. -/
theorem rows_step (h : step p s l = some s') {r : Integration} (hr : r ∈ (s'.phase j).rows) :
    r ∈ (s.phase j).rows ∨ r ∈ s.db.integrations ∧ s'.db = s.db := by
  by_cases hj : j = l.who
  swap
  · rw [phase_of_ne h hj] at hr
    exact Or.inl hr
  subst hj
  obtain ⟨i, ok, rfl, hm⟩ | ⟨i, rfl, rfl⟩ := step_cases h
  -- a phase gains rows only from a query, and the query's rows are in the database
  · change r ∈ (s'.phase i).rows at hr
    change r ∈ (s.phase i).rows ∨ _
    cases hm with
    | notLinked q hp hph =>
      rw [goto_phase] at hr
      exact absurd hr List.not_mem_nil
    | find q existing hp hph hfind =>
      rw [goto_phase] at hr
      obtain rfl := List.mem_singleton.mp hr
      exact Or.inr ⟨(getIntegrationByClientId_eq_some hfind).1, rfl⟩
    | rotate q existing hp hph =>
      rw [goto_phase] at hr
      rw [hph]
      exact Or.inl hr
    | linkCall q existing hp hph =>
      rw [goto_phase] at hr
      rw [hph]
      exact Or.inl hr
    | commit q existing hp hph =>
      rw [finish_phase] at hr
      exact absurd hr List.not_mem_nil
    | list q hp hph =>
      rw [goto_phase] at hr
      exact Or.inr ⟨(List.mem_filter.mp hr).1, rfl⟩
    | done q hp hph =>
      rw [goto_phase] at hr
      exact absurd hr List.not_mem_nil
    | skip q x rest hp hph =>
      rw [goto_phase] at hr
      rw [hph]
      exact Or.inl (List.mem_cons_of_mem _ hr)
    | write q x rest db hp hph =>
      rw [goto_phase] at hr
      rw [hph]
      exact Or.inl hr
    | runCall q x rest hp hph =>
      rw [goto_phase] at hr
      rw [hph]
      exact Or.inl (List.mem_cons_of_mem _ hr)
  · change r ∈ ((s.finish i s.db).phase i).rows at hr
    rw [finish_phase] at hr
    exact absurd hr List.not_mem_nil

/-- **The configs change** when a rotation commits, or when a run writes one back. -/
theorem db_step (h : step p s l = some s') :
    s'.db = s.db ∨
    (∃ i ok q existing, l = .run i ok ∧ p i = .rotate q ∧ s.phase i = .called existing ∧
      s'.db = updateIntegrationToken [.integration existing.id] q.encryptedToken q.keyVersion
        s.db) ∨
    ∃ i ok q r rest, l = .run i ok ∧ p i = .reregister q ∧ s.phase i = .listed (r :: rest) ∧
      q.decrypts r.config.encryptedToken = true ∧ s'.phase i = .written r rest ∧
      updateConfig s.db r.id (newConfig q r) = some s'.db := by
  obtain ⟨i, ok, rfl, hm⟩ | ⟨i, rfl, rfl⟩ := step_cases h
  · cases hm with
    | commit q existing hp hph =>
      exact Or.inr (Or.inl ⟨i, ok, q, existing, rfl, hp, hph, rfl⟩)
    | write q r rest db hp hph hyes hdb =>
      exact Or.inr (Or.inr ⟨i, ok, q, r, rest, rfl, hp, hph, hyes, goto_phase _, hdb⟩)
    | linkCall => exact Or.inl (call_db _ _)
    | runCall => exact Or.inl (call_db _ _)
    | _ => exact Or.inl rfl
  · exact Or.inl rfl

/-- Every row that is under way is stored, with the same client. -/
def Known (s : WebhookState τ) : Prop :=
  ∀ i, ∀ r ∈ (s.phase i).rows,
    ∃ c, s.db.config r.id = some c ∧ c.monobankClientId = r.config.monobankClientId

omit [DecidableEq τ] in
theorem known_start {db : LinkDb} {registered : String → Option String} :
    Known (start db registered : WebhookState τ) :=
  fun _ _ hr => absurd hr List.not_mem_nil

/-- No integration goes away, or to another client: a step replaces the config of a row at most. -/
theorem Known.config_step (hknown : Known s) (h : step p s l = some s') {c : IntegrationConfig}
    (hc : s.db.config id = some c) :
    ∃ c', s'.db.config id = some c' ∧ c'.monobankClientId = c.monobankClientId := by
  obtain hdb | ⟨i, ok, q, existing, -, -, -, hdb⟩ | ⟨i, ok, q, r, rest, -, -, hph, -, -, hdb⟩ :=
    db_step h
  · rw [hdb]
    exact ⟨c, hc, rfl⟩
  · rw [hdb, config_updateIntegrationToken, hc]
    refine ⟨_, rfl, ?_⟩
    split
    · rfl
    · rfl
  · rw [config_updateConfig hdb, hc]
    refine ⟨_, rfl, ?_⟩
    split
    · next hid =>
      obtain ⟨c', hc', hclient⟩ := hknown i r (by rw [hph]; exact List.mem_cons_self ..)
      obtain rfl := Option.some.inj (hc.symm.trans (hid ▸ hc'))
      exact hclient.symm
    · rfl

theorem Known.step (hknown : Known s) (h : step p s l = some s') : Known s' := by
  intro j r hr
  obtain hr | ⟨hr, hdb⟩ := rows_step h hr
  · obtain ⟨c, hc, hclient⟩ := hknown j r hr
    obtain ⟨c', hc', hclient'⟩ := hknown.config_step h hc
    exact ⟨c', hc', hclient'.trans hclient⟩
  · rw [hdb]
    exact ⟨r.config, config_of_mem hr, rfl⟩

end WebhookState

/-! ## The token of the last rotation

What is promised is about the past: which rotation was the last to commit. The run is therefore read
with a book, in which every commit is entered. -/

section Token

variable {τ : Type*} [DecidableEq τ] {p : τ → WebhookParty}

/-- A run with the book of its rotations: the token that the last committed rotation of each
integration has written. The steps do not read it. -/
abbrev BookedState (τ : Type*) : Type _ := WebhookState τ × (UUID → Option String)

/-- What a step adds to the book: the commit of a rotation enters its token, and no other step
anything. -/
def bookRotation (p : τ → WebhookParty) (s : WebhookState τ) (last : UUID → Option String) :
    WebhookLabel τ → UUID → Option String
  | .run i _ =>
    match p i, s.phase i with
    | .rotate q, .called existing => Function.update last existing.id (some q.encryptedToken)
    | _, _ => last
  | .crash _ => last

/-- A step together with its entry in the book. -/
def bookedStep (p : τ → WebhookParty) : BookedState τ → WebhookLabel τ → Option (BookedState τ) :=
  traced (WebhookState.step p) (bookRotation p)

/-- `config->>'encrypted_token'` of an integration, where it is stored. -/
def storedToken (db : LinkDb) (id : UUID) : Option String :=
  (db.config id).map IntegrationConfig.encryptedToken

/-- The token of the last committed rotation is the one that is stored. -/
def RotationKept (s : BookedState τ) : Prop :=
  ∀ id token, s.2 id = some token → storedToken s.1.db id = some token

/-- A config that a run writes back has the token that is stored at that moment. Other steps meet
the condition. -/
def WritesStored (p : τ → WebhookParty) (s : BookedState τ) : WebhookLabel τ → Prop
  | .run i ok =>
    match p i, s.1.phase i with
    | .reregister q, .listed (r :: _) =>
      (s.1.runStep p i ok).isSome = true → q.decrypts r.config.encryptedToken = true →
        storedToken s.1.db r.id = some r.config.encryptedToken
    | _, _ => True
  | .crash _ => True

variable {s s' : BookedState τ} {l : WebhookLabel τ} {i : τ} {id : UUID}

omit [DecidableEq τ] in
theorem storedToken_rotate {db : LinkDb} {existing : Integration} {token : String}
    {version : ℤ} : storedToken (updateIntegrationToken [.integration existing.id] token version db)
      id = (storedToken db id).map fun t => if id = existing.id then token else t := by
  rw [storedToken, config_updateIntegrationToken, storedToken, Option.map_map, Option.map_map]
  congr 1
  funext c
  simp only [Function.comp_apply]
  split
  · rfl
  · rfl

omit [DecidableEq τ] in
theorem storedToken_write {db db' : LinkDb} {q : Reregistration} {r : Integration}
    (h : updateConfig db r.id (newConfig q r) = some db') :
    storedToken db' id =
      (storedToken db id).map fun t => if id = r.id then r.config.encryptedToken else t := by
  rw [storedToken, config_updateConfig h, storedToken, Option.map_map, Option.map_map]
  congr 1
  funext c
  simp only [Function.comp_apply]
  split
  · rfl
  · rfl

/-- **A step and its entry**: a rotation commits, a run writes a config back, or neither the tables
nor the book change. -/
inductive BookedMove (p : τ → WebhookParty) (s s' : BookedState τ) (l : WebhookLabel τ) : Prop where
  | quiet (hdb : s'.1.db = s.1.db) (hbook : s'.2 = s.2) (hC : WritesStored p s l)
  | commit (q : Rotation) (existing : Integration) (hrow : existing ∈ (s.1.phase l.who).rows)
      (hdb : s'.1.db =
        updateIntegrationToken [.integration existing.id] q.encryptedToken q.keyVersion s.1.db)
      (hbook : s'.2 = Function.update s.2 existing.id (some q.encryptedToken))
      (hC : WritesStored p s l)
  | write (q : Reregistration) (r : Integration) (hrow : r ∈ (s.1.phase l.who).rows)
      (hdb : updateConfig s.1.db r.id (newConfig q r) = some s'.1.db) (hbook : s'.2 = s.2)
      (hC : WritesStored p s l ↔ storedToken s.1.db r.id = some r.config.encryptedToken)

theorem bookedStep_cases (h : bookedStep p s l = some s') : BookedMove p s s' l := by
  obtain ⟨t', last'⟩ := s'
  obtain ⟨t, last⟩ := s
  obtain ⟨hstep, hbook⟩ := traced_eq_some h
  cases l with
  | crash i =>
    simp only [WebhookState.step] at hstep
    split at hstep
    · cases hstep
    · exact .quiet (by rw [← Option.some.inj hstep]; rfl) hbook trivial
  | run i ok =>
    have hrun : t.runStep p i ok = some t' := hstep
    have hbook' : last' = bookRotation p t last (.run i ok) := hbook
    cases WebhookState.runStep_cases hrun with
    | commit q existing hp hph =>
      refine .commit q existing ?_ rfl (by simpa [bookRotation, hp, hph] using hbook')
        (by simp [WritesStored, hp])
      rw [show (t.phase (WebhookLabel.who (.run i ok))) = _ from hph]
      exact List.mem_singleton_self _
    | write q r rest db hp hph hyes hdb =>
      refine .write q r ?_ hdb (by simpa [bookRotation, hp] using hbook')
        (by simp [WritesStored, hp, hph, hyes, hrun])
      rw [show (t.phase (WebhookLabel.who (.run i ok))) = _ from hph]
      exact List.mem_cons_self ..
    | linkCall q existing hp hph =>
      exact .quiet (WebhookState.call_db _ _) (by simpa [bookRotation, hp, hph] using hbook')
        (by simp [WritesStored, hp])
    | runCall q r rest hp hph =>
      exact .quiet (WebhookState.call_db _ _) (by simpa [bookRotation, hp] using hbook')
        (by simp [WritesStored, hp, hph])
    | _ =>
      exact .quiet rfl (by simp [bookRotation, *]) (by simp [WritesStored, *])

/-- What holds in every state: a row that is under way has the token that is stored, as long as no
rotation has committed. -/
structure RotationsAt (s : BookedState τ) : Prop where
  known : s.1.Known
  unrotated : ∀ i, ∀ r ∈ (s.1.phase i).rows, s.2 r.id = none →
    storedToken s.1.db r.id = some r.config.encryptedToken

theorem RotationsAt.step (h : RotationsAt s) (hs : bookedStep p s l = some s') :
    RotationsAt s' := by
  have hstep := (traced_eq_some hs).1
  refine ⟨h.known.step hstep, fun j r hr hnone => ?_⟩
  obtain hr | ⟨hr, hdb⟩ := WebhookState.rows_step hstep hr
  swap
  · rw [hdb, storedToken, config_of_mem hr]
    rfl
  cases bookedStep_cases hs with
  | quiet hdb hbook =>
    rw [hbook] at hnone
    rw [hdb]
    exact h.unrotated j r hr hnone
  | commit q existing hrow hdb hbook =>
    have hne : r.id ≠ existing.id := by
      intro heq
      rw [hbook, heq, Function.update_self] at hnone
      cases hnone
    rw [hbook, Function.update_of_ne hne] at hnone
    rw [hdb, storedToken_rotate, h.unrotated j r hr hnone, Option.map_some, if_neg hne]
  | write q x hrow hdb hbook =>
    rw [hbook] at hnone
    rw [storedToken_write hdb, h.unrotated j r hr hnone, Option.map_some]
    split
    · next hid =>
      have hx := h.unrotated l.who x hrow (hid ▸ hnone)
      rw [← hid, h.unrotated j r hr hnone] at hx
      exact hx.symm
    · rfl

/-- **A step** from a state that keeps the rotations: the next one keeps them exactly if no older
token is written back. -/
theorem RotationsAt.kept_iff (h : RotationsAt s) (hkept : RotationKept s)
    (hs : bookedStep p s l = some s') : RotationKept s' ↔ WritesStored p s l := by
  cases bookedStep_cases hs with
  | quiet hdb hbook hC =>
    refine iff_of_true (fun id token hlast => ?_) hC
    rw [hbook] at hlast
    rw [hdb]
    exact hkept id token hlast
  | commit q existing hrow hdb hbook hC =>
    refine iff_of_true (fun id token hlast => ?_) hC
    rw [hbook] at hlast
    rw [hdb, storedToken_rotate]
    by_cases hid : id = existing.id
    · subst hid
      rw [Function.update_self] at hlast
      obtain ⟨c, hc, -⟩ := h.known l.who existing hrow
      rw [storedToken, hc, Option.map_some, Option.map_some, if_pos rfl, hlast]
    · rw [Function.update_of_ne hid] at hlast
      rw [hkept id token hlast, Option.map_some, if_neg hid]
  | write q r hrow hdb hbook hC =>
    rw [hC]
    refine ⟨fun hkept' => ?_, fun hstored id token hlast => ?_⟩
    · rcases hlast : s.2 r.id with _ | token
      · exact h.unrotated l.who r hrow hlast
      -- the token that is written is the one of the last rotation
      have hold := hkept r.id token hlast
      have hnew := hkept' r.id token (by rw [hbook, hlast])
      rw [storedToken_write hdb, hold, Option.map_some, if_pos rfl] at hnew
      rw [hold, Option.some.inj hnew]
    · rw [hbook] at hlast
      have hold := hkept id token hlast
      rw [storedToken_write hdb, hold, Option.map_some]
      split
      · next hid =>
        subst hid
        rw [hold] at hstored
        exact hstored.symm
      · rfl

/-- **The last rotation is kept, exactly if no run writes an older token back**: in every
interleaving of links that rotate and of runs of `reregister_webhooks`, on any integrations, with
calls of Monobank that fail and with crashes, the token of the last committed rotation of an
integration is the one that is stored, in every state, if and only if every config that a run writes
back has the token that is stored then. -/
theorem rotation_kept_iff (p : τ → WebhookParty) (db : LinkDb)
    (registered : String → Option String) (labels : List (WebhookLabel τ)) :
    Always (bookedStep p) RotationKept (.start db registered, fun _ => none) labels ↔
      Along (bookedStep p) (WritesStored p) (.start db registered, fun _ => none) labels := by
  refine always_iff_along (fun s l s' h hs => RotationsAt.step h hs)
    (fun s l s' h hkept hs => h.kept_iff hkept hs) (fun s l hs => ?_)
    ⟨WebhookState.known_start, fun _ _ hr => absurd hr List.not_mem_nil⟩
    fun _ _ hlast => by cases hlast
  cases l with
  | crash i => exact trivial
  | run i ok =>
    have hrun : s.1.runStep p i ok = none := by
      simpa [bookedStep, traced, WebhookState.step] using hs
    simp only [WritesStored, hrun]
    split
    · exact fun hsome => by cases hsome
    · exact trivial

end Token

/-- The integration of user 1, with its old token. -/
def sampleIntegration : Integration where
  id := 2
  userId := 1
  config :=
    { encryptedToken := "old"
      keyVersion := 1
      webhookSecret := "s1"
      webhookUrl := webhookUrl "https://grosh" "s1"
      monobankClientId := "c" }
  status := .active

/-- The tables with this integration, and no accounts. -/
def sampleIntegrations : LinkDb := ⟨IntegrationTable.empty.insert sampleIntegration, .empty⟩

/-- A link of the client with a new token, and a run of `reregister_webhooks`. -/
def sampleParties : Bool → WebhookParty
  | false => .rotate ⟨1, "c", "new", 1, "https://grosh"⟩
  | true => .reregister ⟨fun _ => true, fun _ => true, fun _ => "s2", "https://grosh"⟩

/-- What Monobank has for the client before: the URL with the old secret. -/
def sampleRegistered (clientId : String) : Option String :=
  if clientId = "c" then some (webhookUrl "https://grosh" "s1") else none

/-- Some steps of a party, all of whose calls Monobank accepts. -/
def turns (i : Bool) (n : ℕ) : List (WebhookLabel Bool) := List.replicate n (.run i true)

/-- The run lists the configs, the link rotates the token and commits, and the run writes the old
token back. -/
theorem rotation_lost :
    ∃ s, exec (bookedStep sampleParties)
        (.start sampleIntegrations sampleRegistered, fun _ => none)
        (turns true 1 ++ turns false 4 ++ turns true 3) = some s ∧
      s.2 2 = some "new" ∧ storedToken s.1.db 2 = some "old" ∧ ¬ RotationKept s := by
  have hrun : ((exec (bookedStep sampleParties)
      (.start sampleIntegrations sampleRegistered, fun _ => none)
      (turns true 1 ++ turns false 4 ++ turns true 3)).map fun s =>
      (s.2 2, storedToken s.1.db 2)) = some (some "new", some "old") := by
    decide +kernel
  obtain ⟨s, he, h⟩ := Option.map_eq_some_iff.mp hrun
  obtain ⟨hlast, hstored⟩ := Prod.mk.inj h
  refine ⟨s, he, hlast, hstored, fun hkept => ?_⟩
  have hnew := hkept 2 "new" hlast
  rw [hstored] at hnew
  exact absurd (Option.some.inj hnew) (by decide)

end Grosh
