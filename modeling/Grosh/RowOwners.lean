import Grosh.PipelineDelivery
import Grosh.PublishedEnvelopes

/-!
# Whose the rows are

The services meet in the tables: ingestion looks accounts up under row security and publishes what
it has found, enrichment reads the same accounts without row security when it writes the row. The
system (`SystemState.step`) is the pipeline with the tables in front of it: requests of all kinds,
the calls that publish, the producers of ingestion between them and the raw topics.

* `rows_belong` — in every run, whoever asks for what, each row of `transactions` names an account
  that belongs to the user of the row and is of its source.
* `stored_iff_published` — where nothing else is lost on the way, the transactions that are stored
  are those that ingestion has published: the account of none is missing.

Beside the calls that publish, a request may consist of any statements in any session
(`QuietRequest`), as long as ingestion gives no account another id, source or external id; its
requests do not (`QuietRequest.ofAccountRequest`).
-/

namespace Grosh

open RowSecurity Transition AtLeastOnce

/-! ## The system

Ingestion and enrichment share the tables and the topics, and nothing else. A step of the system is
a request, a call that publishes, what the producers of ingestion do later, or a step of the
pipeline behind them. -/

/-- The tables, the producers of ingestion and the pipeline. -/
structure SystemState (π : Type) : Type where
  tables : Db TableName.Row
  /-- what ingestion has enqueued and the broker neither acknowledged nor failed -/
  outbox : List PublishedEnvelope
  pipeline : PipelineState π

/-- A request that publishes nothing. The API has no grant to write accounts. -/
structure QuietRequest : Type where
  session : Session
  program : Program TableName.Row Unit
  keeps : session.dbRole = .ingestion → KeepsAccounts program

/-- The requests that write accounts and integrations; a problem rolls the request back. -/
def QuietRequest.ofAccountRequest (userId : UUID) (role : Option UserRole) (q : AccountRequest) :
    QuietRequest where
  session := callerSession userId role
  program := do
    match ← q.handler userId with
    | .ok _ => return ()
    | .error _ => Program.raise
  keeps := fun _ => (keeps_handler q).bind fun answer => by cases answer <;> trivial

/-- Who moves. -/
inductive SystemLabel (π : Type) : Type where
  /-- a request that publishes nothing -/
  | request (q : QuietRequest)
  /-- a call that publishes -/
  | publish (ext : IngestionServices) (call : IngestionCall)
  /-- an envelope reaches its raw topic, and is sent again where the broker's answer is lost -/
  | deliver (i : ℕ) (again : Bool)
  /-- the delivery of an envelope fails for good, or its producer dies -/
  | lose (i : ℕ)
  /-- the pipeline; the raw topics grow by `deliver` only -/
  | pipeline (l : PipelineLabel π)

/-- A message comes in at a raw topic. -/
def StagingLabel.isArrival : StagingLabel → Bool
  | .arrive _ => true
  | _ => false

/-- What enrichment reads of an account. -/
def AccountRow.props (r : AccountRow) : AccountProps :=
  ⟨r.id, r.userId, r.type, r.currencyCode, r.iban⟩

namespace SystemState

variable {π : Type} [DecidableEq π]

/-- Tables, before anything is published: the pipeline is empty. -/
def start (tables : Db TableName.Row) : SystemState π := ⟨tables, [], .start⟩

/-- The tables as the connections read them, with the transactions enrichment has written. -/
def db (s : SystemState π) : Db TableName.Row :=
  Function.update s.tables .transactions s.pipeline.topic.store.transactions.rows

/-- A handler of enrichment reads the users and the accounts of the tables, in any order. -/
def Reads (s : SystemState π) (env : PipelineEnv) : Prop :=
  env.users.Perm (userIds s.tables) ∧ env.accounts.Perm ((s.tables .accounts).map AccountRow.props)

instance (s : SystemState π) (env : PipelineEnv) : Decidable (s.Reads env) :=
  inferInstanceAs (Decidable (_ ∧ _))

/-- The pipeline may take the step: it makes no message up, and its handlers read the tables as they
are. -/
def Allows (s : SystemState π) : PipelineLabel π → Prop
  | .service l => l.isArrival = false
  | .consumer (.handle _ env) => s.Reads env
  | _ => True

instance (s : SystemState π) : DecidablePred s.Allows
  | .service l => inferInstanceAs (Decidable (l.isArrival = false))
  | .consumer (.handle _ env) => inferInstanceAs (Decidable (s.Reads env))
  | .consumer (.append _ _) | .consumer (.commit _ _) | .consumer (.rewind _) => .isTrue trivial
  | .startPod _ | .pod _ | .podRaises _ | .podDies _ | .podAcknowledge _ | .podDeliveryFails _ =>
    .isTrue trivial

/-- One step of the system. A request that is refused changes nothing. -/
def step (py : Pydantic) (nenv : NormalizerEnv) (partitionOf : UUID → π) (s : SystemState π) :
    SystemLabel π → Option (SystemState π)
  | .request q =>
    some { s with tables := ((q.program.eval schema q.session s.db).map Prod.snd).getD s.tables }
  | .publish ext call =>
    some
      { s with
        tables := call.tables ext s.db
        outbox := s.outbox ++ call.published py nenv ext s.db }
  | .deliver i again => s.outbox[i]?.bind fun e =>
      (s.pipeline.step nenv partitionOf (.service (.arrive (e.message py)))).map fun pipeline =>
        { s with
          outbox := if again then s.outbox else s.outbox.eraseIdx i
          pipeline := pipeline }
  | .lose i => some { s with outbox := s.outbox.eraseIdx i }
  | .pipeline l =>
    if s.Allows l then
      (s.pipeline.step nenv partitionOf l).map fun pipeline => { s with pipeline := pipeline }
    else none

end SystemState

/-! ## The accounts over a run

Everything that is published names an account that ingestion has looked up. So the accounts must not
go away, nor pass to others, while an event is on its way. -/

section Accounts

variable {db db' : Db TableName.Row} {s : Session} {α : Type} {userId accountId : UUID}
  {source : String}

/-- The accounts of a state are accounts of another, with their owners and sources. -/
def AccountsKept (db db' : Db TableName.Row) : Prop :=
  ∀ r ∈ db .accounts, ∃ r' ∈ db' .accounts, r'.id = r.id ∧ r'.userId = r.userId ∧
    r'.source = r.source

theorem AccountsKept.refl (db : Db TableName.Row) : AccountsKept db db :=
  fun r hr => ⟨r, hr, rfl, rfl, rfl⟩

theorem AccountsKept.ownAccount (h : AccountsKept db db')
    (ha : OwnAccount db userId accountId source) : OwnAccount db' userId accountId source := by
  obtain ⟨r, hr, rfl, rfl, rfl⟩ := ha
  obtain ⟨r', hr', hid, hu, hs⟩ := h r hr
  exact ⟨r', hr', hid, hu, congrArg TransactionSource.toText hs⟩

/-- The API does not write accounts: it has a grant to read them only. -/
theorem accounts_of_api (hrole : s.dbRole = .api) {p : Program TableName.Row α} {a : α}
    (he : p.eval schema s db = some (a, db')) : db' .accounts = db .accounts := by
  have hgranted : ∀ c, c ≠ .select → schema.granted s .accounts c = false := by
    intro c hc
    change granted s.dbRole .accounts c = false
    rw [hrole]
    cases c
    · exact absurd rfl hc
    all_goals rfl
  have hall : List.Forall₂ Eq (db .accounts) (db' .accounts) := by
    refine Program.forall₂_eval (t := TableName.accounts) (fun _ => rfl)
      (fun _ _ _ h h' => h.trans h') (hgranted .delete (by simp)) (hgranted .insert (by simp))
      (fun r r' hg => ?_) he
    exact absurd (hgranted .update (by simp)) (by simp [hg])
  exact (List.forall₂_eq_eq_eq ▸ hall).symm

/-- **No session changes whose an account is**: the row it may see is its user's, and so is the row
it may put there. -/
theorem accountsKept_eval {p : Program TableName.Row α}
    (hkeeps : s.dbRole = .ingestion → KeepsAccounts p) {a : α}
    (he : p.eval schema s db = some (a, db')) : AccountsKept db db' := by
  cases hrole : s.dbRole with
  | api =>
    rw [AccountsKept, accounts_of_api hrole he]
    exact AccountsKept.refl db
  | ingestion =>
    refine (Program.kept_eval (t := TableName.accounts) (fun _ => ⟨rfl, rfl, rfl⟩)
      (fun r₁ r₂ r₃ h h' => ⟨h'.1.trans h.1, h'.2.1.trans h.2.1, h'.2.2.trans h.2.2⟩) ?_ ?_
      (hkeeps hrole) he).exists_mem
    · change granted s.dbRole .accounts .delete = false
      rw [hrole]
      rfl
    · intro r r' hreplaces hsame
      have hpasses := hreplaces.taken
      have hreplace := hreplaces.replace
      rw [passes_accounts] at hpasses
      simp only [Schema.mayReplace, Bool.and_eq_true, admits_accounts] at hreplace
      obtain ⟨u, hu, ho⟩ := isCurrentUser_iff.mp hpasses
      obtain ⟨u', hu', ho'⟩ := isCurrentUser_iff.mp hreplace.1.1
      obtain rfl := Option.some.inj (hu.symm.trans hu')
      exact ⟨hsame.1, Option.some.inj (ho'.trans ho.symm), hsame.2.1⟩

theorem wellSourced_eval {p : Program TableName.Row α}
    (hkeeps : s.dbRole = .ingestion → KeepsAccounts p) {a : α}
    (he : p.eval schema s db = some (a, db')) (h : WellSourced db) : WellSourced db' := by
  cases hrole : s.dbRole with
  | api =>
    rw [WellSourced, accounts_of_api hrole he]
    exact h
  | ingestion =>
    refine Program.forall_eval (t := TableName.accounts) (fun _ hr => hr) (fun r r' hsame hr => ?_)
      (hkeeps hrole) he h
    intro hmanual
    rw [hsame.2.2]
    exact hr (hsame.2.1.symm.trans hmanual)

end Accounts

/-! ## What the pipeline knows

Who owns an event is decided where it is published. From there on the user, the account and the
source are passed along unread. -/

section Known

variable {nenv : NormalizerEnv} {Known Known' : NormalizedTransaction → Prop}

theorem KnownEvent.mono {tx : NormalizedTransaction} (hmono : ∀ tx, Known tx → Known' tx)
    (h : KnownEvent Known tx) : KnownEvent Known' tx := by
  obtain ⟨tx₀, hknown, heq⟩ := h
  exact ⟨tx₀, hmono tx₀ hknown, heq⟩

theorem KnownRow.mono {r : Transaction} (hmono : ∀ tx, Known tx → Known' tx)
    (h : KnownRow Known r) : KnownRow Known' r := by
  obtain ⟨tx₀, hknown, hread⟩ := h
  exact ⟨tx₀, hmono tx₀ hknown, hread⟩

theorem PipelineState.Traceable.mono {π : Type} {s : PipelineState π}
    (hmono : ∀ tx, Known tx → Known' tx) (h : s.Traceable nenv Known) :
    s.Traceable nenv Known' where
  service :=
    { raw := fun msg hm tx hn => hmono tx (h.service.raw msg hm tx hn)
      routed := fun tx hx => hmono tx (h.service.routed tx hx)
      queued := fun p tx hx => hmono tx (h.service.queued p tx hx)
      staged := fun r hr => hmono _ (h.service.staged r hr)
      drained := fun t ht r hr => hmono _ (h.service.drained t ht r hr) }
  log := fun p tx hx => (h.log p tx hx).mono hmono
  rows := fun r hr => KnownRow.mono hmono (h.rows r hr)
  pods := fun pod hpod =>
    { rows := fun r hr => ((h.pods pod hpod).rows r hr).mono hmono
      events := fun tx hx => ((h.pods pod hpod).events tx hx).mono hmono
      queued := fun tx hx => ((h.pods pod hpod).queued tx hx).mono hmono }
  backups := fun userId rows hrows r hr => (h.backups userId rows hrows r hr).mono hmono

end Known

/-- The event names an account of its user and of its source. -/
def NormalizedTransaction.Owned (db : Db TableName.Row) (tx : NormalizedTransaction) : Prop :=
  OwnAccount db tx.userId tx.accountId tx.source

/-- The normalizers keep the user, the account and the source of an envelope. -/
theorem normalizeMessage_owned {db : Db TableName.Row} {py : Pydantic} {nenv : NormalizerEnv}
    {e : PublishedEnvelope} {tx : NormalizedTransaction} (he : e.Owned db)
    (h : normalizeMessage nenv (e.message py) = some tx) : tx.Owned db := by
  have hnames : tx.userId = e.userId ∧ tx.accountId = e.accountId ∧ tx.source = e.source := by
    simp only [PublishedEnvelope.message, normalizeMessage, Option.bind_some,
      normalizeEnvelope] at h
    split at h
    · next hs =>
      obtain ⟨item, -, h⟩ := Option.bind_eq_some_iff.mp h
      obtain ⟨time, -, h⟩ := Option.bind_eq_some_iff.mp h
      obtain ⟨code, -, h⟩ := Option.bind_eq_some_iff.mp h
      obtain rfl := Option.some.inj h
      exact ⟨rfl, rfl, hs.symm⟩
    split at h
    · next hs =>
      obtain ⟨payload, -, rfl⟩ := Option.map_eq_some_iff.mp h
      exact ⟨rfl, rfl, hs.symm⟩
    · cases h
  rw [NormalizedTransaction.Owned, hnames.1, hnames.2.1, hnames.2.2]
  exact he

namespace SystemState

variable {π : Type} [DecidableEq π] {py : Pydantic} {nenv : NormalizerEnv} {partitionOf : UUID → π}
  {tables : Db TableName.Row} {s s' : SystemState π} {l : SystemLabel π}
  {labels : List (SystemLabel π)}

/-- What holds in every run: the constraints, and that whatever is on its way or stored names an
account of its user. -/
structure Sound (nenv : NormalizerEnv) (s : SystemState π) : Prop where
  admissible : Admissible s.tables
  sourced : WellSourced s.tables
  outbox : ∀ e ∈ s.outbox, e.Owned s.tables
  traceable : s.pipeline.Traceable nenv fun tx => tx.Owned s.tables

omit [DecidableEq π] in
theorem sound_start (ha : Admissible tables) (hs : WellSourced tables) :
    (start tables : SystemState π).Sound nenv :=
  ⟨ha, hs, fun _ he => absurd he List.not_mem_nil, PipelineState.traceable_start⟩

omit [DecidableEq π] in
/-- The transactions are under no constraint of the other tables, so they may be put in. -/
theorem admissible_db (h : Admissible s.tables) : Admissible s.db :=
  ⟨h.1, h.2, h.3, h.4, h.5, h.6, h.7, h.8, h.9, h.10, h.11, h.12⟩

omit [DecidableEq π] in
/-- Other tables, in which the accounts are kept: what is on its way still names an account of its
user. -/
theorem Sound.ofTables (h : s.Sound nenv) {db : Db TableName.Row} (ha : Admissible db)
    (hs : WellSourced db) (hkept : AccountsKept s.db db) :
    Sound nenv { s with tables := db } where
  admissible := ha
  sourced := hs
  outbox := fun e he => hkept.ownAccount (h.outbox e he)
  traceable := h.traceable.mono fun _ htx => hkept.ownAccount htx

omit [DecidableEq π] in
/-- A request, refused or not, keeps the system sound. Row security is what tells whose rows it
writes. -/
theorem Sound.request (h : s.Sound nenv) {α : Type} {session : Session}
    {p : Program TableName.Row α} (hkeeps : session.dbRole = .ingestion → KeepsAccounts p) :
    Sound nenv
      { s with tables := ((p.eval schema session s.db).map Prod.snd).getD s.tables } := by
  rcases he : p.eval schema session s.db with _ | ⟨a, db⟩
  · exact h
  · have hadm : schema.admissible db = true :=
      Program.admissible_eval (decide_eq_true (admissible_db h.admissible)) he
    exact h.ofTables (of_decide_eq_true hadm) (wellSourced_eval hkeeps he h.sourced)
      (accountsKept_eval hkeeps he)

omit [DecidableEq π] in
/-- A call that publishes, and may mark its integration: the envelopes name accounts it has
found. -/
theorem Sound.publish (h : s.Sound nenv) {ext : IngestionServices} {call : IngestionCall} :
    Sound nenv
      { s with
        tables := call.tables ext s.db
        outbox := s.outbox ++ call.published py nenv ext s.db } := by
  have hsame : Sound nenv { s with tables := s.db } ∧ AccountsKept s.db s.db :=
    ⟨h.ofTables (admissible_db h.admissible) h.sourced (AccountsKept.refl s.db), .refl s.db⟩
  have hcall : Sound nenv { s with tables := call.tables ext s.db } ∧
      AccountsKept s.db (call.tables ext s.db) := by
    cases call with
    | manual q => exact hsame
    | webhook webhookSecret account statementItem => exact hsame
    | backfill job =>
      rw [IngestionCall.tables, BackfillJob.tables]
      split
      swap
      · exact hsame
      have hkeeps : KeepsAccounts (MonobankRepo.markIntegrationError job.integrationId) :=
        keeps_modify_integrations.bind fun _ => Program.writes_pure _
      rcases he : (MonobankRepo.markIntegrationError job.integrationId).eval schema job.session
          s.db with _ | ⟨a, db⟩
      · exact hsame
      · have hadm : schema.admissible db = true :=
          Program.admissible_eval (decide_eq_true (admissible_db h.admissible)) he
        have hkept := accountsKept_eval (fun _ => hkeeps) he
        exact ⟨h.ofTables (of_decide_eq_true hadm) (wellSourced_eval (fun _ => hkeeps) he h.sourced)
          hkept, hkept⟩
  refine { hcall.1 with outbox := fun e he => ?_ }
  rcases List.mem_append.mp he with he | he
  · exact hcall.1.outbox e he
  · have hsource : WellSourced s.db := h.sourced
    exact hcall.2.ownAccount (owned_of_published hsource he)

/-- **One step keeps the system sound**, whichever service takes it. -/
theorem Sound.step (h : s.Sound nenv)
    (hs : s.step py nenv partitionOf l = some s') : s'.Sound nenv := by
  cases l with
  | request q =>
    obtain rfl := Option.some.inj hs
    exact h.request q.keeps
  | publish ext call =>
    obtain rfl := Option.some.inj hs
    exact h.publish
  | deliver i again =>
    obtain ⟨e, hi, hs⟩ := Option.bind_eq_some_iff.mp hs
    obtain ⟨pipeline, hstep, rfl⟩ := Option.map_eq_some_iff.mp hs
    have he : e.Owned s.tables := h.outbox e (List.mem_of_getElem? hi)
    refine { h with outbox := fun e' he' => ?_, traceable := h.traceable.step ?_ hstep }
    · dsimp only at he'
      split at he'
      · exact h.outbox e' he'
      · exact h.outbox e' (List.mem_of_mem_eraseIdx he')
    · intro msg hmsg tx htx
      cases hmsg
      exact normalizeMessage_owned he htx
  | lose i =>
    obtain rfl := Option.some.inj hs
    exact { h with outbox := fun e he => h.outbox e (List.mem_of_mem_eraseIdx he) }
  | pipeline l =>
    rw [SystemState.step] at hs
    split at hs
    swap
    · cases hs
    next hallows =>
    obtain ⟨pipeline, hstep, rfl⟩ := Option.map_eq_some_iff.mp hs
    refine { h with traceable := h.traceable.step ?_ hstep }
    rintro msg rfl
    cases hallows

theorem sound_of_exec (ha : Admissible tables) (hsource : WellSourced tables)
    (h : exec (step py nenv partitionOf) (start tables) labels = some s) : s.Sound nenv := by
  have hstep : ∀ s l s', Sound nenv s → step py nenv partitionOf s l = some s' → Sound nenv s' :=
    fun _ _ _ hI hs => hI.step hs
  exact exec_invariant hstep (sound_start ha hsource) h

/-- **Every row belongs to the owner of its account**: in every run of requests, webhooks,
backfills, jobs and consumers, whatever each asks for and whatever fails, a row of `transactions`
names an account of its user and of its source. -/
theorem rows_belong (ha : Admissible tables) (hsource : WellSourced tables)
    (h : exec (step py nenv partitionOf) (start tables) labels = some s) :
    ∀ r ∈ s.pipeline.topic.store.transactions,
      OwnAccount s.tables r.userId r.accountId r.source.toText := by
  intro r hr
  obtain ⟨tx, htx, hread⟩ := (sound_of_exec ha hsource h).traceable.rows r hr
  have huser : r.userId = tx.userId := congrArg NormalizedTransaction.userId hread.event
  have haccount : r.accountId = tx.accountId :=
    congrArg NormalizedTransaction.accountId hread.event
  have hsource : r.source.toText = tx.source := congrArg NormalizedTransaction.source hread.event
  rw [huser, haccount, hsource]
  exact htx

/-- A card of a user, linked. -/
def sampleCard : AccountRow where
  id := 11
  userId := 1
  integrationId := some 31
  source := .monobank
  type := "black"
  currencyCode := "UAH"
  maskedPan := none
  iban := none
  externalId := some "card"
  cashbackType := none
  clientId := some "client"
  name := none
  isActive := true
  createdAt := 0
  updatedAt := 0

/-- The integration of the card, with the secret of its webhook. -/
def sampleCardIntegration : Integration :=
  ⟨31, 1, ⟨"token", 1, "secret", webhookUrl "https://grosh.app" "secret", "client"⟩, .active⟩

/-- The tables of a user with a card, and of another user. -/
def sampleLinked : Db TableName.Row
  | .users => [sampleMember 1 "a", sampleMember 2 "b"]
  | .accounts => [sampleCard]
  | .bankIntegrations => [sampleCardIntegration]
  | .userSettings => []
  | .transactions => []
  | .categories => []

/-- A bank that answers no request for statements; pushes are all that comes. -/
def sampleServices : IngestionServices where
  decrypt := some
  getStatements := fun _ _ => .raises
  produces := fun _ _ => true
  originalMcc := fun _ => 0
  rateSources := []

/-- Enrichment as it reads the tables, in an order of its own. -/
def sampleReads : PipelineEnv where
  users := [1, 2]
  accounts := [⟨12, 2, "cash", "UAH", none⟩, sampleCard.props]
  convert := fun _ _ => .ok ⟨fun _ => none, []⟩
  scan := id
  scan_perm := scan_id_perm

/-- A push of the bank goes through to its row, after another user has created an account. -/
def samplePush : List (SystemLabel Unit) :=
  [.request (.ofAccountRequest 2 (some .member) (.create ⟨"UAH", "cash", 12, 0⟩)),
    .publish sampleServices (.webhook "secret" "card" (sampleStatement 980 1554466347)),
    .deliver 0 false, .pipeline (.service (.poll 0))] ++
    List.replicate 5 (.pipeline (.service (.consume 1))) ++
    [.pipeline (.service (.acknowledge .consumer 0)),
      .pipeline (.consumer (.handle () sampleReads)), .pipeline (.consumer (.commit () 1))]

theorem wellSourced_sampleLinked : WellSourced sampleLinked := by
  intro r hr hmanual
  obtain rfl := List.mem_singleton.mp hr
  cases hmanual

/-- The push has its row, and the card is still its user's. -/
theorem rows_belong_card : ∃ s,
    exec (step samplePydantic sampleHryvnia fun _ => ()) (start sampleLinked) samplePush = some s ∧
      s.pipeline.topic.store.transactions.rows.map Transaction.accountId = [11] ∧
      ∀ r ∈ s.pipeline.topic.store.transactions,
        OwnAccount s.tables r.userId r.accountId r.source.toText := by
  have hrun : (exec (step samplePydantic sampleHryvnia fun _ => ()) (start sampleLinked)
      samplePush).map (fun s => s.pipeline.topic.store.transactions.rows.map
        Transaction.accountId) = some [11] := by decide +kernel
  obtain ⟨s, hs, hrows⟩ := Option.map_eq_some_iff.mp hrun
  exact ⟨s, hs, hrows,
    rows_belong (by decide +kernel) wellSourced_sampleLinked hs⟩

/-! ### What is published is stored

The other direction: not only does every row come from somewhere, but every envelope gets to its
row, if no step loses it. -/

/-- A call of the run has published the envelope, from the tables it has found. -/
def PublishedIn (py : Pydantic) (nenv : NormalizerEnv) (partitionOf : UUID → π)
    (tables : Db TableName.Row) (labels : List (SystemLabel π)) (e : PublishedEnvelope) : Prop :=
  ∃ before ext call after s, labels = before ++ .publish ext call :: after ∧
    exec (step py nenv partitionOf) (start tables) before = some s ∧
    e ∈ call.published py nenv ext s.db

/-- No envelope is lost before its raw topic, and the pipeline loses no event, as far as that is up
to the brokers and the processes. -/
def Reliable (s : SystemState π) : SystemLabel π → Prop
  | .lose _ => False
  | .pipeline (.consumer _) => True
  | .pipeline l => s.pipeline.Reliable l
  | _ => True

instance (s : SystemState π) : DecidablePred s.Reliable
  | .lose _ => .isFalse id
  | .pipeline (.consumer _) => .isTrue trivial
  | .pipeline (.service l) => inferInstanceAs (Decidable (s.pipeline.Reliable (.service l)))
  | .pipeline (.startPod u) => inferInstanceAs (Decidable (s.pipeline.Reliable (.startPod u)))
  | .pipeline (.pod i) => inferInstanceAs (Decidable (s.pipeline.Reliable (.pod i)))
  | .pipeline (.podRaises i) => inferInstanceAs (Decidable (s.pipeline.Reliable (.podRaises i)))
  | .pipeline (.podDies i) => inferInstanceAs (Decidable (s.pipeline.Reliable (.podDies i)))
  | .pipeline (.podAcknowledge i) =>
    inferInstanceAs (Decidable (s.pipeline.Reliable (.podAcknowledge i)))
  | .pipeline (.podDeliveryFails i) =>
    inferInstanceAs (Decidable (s.pipeline.Reliable (.podDeliveryFails i)))
  | .request _ | .publish _ _ | .deliver _ _ => .isTrue trivial

omit [DecidableEq π] in
/-- The account of an event in the topic is there when its handler looks for it, so no handler fails
over a missing account. -/
theorem Sound.accountThere (h : s.Sound nenv) {c : Label π NormalizedMessage PipelineEnv}
    (hallows : s.Allows (.consumer c)) : AccountThere s.pipeline.topic c := by
  cases c with
  | handle p env =>
    intro tx htx
    obtain ⟨tx₀, ⟨r, hr, hid, -⟩, heq⟩ := h.traceable.log p tx (List.mem_of_getElem? htx)
    have haccount : tx.replayed.accountId = tx₀.replayed.accountId :=
      congrArg NormalizedTransaction.accountId heq
    have hmem : r.props ∈ env.accounts := hallows.2.mem_iff.mpr (List.mem_map_of_mem hr)
    have hsome : (env.accounts.find? fun a => decide (a.id = tx.accountId)).isSome :=
      List.find?_isSome.mpr ⟨_, hmem, decide_eq_true (hid.trans haccount.symm)⟩
    obtain ⟨account, hfound⟩ := Option.isSome_iff_exists.mp hsome
    exact ⟨account, by rw [getById, hfound]⟩
  | append | commit | rewind => trivial

theorem publishedIn_concat {e : PublishedEnvelope} :
    PublishedIn py nenv partitionOf tables (labels ++ [l]) e ↔
      PublishedIn py nenv partitionOf tables labels e ∨
        ∃ ext call s, l = .publish ext call ∧
          exec (step py nenv partitionOf) (start tables) labels = some s ∧
          e ∈ call.published py nenv ext s.db := by
  refine ⟨?_, ?_⟩
  · rintro ⟨before, ext, call, after, s, heq, hs, he⟩
    rcases List.eq_nil_or_concat after with rfl | ⟨after, l', rfl⟩
    · obtain ⟨rfl, hl⟩ := List.append_inj' heq rfl
      exact Or.inr ⟨ext, call, s, List.singleton_inj.mp hl, hs, he⟩
    · rw [List.concat_eq_append, ← List.cons_append, ← List.append_assoc] at heq
      exact Or.inl ⟨before, ext, call, after, s, (List.append_inj' heq rfl).1, hs, he⟩
  · rintro (⟨before, ext, call, after, s, rfl, hs, he⟩ | ⟨ext, call, s, rfl, hs, he⟩)
    · exact ⟨before, ext, call, after ++ [l], s, by simp, hs, he⟩
    · exact ⟨labels, ext, call, [], s, rfl, hs, he⟩

theorem publishedIn_concat_of_ne (hl : ∀ ext call, l ≠ .publish ext call) :
    PublishedIn py nenv partitionOf tables (labels ++ [l]) =
      PublishedIn py nenv partitionOf tables labels :=
  funext fun _ => propext (publishedIn_concat.trans
    (or_iff_left fun ⟨ext, call, _, heq, _⟩ => hl ext call heq))

theorem publishedIn_concat_publish {ext : IngestionServices} {call : IngestionCall}
    (hs : exec (step py nenv partitionOf) (start tables) labels = some s) :
    PublishedIn py nenv partitionOf tables (labels ++ [.publish ext call]) = fun e =>
      PublishedIn py nenv partitionOf tables labels e ∨
        e ∈ call.published py nenv ext s.db := by
  funext e
  refine propext (publishedIn_concat.trans (or_congr_right ⟨?_, ?_⟩))
  · rintro ⟨ext', call', s', heq, hs', he⟩
    cases heq
    obtain rfl := Option.some.inj (hs.symm.trans hs')
    exact he
  · exact fun he => ⟨ext, call, s, rfl, hs, he⟩

/-- The run of the pipeline inside a run of the system: what has arrived there, and what has been
published and is yet to arrive. -/
structure Follows (py : Pydantic) (nenv : NormalizerEnv) (partitionOf : UUID → π)
    (published : PublishedEnvelope → Prop) (s : SystemState π)
    (inner : List (PipelineLabel π)) : Prop where
  run : exec (PipelineState.step nenv partitionOf) .start inner = some s.pipeline
  reliable : Along (PipelineState.step nenv partitionOf) PipelineState.Reliable .start inner
  /-- the messages of the raw topics are the published ones -/
  arrived : ∀ msg, .service (.arrive msg) ∈ inner → ∃ e, published e ∧ msg = e.message py
  outbox : ∀ e ∈ s.outbox, published e
  /-- a published envelope waits, or has reached its topic -/
  sent : ∀ e, published e → e ∈ s.outbox ∨ .service (.arrive (e.message py)) ∈ inner

/-- A step of the pipeline inside, which is one of the system as well. -/
theorem Follows.extend {published : PublishedEnvelope → Prop} {inner : List (PipelineLabel π)}
    (h : Follows py nenv partitionOf published s inner) {l : PipelineLabel π}
    {pipeline : PipelineState π} (hs : s.pipeline.step nenv partitionOf l = some pipeline)
    (hr : s.pipeline.Reliable l) :
    exec (PipelineState.step nenv partitionOf) .start (inner ++ [l]) = some pipeline ∧
      Along (PipelineState.step nenv partitionOf) PipelineState.Reliable .start (inner ++ [l]) := by
  refine ⟨?_, (along_append h.run).mpr ⟨h.reliable, hr, fun _ _ => trivial⟩⟩
  rw [exec_append, h.run, Option.bind_some, exec_cons, hs]
  rfl

/-- A call publishes its envelopes: the pipeline inside does not move. -/
theorem Follows.publish {published : PublishedEnvelope → Prop} {inner : List (PipelineLabel π)}
    (h : Follows py nenv partitionOf published s inner) (tables' : Db TableName.Row)
    (es : List PublishedEnvelope) :
    Follows py nenv partitionOf (fun e => published e ∨ e ∈ es)
      { s with tables := tables', outbox := s.outbox ++ es } inner where
  run := h.run
  reliable := h.reliable
  arrived msg hm := (h.arrived msg hm).imp fun _ he => ⟨Or.inl he.1, he.2⟩
  outbox _ he := (List.mem_append.mp he).imp_left (h.outbox _)
  sent e he := by
    rcases he with he | he
    · exact (h.sent e he).imp_left (List.mem_append_left _)
    · exact Or.inl (List.mem_append_right _ he)

/-- The other envelopes stay where one is delivered, and this one too if it will be sent again. -/
theorem mem_outbox_of_ne {outbox : List PublishedEnvelope} {i : ℕ} {e e' : PublishedEnvelope}
    {again : Bool} (hi : outbox[i]? = some e) (hne : e' ≠ e) (he : e' ∈ outbox) :
    e' ∈ if again then outbox else outbox.eraseIdx i := by
  split
  · exact he
  · obtain ⟨j, hj⟩ := List.mem_iff_getElem?.mp he
    refine List.mem_eraseIdx_iff_getElem?.mpr ⟨j, ?_, hj⟩
    rintro rfl
    exact hne (Option.some.inj (hj.symm.trans hi))

/-- An envelope reaches its raw topic, and waits on where the producer will send it again. -/
theorem Follows.deliver {published : PublishedEnvelope → Prop} {inner : List (PipelineLabel π)}
    (h : Follows py nenv partitionOf published s inner) {i : ℕ} {e : PublishedEnvelope}
    (hi : s.outbox[i]? = some e) (again : Bool) {pipeline : PipelineState π}
    (hs : s.pipeline.step nenv partitionOf (.service (.arrive (e.message py))) = some pipeline) :
    Follows py nenv partitionOf published
      { s with
        outbox := if again then s.outbox else s.outbox.eraseIdx i
        pipeline := pipeline }
      (inner ++ [.service (.arrive (e.message py))]) where
  run := (h.extend hs trivial).1
  reliable := (h.extend hs trivial).2
  arrived msg hm := by
    rcases List.mem_append.mp hm with hm | hm
    · exact h.arrived msg hm
    · cases List.mem_singleton.mp hm
      exact ⟨e, h.outbox e (List.mem_of_getElem? hi), rfl⟩
  outbox e' he' := by
    dsimp only at he'
    split at he'
    · exact h.outbox e' he'
    · exact h.outbox e' (List.mem_of_mem_eraseIdx he')
  sent e' he' := by
    by_cases heq : e' = e
    · subst heq
      exact Or.inr (List.mem_append_right _ (List.mem_singleton_self _))
    · exact (h.sent e' he').imp (mem_outbox_of_ne hi heq) (List.mem_append_left _)

/-- The pipeline takes a step of its own, in which nothing arrives. -/
theorem Follows.pipeline {published : PublishedEnvelope → Prop} {inner : List (PipelineLabel π)}
    (h : Follows py nenv partitionOf published s inner) {l : PipelineLabel π}
    (hl : ∀ msg, l ≠ .service (.arrive msg)) {pipeline : PipelineState π}
    (hs : s.pipeline.step nenv partitionOf l = some pipeline) (hr : s.pipeline.Reliable l) :
    Follows py nenv partitionOf published { s with pipeline := pipeline } (inner ++ [l]) where
  run := (h.extend hs hr).1
  reliable := (h.extend hs hr).2
  arrived msg hm := by
    rcases List.mem_append.mp hm with hm | hm
    · exact h.arrived msg hm
    · exact absurd (List.mem_singleton.mp hm).symm (hl msg)
  outbox := h.outbox
  sent e he := (h.sent e he).imp_right (List.mem_append_left _)

/-- **A run of the system contains a run of the pipeline**, in which no account is missing. -/
theorem follows_of_exec (ha : Admissible tables) (hsource : WellSourced tables)
    (hC : Along (step py nenv partitionOf) Reliable (start tables) labels)
    (h : exec (step py nenv partitionOf) (start tables) labels = some s) :
    ∃ inner,
      Follows py nenv partitionOf (PublishedIn py nenv partitionOf tables labels) s inner := by
  induction labels using List.reverseRecOn generalizing s with
  | nil =>
    obtain rfl := Option.some.inj h
    have hnone : ∀ e, ¬ PublishedIn py nenv partitionOf tables [] e := by
      rintro e ⟨before, ext, call, after, s, heq, -⟩
      simp at heq
    exact ⟨[], rfl, trivial, fun _ hm => absurd hm List.not_mem_nil,
      fun _ he => absurd he List.not_mem_nil, fun e he => absurd he (hnone e)⟩
  | append_singleton labels l ih =>
    obtain ⟨s₁, hs₁, hl⟩ := exec_concat_eq_some h
    obtain ⟨hC₁, hC₂⟩ := (along_append hs₁).mp hC
    obtain ⟨inner, hf⟩ := ih hC₁ hs₁
    cases l with
    | request q =>
      obtain rfl := Option.some.inj hl
      rw [publishedIn_concat_of_ne fun _ _ h => by cases h]
      exact ⟨inner, hf.run, hf.reliable, hf.arrived, hf.outbox, hf.sent⟩
    | publish ext call =>
      obtain rfl := Option.some.inj hl
      rw [publishedIn_concat_publish hs₁]
      exact ⟨inner, hf.publish _ _⟩
    | deliver i again =>
      obtain ⟨e, hi, hl⟩ := Option.bind_eq_some_iff.mp hl
      obtain ⟨pipeline, hstep, rfl⟩ := Option.map_eq_some_iff.mp hl
      rw [publishedIn_concat_of_ne fun _ _ h => by cases h]
      exact ⟨_, hf.deliver hi again hstep⟩
    | lose i => exact absurd hC₂.1 id
    | pipeline l =>
      rw [SystemState.step] at hl
      split at hl
      · next hallows =>
        obtain ⟨pipeline, hstep, rfl⟩ := Option.map_eq_some_iff.mp hl
        have hr : s₁.pipeline.Reliable l := by
          cases l with
          | consumer c => exact (sound_of_exec ha hsource hs₁).accountThere hallows
          | _ => exact hC₂.1
        -- what arrives is delivered, not taken
        have hne : ∀ msg, l ≠ .service (.arrive msg) := by
          rintro msg rfl
          cases hallows
        rw [publishedIn_concat_of_ne fun _ _ h => by cases h]
        exact ⟨_, hf.pipeline hne hstep hr⟩
      · cases hl

/-- **What is published is stored, and nothing else is**: where no step loses an event (`Reliable`:
no envelope is lost and no delivery fails for good, a process dies only with empty queues, routing
does not raise, nothing is stored for a user between the read and the delete of a job, and no job
raises or dies while it owes events), the transactions that are stored once all has come to rest are
those of the envelopes that ingestion has published. None is skipped for want of its account. -/
theorem stored_iff_published (ha : Admissible tables) (hsource : WellSourced tables)
    (hC : Along (step py nenv partitionOf) Reliable (start tables) labels)
    (h : exec (step py nenv partitionOf) (start tables) labels = some s) (hout : s.outbox = [])
    (hrest : s.pipeline.AtRest) {id : UUID} :
    s.pipeline.topic.store.Stored id ↔ ∃ e tx, PublishedIn py nenv partitionOf tables labels e ∧
      normalizeMessage nenv (e.message py) = some tx ∧ tx.id = id := by
  obtain ⟨inner, hf⟩ := follows_of_exec ha hsource hC h
  refine ⟨?_, ?_⟩
  · rintro ⟨r, hr, rfl⟩
    obtain ⟨tx, ⟨msg, hmsg, hn⟩, hread⟩ := (PipelineState.traceable_of_exec hf.run).rows r hr
    obtain ⟨e, he, rfl⟩ := hf.arrived msg hmsg
    exact ⟨e, tx, he, hn, (congrArg NormalizedTransaction.id hread.event).symm⟩
  · rintro ⟨e, tx, he, hn, rfl⟩
    have harrived : PipelineState.Arrives nenv inner tx := by
      rcases hf.sent e he with he | he
      · rw [hout] at he
        exact absurd he List.not_mem_nil
      · exact ⟨_, he, hn⟩
    exact hrest.stored (PipelineState.carried_of_exec hf.reliable hf.run harrived)

/-- The lengths of all the places where an event can wait. -/
def waiting (s : SystemState Unit) : List ℕ :=
  [s.outbox.length, s.pipeline.service.raw.length, (s.pipeline.service.queue .consumer).length,
    (s.pipeline.service.queue .drain).length, s.pipeline.service.staging.rows.length,
    s.pipeline.pods.length,
    (s.pipeline.topic.log ()).length - s.pipeline.topic.position ()]

/-- The push is stored, and nothing else is. -/
theorem stored_iff_published_card : ∃ s,
    exec (step samplePydantic sampleHryvnia fun _ => ()) (start sampleLinked) samplePush = some s ∧
      ∀ id, s.pipeline.topic.store.Stored id ↔
        ∃ e tx, PublishedIn samplePydantic sampleHryvnia (fun _ => ()) sampleLinked samplePush e ∧
          normalizeMessage sampleHryvnia (e.message samplePydantic) = some tx ∧ tx.id = id := by
  have hreliable : Along (step samplePydantic sampleHryvnia fun _ => ()) Reliable
      (start sampleLinked) samplePush := by decide +kernel
  have hrun : (exec (step samplePydantic sampleHryvnia fun _ => ()) (start sampleLinked)
      samplePush).any fun s => s.waiting = [0, 0, 0, 0, 0, 0, 0] ∧
        s.pipeline.topic.position () ≤ (s.pipeline.topic.log ()).length := by decide +kernel
  obtain ⟨s, hs, hwaiting⟩ := (Option.any_eq_true _ _).mp hrun
  simp only [waiting, List.cons.injEq, List.length_eq_zero_iff, decide_eq_true_eq] at hwaiting
  obtain ⟨⟨hout, hraw, hconsumer, hdrain, hstaging, hpods, hpassed, -⟩, hbound⟩ := hwaiting
  refine ⟨s, hs, fun id => stored_iff_published (by decide +kernel)
    wellSourced_sampleLinked hreliable hs hout ⟨hraw, fun p => ?_, hstaging, ?_, fun _ => ?_⟩⟩
  · cases p
    · exact hconsumer
    · exact hdrain
  · rw [hpods]
    exact fun _ hp => absurd hp List.not_mem_nil
  · exact le_antisymm hbound (Nat.sub_eq_zero_iff_le.mp hpassed)

end SystemState

end Grosh
