import Grosh.Normalization
import Grosh.StoredRows

/-!
# From an accepted transaction to its row

Ingestion accepts manual create requests and Monobank statement items. The id of a transaction is
`uuid5` of its source and its source id alone, and enrichment inserts it with `ON CONFLICT (id)
DO NOTHING`. For a manual request the source id is the client's idempotency key, which nothing
scopes to its user or account: the second of two users with one key is swallowed.

Only the first event of an id gets a row, so the question is who shares an id. `uuid5` is assumed to
be injective on the names that occur and nothing else is; the amounts, the times and everything else
a request says have no part in it.

* `ownRows_iff_scoped` — accepted transactions of different users or accounts all have their own
  rows after enrichment exactly if no two of them share source and source id.
-/

namespace Grosh

/-! ## Acceptance

A request is accepted as soon as its envelope is published; nobody waits for the row. Whatever makes
the row impossible later is not told to whoever has sent the request. -/

/-- What `AccountRepo.get_by_id` returns: the columns that a create request is checked against. -/
structure AccountRecord : Type where
  id : UUID
  source : TransactionSource
  userId : UUID
  name : Option String
  isActive : Bool

/-- The tables a create request reads: the accounts, the settings of the users and the rate sources
that are known. -/
structure IngestionEnv : Type where
  accounts : List AccountRecord
  /-- `user_settings.default_rate_source` -/
  defaultRateSource : UUID → Option String
  /-- `rate_source_config` -/
  rateSources : List String

/-- A validated `CreateTransactionRequest` with the user of its access token, and the
`uuid4()` that is drawn where it has no idempotency key. -/
structure CreateTransactionRequest : Type where
  userId : UUID
  accountId : UUID
  amountCents : ℤ
  amount_pos : 0 < amountCents
  operationCurrencyCode : String
  description : Option String
  time : Timestamp
  direction : TransactionDirection
  direction_ne_zero : direction ≠ .zero
  mcc : Option String
  rateSource : Option String
  idempotencyKey : Option String
  uuid4 : String

/-- What `create_transaction` raises. All three are raised before anything is published. -/
inductive CreateTransactionError : Type where
  | accountNotOwned (accountId userId : UUID)
  | accountNotManual (accountId : UUID) (source : TransactionSource)
  | invalidRateSource (rateSource : String)

/-- `AccountRepo.get_by_id`: an account of the user, or none. -/
def IngestionEnv.getById (ienv : IngestionEnv) (accountId userId : UUID) : Option AccountRecord :=
  ienv.accounts.find? fun a => decide (a.id = accountId ∧ a.userId = userId)

/-- `idempotency_key if idempotency_key else str(uuid4())`: an empty key is none. -/
def CreateTransactionRequest.sourceId (q : CreateTransactionRequest) : String :=
  match q.idempotencyKey with
  | some key => if key = "" then q.uuid4 else key
  | none => q.uuid4

/-- `ManualService.create_transaction`: the envelope it publishes, or what it raises. -/
def createTransaction (nenv : NormalizerEnv) (ienv : IngestionEnv)
    (q : CreateTransactionRequest) :
    Except CreateTransactionError (TransactionEnvelope × ManualTransactionPayload) :=
  match ienv.getById q.accountId q.userId with
  | none => .error (.accountNotOwned q.accountId q.userId)
  | some account =>
    if account.source ≠ .manual then .error (.accountNotManual q.accountId account.source)
    else
      let resolvedRateSource := q.rateSource.or (ienv.defaultRateSource q.userId)
      match resolvedRateSource.filter fun r => decide (r ∉ ienv.rateSources) with
      | some rateSource => .error (.invalidRateSource rateSource)
      | none =>
        .ok (⟨q.userId, q.accountId⟩,
          { id := generateTransactionId nenv "manual" q.sourceId
            sourceId := q.sourceId
            amountCents := q.amountCents
            operationCurrencyCode := q.operationCurrencyCode
            description := q.description
            time := q.time
            direction := q.direction
            mcc := q.mcc
            rateSource := resolvedRateSource })

/-- What ingestion accepts: a create request, or a statement item of the bank, by webhook or
backfill. -/
inductive IngestionRequest : Type where
  | manual (q : CreateTransactionRequest)
  /-- a statement item, with the user and the account of the integration -/
  | monobank (envelope : TransactionEnvelope) (item : MonobankStatementItem)

namespace IngestionRequest

/-- The user and the account, as the envelope names them. -/
def owner : IngestionRequest → UUID × UUID
  | manual q => (q.userId, q.accountId)
  | monobank envelope _ => (envelope.userId, envelope.accountId)

/-- The source and the source id: all that the id of the transaction is made from. -/
def key : IngestionRequest → String × String
  | manual q => ("manual", q.sourceId)
  | monobank _ item => ("monobank", item.id)

/-- The name that is hashed to the id. Neither the user nor the account is in it. -/
def name (q : IngestionRequest) : String := q.key.1 ++ ":" ++ q.key.2

/-- The event that is normalized from an accepted request; `none` where the request is refused or
its item is skipped. -/
def event? (nenv : NormalizerEnv) (ienv : IngestionEnv) :
    IngestionRequest → Option NormalizedTransaction
  | manual q =>
    match createTransaction nenv ienv q with
    | .ok (envelope, payload) => some (manualNormalize envelope payload)
    | .error _ => none
  | monobank envelope item => monobankNormalize nenv envelope item

end IngestionRequest

/-- An accepted transaction: the request, and the event it becomes. What is not accepted cannot be
one. -/
structure AcceptedTransaction (nenv : NormalizerEnv) : Type where
  request : IngestionRequest
  ienv : IngestionEnv
  event : NormalizedTransaction
  accepted : request.event? nenv ienv = some event

variable {nenv : NormalizerEnv} {ienv : IngestionEnv} {q q' : IngestionRequest}
  {tx : NormalizedTransaction} {a b : AcceptedTransaction nenv}

/-- What `create_transaction` publishes of a request: its own user and account, and an id made of
its key. -/
theorem createTransaction_eq_ok {q : CreateTransactionRequest}
    {p : TransactionEnvelope × ManualTransactionPayload}
    (h : createTransaction nenv ienv q = .ok p) :
    p.1 = ⟨q.userId, q.accountId⟩ ∧ p.2.id = generateTransactionId nenv "manual" q.sourceId ∧
      p.2.sourceId = q.sourceId ∧ p.2.time = q.time := by
  simp only [createTransaction] at h
  split at h
  · cases h
  split at h
  · cases h
  split at h
  · cases h
  · cases h
    exact ⟨rfl, rfl, rfl, rfl⟩

/-- What an event keeps of its request: the owner, the key and the id that is the hash of its
name. -/
theorem event_of_request (h : q.event? nenv ienv = some tx) :
    (tx.userId, tx.accountId) = q.owner ∧ (tx.source, tx.sourceId) = q.key ∧
      tx.id = nenv.uuid5 q.name := by
  cases q with
  | manual q =>
    simp only [IngestionRequest.event?] at h
    split at h
    · next envelope payload hok =>
      obtain rfl := Option.some.inj h
      obtain ⟨rfl, hid, hsource, -⟩ := createTransaction_eq_ok hok
      exact ⟨rfl, congrArg (Prod.mk "manual") hsource, hid⟩
    · cases h
  | monobank envelope item =>
    obtain ⟨time, -, h⟩ := Option.bind_eq_some_iff.mp h
    obtain ⟨code, -, h⟩ := Option.bind_eq_some_iff.mp h
    obtain rfl := Option.some.inj h
    exact ⟨rfl, rfl, rfl⟩

/-- The name determines source and source id: no source's prefix is another's, and the colon ends
it. -/
theorem key_of_name (h : q.name = q'.name) : q.key = q'.key := by
  have hlist := congrArg String.toList h
  cases q with
  | manual q =>
    cases q' with
    | manual q' =>
      simp [IngestionRequest.name, IngestionRequest.key] at hlist
      simp only [IngestionRequest.key, String.toList_inj.mp hlist]
    | monobank => simp [IngestionRequest.name, IngestionRequest.key] at hlist
  | monobank envelope item =>
    cases q' with
    | manual => simp [IngestionRequest.name, IngestionRequest.key] at hlist
    | monobank envelope' item' =>
      simp [IngestionRequest.name, IngestionRequest.key] at hlist
      simp only [IngestionRequest.key, String.toList_inj.mp hlist]

theorem name_of_key (h : q.key = q'.key) : q.name = q'.name := by
  rw [IngestionRequest.name, IngestionRequest.name, h]

/-! ## Enrichment

Enrichment inserts one accepted transaction after another with `ON CONFLICT (id) DO NOTHING`. Two
that share an id share a row, the first one's. -/

/-- The units of work of accepted transactions, one after another, until one of them raises. -/
def enrichAll (db : Database) :
    List (PipelineEnv × AcceptedTransaction nenv) → Except PipelineError Database
  | [] => .ok db
  | p :: rest => (run p.1 db p.2.event).bind fun db' => enrichAll db' rest

/-- The row of an accepted transaction: it has its id, its owner and its key. Where ids collide, a
row of this id may be another's. -/
structure IsRowOf (r : Transaction) (a : AcceptedTransaction nenv) : Prop where
  id : r.id = a.event.id
  owner : (r.userId, r.accountId) = a.request.owner
  source : TransactionSource.ofText a.event.source = some r.source
  sourceId : r.sourceId = a.event.sourceId

/-- `uuid5` is injective on the names it is given, as a hash is taken to be: only equal names make
equal ids. -/
def InjectiveOn (nenv : NormalizerEnv) (accepted : List (AcceptedTransaction nenv)) : Prop :=
  ∀ a ∈ accepted, ∀ b ∈ accepted,
    nenv.uuid5 a.request.name = nenv.uuid5 b.request.name → a.request.name = b.request.name

/-- Two accepted transactions of different users or accounts have each their own row. -/
def OwnRows (db : Database) (accepted : List (AcceptedTransaction nenv)) : Prop :=
  ∀ a ∈ accepted, ∀ b ∈ accepted, a.request.owner ≠ b.request.owner →
    ∃ r ∈ db.transactions, ∃ r' ∈ db.transactions, r ≠ r' ∧ IsRowOf r a ∧ IsRowOf r' b

/-- No two accepted transactions of different users or accounts share source and source id. -/
def Scoped (accepted : List (AcceptedTransaction nenv)) : Prop :=
  ∀ a ∈ accepted, ∀ b ∈ accepted, a.request.owner ≠ b.request.owner →
    a.request.key ≠ b.request.key

/-- Every accepted transaction is stored, and every row is one's. This is the invariant of the
enrichment: it does not say whose row an id has. -/
structure RowsOf (db : Database) (accepted : List (AcceptedTransaction nenv)) : Prop where
  stored : ∀ a ∈ accepted, db.Stored a.event.id
  row : ∀ r ∈ db.transactions, ∃ a ∈ accepted, IsRowOf r a

theorem AcceptedTransaction.owner_eq (a : AcceptedTransaction nenv) :
    (a.event.userId, a.event.accountId) = a.request.owner := (event_of_request a.accepted).1

/-- **A unit of work** adds the row of its transaction, or finds its id taken. -/
theorem RowsOf.run {db db' : Database} {env : PipelineEnv}
    {accepted : List (AcceptedTransaction nenv)} (h : RowsOf db accepted)
    (hrun : run env db a.event = .ok db') : RowsOf db' (accepted ++ [a]) := by
  have hdb : consume env db a.event = db' := consume_of_run hrun
  refine ⟨fun b hb => ?_, fun r hr => ?_⟩
  · rcases List.mem_append.mp hb with hb | hb
    · rw [← hdb]
      exact consume_stored_mono (h.stored b hb)
    · rw [List.mem_singleton.mp hb]
      exact stored_of_run hrun
  · rw [← hdb] at hr
    have hold : ∀ r ∈ db.transactions, ∃ b ∈ accepted ++ [a], IsRowOf r b := by
      intro r hr
      obtain ⟨b, hb, hrow⟩ := h.row r hr
      exact ⟨b, List.mem_append_left _ hb, hrow⟩
    rcases consume_row_cases hr with hr | ⟨_, source, _, _, _, _, he, rfl⟩ |
      ⟨-, r₀, hr₀, -, _, _, -, rfl⟩
    · exact hold r hr
    · exact ⟨a, List.mem_append_right _ (List.mem_singleton_self a),
        rfl, a.owner_eq, he.source_eq, rfl⟩
    · obtain ⟨b, hb, hrow⟩ := hold r₀ hr₀
      exact ⟨b, hb, hrow.id, hrow.owner, hrow.source, hrow.sourceId⟩

/-- **The run lemma**: the invariant from one accepted transaction to the next. -/
theorem RowsOf.enrichAll {steps : List (PipelineEnv × AcceptedTransaction nenv)} :
    ∀ {db db' : Database} {accepted : List (AcceptedTransaction nenv)}, RowsOf db accepted →
      enrichAll db steps = .ok db' → RowsOf db' (accepted ++ steps.map Prod.snd) := by
  induction steps with
  | nil =>
    intro db db' accepted h hrun
    cases hrun
    rw [List.map_nil, List.append_nil]
    exact h
  | cons p steps ih =>
    intro db db' accepted h hrun
    obtain ⟨db₁, hp, hrun⟩ := exceptBind_eq_ok.mp hrun
    have hrest := ih (h.run hp) hrun
    rwa [List.append_assoc] at hrest

/-- **No accepted transaction is swallowed, exactly when source ids are scoped**: of a finite
sequence of accepted transactions, all enriched, any two of different users or accounts have
each their own row if and only if no two of different users or accounts share source and source
id. -/
theorem ownRows_iff_scoped (steps : List (PipelineEnv × AcceptedTransaction nenv))
    (hinj : InjectiveOn nenv (steps.map Prod.snd)) {db : Database}
    (hrun : enrichAll .empty steps = .ok db) :
    OwnRows db (steps.map Prod.snd) ↔ Scoped (steps.map Prod.snd) := by
  have hrows : RowsOf db (steps.map Prod.snd) := by
    have hempty : RowsOf Database.empty ([] : List (AcceptedTransaction nenv)) :=
      ⟨fun _ ha => absurd ha List.not_mem_nil, fun _ hr => absurd hr KeyedTable.not_mem_empty⟩
    have hall := hempty.enrichAll hrun
    rwa [List.nil_append] at hall
  have hid : ∀ a ∈ steps.map Prod.snd, ∀ b ∈ steps.map Prod.snd,
      a.event.id = b.event.id ↔ a.request.key = b.request.key := by
    intro a ha b hb
    rw [(event_of_request a.accepted).2.2, (event_of_request b.accepted).2.2]
    exact ⟨fun h => key_of_name (hinj a ha b hb h), fun h => by rw [name_of_key h]⟩
  refine ⟨fun hown a ha b hb hne hkey => ?_, fun hscoped a ha b hb hne => ?_⟩
  · obtain ⟨r, hr, r', hr', hrr', hrow, hrow'⟩ := hown a ha b hb hne
    apply hrr'
    apply KeyedTable.eq_of_key_eq hr hr'
    rw [hrow.id, hrow'.id]
    exact (hid a ha b hb).mpr hkey
  · -- the row with the id of a transaction is of one with its key, and so of its owner
    have hits : ∀ a ∈ steps.map Prod.snd, ∃ r ∈ db.transactions, IsRowOf r a := by
      intro a ha
      obtain ⟨r, hr, hra⟩ := hrows.stored a ha
      obtain ⟨c, hc, hrow⟩ := hrows.row r hr
      have hkey := (hid a ha c hc).mp (hra.symm.trans hrow.id)
      have howner : a.request.owner = c.request.owner := by
        by_contra hne
        exact hscoped a ha c hc hne hkey
      have hevent : (a.event.source, a.event.sourceId) = (c.event.source, c.event.sourceId) := by
        rw [(event_of_request a.accepted).2.1, (event_of_request c.accepted).2.1, hkey]
      obtain ⟨hsource, hsourceId⟩ := Prod.mk.inj hevent
      exact ⟨r, hr, hra, hrow.owner.trans howner.symm, hsource ▸ hrow.source,
        hrow.sourceId.trans hsourceId.symm⟩
    obtain ⟨r, hr, hrow⟩ := hits a ha
    obtain ⟨r', hr', hrow'⟩ := hits b hb
    refine ⟨r, hr, r', hr', ?_, hrow, hrow'⟩
    rintro rfl
    exact hne (hrow.owner.symm.trans hrow'.owner)

/-- The ids of the sample requests, as `uuid5` computes them. -/
def sampleKeysEnv : NormalizerEnv where
  uuid5 := fun name =>
    if name = "manual:rent" then 0x26c4d1f3fcc85983b8fd32734953a135
    else if name = "manual:food" then 0xa612a081704157aab848a47587e1259b
    else 0
  pycountry := fun _ => none

/-- The manual accounts of two users. -/
def sampleManualAccounts : IngestionEnv where
  accounts := [⟨20, .manual, 1, some "cash", true⟩, ⟨21, .manual, 2, some "cash", true⟩]
  defaultRateSource := fun _ => none
  rateSources := []

/-- The same accounts, seen from enrichment, with no conversion to do. -/
def sampleManualEnv : PipelineEnv where
  users := [1, 2]
  accounts := [⟨20, 1, "cash", "UAH", none⟩, ⟨21, 2, "cash", "UAH", none⟩]
  convert := fun _ _ => .ok ⟨fun _ => none, []⟩
  scan := id
  scan_perm := scan_id_perm

theorem expense_ne_zero : TransactionDirection.expense ≠ .zero := by decide

/-- A create request with an idempotency key. -/
def sampleCreate (userId accountId : UUID) (key : String) : IngestionRequest :=
  .manual
    { userId := userId
      accountId := accountId
      amountCents := 100
      amount_pos := by decide
      operationCurrencyCode := "UAH"
      description := none
      time := 0
      direction := .expense
      direction_ne_zero := by decide
      mcc := none
      rateSource := none
      idempotencyKey := some key
      uuid4 := "7c9e6679-7425-40de-944b-e07fc1f90ae7" }

/-- A create request that is accepted. -/
def sampleAccepted (userId accountId : UUID) (key : String)
    (h : ((sampleCreate userId accountId key).event? sampleKeysEnv sampleManualAccounts).isSome) :
    PipelineEnv × AcceptedTransaction sampleKeysEnv :=
  (sampleManualEnv,
    { request := sampleCreate userId accountId key
      ienv := sampleManualAccounts
      event := ((sampleCreate userId accountId key).event? sampleKeysEnv
        sampleManualAccounts).get h
      accepted := (Option.some_get h).symm })

/-- Two users with different keys. -/
def sampleScoped : List (PipelineEnv × AcceptedTransaction sampleKeysEnv) :=
  [sampleAccepted 1 20 "rent" rfl, sampleAccepted 2 21 "food" rfl]

/-- Two users with the same key. -/
def sampleUnscoped : List (PipelineEnv × AcceptedTransaction sampleKeysEnv) :=
  [sampleAccepted 1 20 "rent" rfl, sampleAccepted 2 21 "rent" rfl]

/-- Two users with different keys have their rows. -/
theorem ownRows_iff_scoped_two_keys :
    ∃ db, enrichAll .empty sampleScoped = .ok db ∧
      (OwnRows db (sampleScoped.map Prod.snd) ↔ Scoped (sampleScoped.map Prod.snd)) := by
  have hok : (enrichAll .empty sampleScoped).toOption.isSome = true := by decide
  rcases hrun : enrichAll .empty sampleScoped with e | db
  · rw [hrun] at hok
    cases hok
  refine ⟨db, rfl, ownRows_iff_scoped sampleScoped ?_ hrun⟩
  intro a ha b hb hab
  simp only [sampleScoped, List.map_cons, List.map_nil, List.mem_cons, List.not_mem_nil,
    or_false] at ha hb
  rcases ha with rfl | rfl <;> rcases hb with rfl | rfl
  · rfl
  · exact absurd hab (by decide)
  · exact absurd hab (by decide)
  · rfl

/-- The second of two users with the same key has no row. -/
theorem accepted_transaction_swallowed :
    InjectiveOn sampleKeysEnv (sampleUnscoped.map Prod.snd) ∧
    ∃ db, enrichAll .empty sampleUnscoped = .ok db ∧
      ¬ OwnRows db (sampleUnscoped.map Prod.snd) ∧ db.transactions.rows.length = 1 := by
  refine ⟨fun a ha b hb _ => ?_, ?_⟩
  · simp only [sampleUnscoped, List.map_cons, List.map_nil, List.mem_cons, List.not_mem_nil,
      or_false] at ha hb
    rcases ha with rfl | rfl <;> rcases hb with rfl | rfl <;> rfl
  have hrun : (enrichAll .empty sampleUnscoped).toOption.map (fun db =>
      db.transactions.rows.length) = some 1 := by decide
  rcases hdb : enrichAll .empty sampleUnscoped with e | db
  · rw [hdb] at hrun
    cases hrun
  rw [hdb] at hrun
  have hlen := Option.some.inj hrun
  refine ⟨db, rfl, fun hown => ?_, hlen⟩
  obtain ⟨r, hr, r', hr', hne, -, -⟩ := hown (sampleAccepted 1 20 "rent" rfl).2
    (List.mem_cons_self ..) (sampleAccepted 2 21 "rent" rfl).2
    (List.mem_cons_of_mem _ (List.mem_cons_self ..)) (by decide)
  obtain ⟨q, hq⟩ := List.length_eq_one_iff.mp hlen
  rw [KeyedTable.mem_def, hq, List.mem_singleton] at hr hr'
  exact hne (hr.trans hr'.symm)

end Grosh
