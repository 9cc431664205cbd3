import Grosh.Lib.TransactionLog
import Grosh.Linking

/-!
# Linking at the same time

A link looks for another active integration of its user before it inserts its own, and the unique
index covers the rows of one client only: two links of different clients that have both looked
before either commits both go through.

The transactions of the sequential model are run as they are, statement by statement, with any
number of them at once. That two of one client do not both go through is for the unique index to
prevent; for different clients there is nothing but the look-up at the start.

* `exec_linking_alone` — a request left alone is a call of the sequential model.
* `one_active_iff` — over any interleaving of links and unlinks a user has at most one active
  integration, exactly if every link that commits a new one would still find none.
-/

namespace Grosh

open Transition ReadCommitted

/-! ## The requests

Links and unlinks as transactions of the read-committed system, with a crash possible anywhere. What
each may commit is said before any interleaving is looked at. -/

/-- What a client asks for: to link a bank client, or to remove an integration. -/
inductive LinkRequest : Type where
  | link (call : LinkCall)
  | unlink (userId id : UUID)

/-- Its transaction, statement by statement. -/
def LinkRequest.tx (numericToAlpha : ℤ → Option String) : LinkRequest → Program LinkDb LinkKey
  | .link call => linkTx numericToAlpha call
  | .unlink userId id => unlinkTx userId id

/-- At most one active integration of the user, of whichever client. -/
def OneActive (userId : UUID) (db : LinkDb) : Prop :=
  ∀ r ∈ db.integrations, ∀ r' ∈ db.integrations, r.userId = userId → r'.userId = userId →
    r.status = .active → r'.status = .active → r = r'

/-- The transaction has inserted an integration of the user: one is in its view that is not
committed yet. -/
def HasInserted {τ : Type*} (userId : UUID) (s : State LinkDb LinkKey τ) (i : τ) : Prop :=
  ∃ r ∈ (s.view i).integrations.rows,
    r.userId = userId ∧ r.id ∉ s.db.integrations.rows.map Integration.id

/-- Where a transaction that has inserted an integration of the user commits,
`get_any_active_integration` still finds none. -/
def StillUnlinked {τ : Type*} (userId : UUID) (s : State LinkDb LinkKey τ) (l : Label τ) : Prop :=
  s.commits l = true → HasInserted userId s l.who → getAnyActiveIntegration s.db userId = none

instance {τ : Type*} (userId : UUID) (s : State LinkDb LinkKey τ) (i : τ) :
    Decidable (HasInserted userId s i) :=
  inferInstanceAs (Decidable (∃ r ∈ (s.view i).integrations.rows, _))

instance {τ : Type*} (userId : UUID) (s : State LinkDb LinkKey τ) (l : Label τ) :
    Decidable (StillUnlinked userId s l) :=
  inferInstanceAs (Decidable (_ → _ → _))

/-! ## What a request can commit

The change of a request as a function of the tables it will meet at its commit, whatever it has
read. Two relations say what such a change can be. -/

section Effects

variable {numericToAlpha : ℤ → Option String} {call : LinkCall} {info : MonobankClientInfo}
  {change : LinkDb → LinkDb} {r r' : Integration}

/-- The same integration: neither its owner nor its status has changed. The token may have. -/
structure SameOwner (r r' : Integration) : Prop where
  id : r.id = r'.id
  userId : r.userId = r'.userId
  status : r.status = r'.status

theorem SameOwner.refl : SameOwner r r := ⟨rfl, rfl, rfl⟩

theorem SameOwner.trans {r'' : Integration} (h : SameOwner r r') (h' : SameOwner r' r'') :
    SameOwner r r'' :=
  ⟨h.id.trans h'.id, h.userId.trans h'.userId, h.status.trans h'.status⟩

/-- A link takes no integration away, and adds its own at most. -/
structure Links (call : LinkCall) (change : LinkDb → LinkDb) : Prop where
  kept : ∀ db, ∀ r ∈ db.integrations, ∃ r' ∈ (change db).integrations, SameOwner r r'
  origin : ∀ db, ∀ r ∈ (change db).integrations, (∃ r' ∈ db.integrations, SameOwner r r') ∨
    r.id = call.newIntegrationId ∧ r.userId = call.userId ∧ r.status = .active

theorem links_id : Links call id :=
  ⟨fun _ r hr => ⟨r, hr, .refl⟩, fun _ r hr => Or.inl ⟨r, hr, .refl⟩⟩

/-- A write that leaves the integrations alone changes nothing about what a link can commit. -/
theorem Links.frame (h : Links call change) (f : LinkDb → LinkDb)
    (hf : ∀ db, (f db).integrations = db.integrations) : Links call fun db => f (change db) := by
  refine ⟨fun db r hr => ?_, fun db r hr => ?_⟩
  · rw [hf]
    exact h.kept db r hr
  · rw [hf] at hr
    exact h.origin db r hr

/-- A new token: the row keeps its owner and its status. -/
theorem Links.rotate (h : Links call change) (held : List LinkKey) (token : String)
    (version : ℤ) : Links call fun db => updateIntegrationToken held token version (change db) := by
  refine ⟨fun db r hr => ?_, fun db r hr => ?_⟩
  · obtain ⟨r', hr', hsame⟩ := h.kept db r hr
    refine ⟨_, mem_updateIntegrationToken.mpr ⟨r', hr', rfl⟩, hsame.trans ?_⟩
    split
    · exact ⟨rfl, rfl, rfl⟩
    · exact .refl
  · obtain ⟨r', hr', rfl⟩ := mem_updateIntegrationToken.mp hr
    have hsame : SameOwner (if LinkKey.integration r'.id ∈ held then
        { r' with config := r'.config.rotate token version } else r') r' := by
      split
      · exact ⟨rfl, rfl, rfl⟩
      · exact .refl
    obtain ⟨r₀, hr₀, h₀⟩ | ⟨hid, hu, hs⟩ := h.origin db r' hr'
    · exact Or.inl ⟨r₀, hr₀, hsame.trans h₀⟩
    · exact Or.inr ⟨hsame.id.trans hid, hsame.userId.trans hu, hsame.status.trans hs⟩

/-- The `INSERT` adds the link's own row, active and of its own user. -/
theorem Links.insert (h : Links call change) :
    Links call fun db => insertIntegration (newIntegration call info) (change db) := by
  refine ⟨fun db r hr => ?_, fun db r hr => ?_⟩
  · obtain ⟨r', hr', hsame⟩ := h.kept db r hr
    exact ⟨r', IntegrationTable.mem_insert_of_mem hr', hsame⟩
  · obtain hr | rfl := IntegrationTable.mem_of_mem_insert hr
    · exact h.origin db r hr
    · exact Or.inr ⟨rfl, rfl, rfl⟩

theorem links_accountsTx (integrationId : Option UUID) (orphans : List LinkedAccount)
    (rest : List MonobankAccount) :
    ∀ (n : ℕ) {change : LinkDb → LinkDb}, Links call change →
      (accountsTx numericToAlpha call info integrationId orphans n rest).Commits (Links call)
        change := by
  induction rest with
  | nil =>
    intro n change h
    simp only [accountsTx]
    split
    · exact trivial
    · exact h
  | cons account rest ih =>
    intro n change h
    simp only [accountsTx]
    split
    · exact trivial
    split
    · intro _ held _ _
      exact ih _ (h.frame (bindAccounts held integrationId) fun _ => rfl)
    · intro d
      show Program.Commits _ (if d.accounts.HasKey (call.newAccountId n) then .rollback else _) _
      split
      · exact trivial
      intro _ held _ _
      exact ih _ ((h.frame (insertAccount _) fun _ => rfl).frame (tagAccounts held info.clientId)
        fun _ => rfl)

theorem links_bindTx (integrationId : Option UUID) (h : Links call change) :
    (bindTx numericToAlpha call info integrationId).Commits (Links call) change := by
  intro d
  show Program.Commits _ (if Dangling info d integrationId then .rollback else _) _
  split
  · exact trivial
  · exact links_accountsTx _ _ _ _ h

theorem links_rotateIntegrationTx (existing : Integration) (h : Links call change) :
    (rotateIntegrationTx call existing).Commits (Links call) change :=
  fun _ held _ _ _ => h.rotate held call.encryptedToken call.keyVersion

/-- **What a link can commit**, along every way through its transaction. -/
theorem links_linkTx : (linkTx numericToAlpha call).Commits (Links call) id := by
  rcases hinfo : call.info with _ | info
  · simp only [linkTx, hinfo]
    exact trivial
  simp only [linkTx, hinfo]
  intro d
  show (checkSameClient numericToAlpha call info
    (getIntegrationByClientId d call.userId info.clientId)).Commits _ _
  rcases getIntegrationByClientId d call.userId info.clientId with _ | existing
  swap
  · exact links_rotateIntegrationTx existing links_id
  intro d
  show (checkOtherClient numericToAlpha call info
    (getAnyActiveIntegration d call.userId)).Commits _ _
  rcases getAnyActiveIntegration d call.userId with _ | other
  swap
  · exact trivial
  intro _ held _ _
  show Program.Commits _ (if held = [] then _ else _) _
  split
  · simp only [conflictTx, Program.Commits]
    intro _ d
    split
    · exact links_rotateIntegrationTx _ links_id
    · exact links_bindTx _ links_id
  · intro d
    show Program.Commits _ (if d.integrations.Clash (newIntegration call info) then _ else _) _
    split
    · exact trivial
    · exact links_bindTx _ links_id.insert

/-- An unlink adds no integration, and changes none that it leaves. -/
def Unlinks (change : LinkDb → LinkDb) : Prop :=
  ∀ db, ∀ r ∈ (change db).integrations, r ∈ db.integrations

/-- **What an unlink can commit**, along every way through its transaction. -/
theorem unlinks_unlinkTx {userId integrationId : UUID} :
    (unlinkTx userId integrationId).Commits Unlinks id := by
  simp only [unlinkTx, Program.Commits]
  intro d
  split
  · exact trivial
  intro _ held _ _
  show Program.Commits _ (if held = [] then .rollback else _) _
  split
  · exact trivial
  · exact fun _ _ _ _ db r hr => (IntegrationTable.mem_delete.mp hr).1

/-- What a request may commit, by its kind. -/
def LinkRequest.Allowed : LinkRequest → (LinkDb → LinkDb) → Prop
  | .link call => Links call
  | .unlink _ _ => Unlinks

theorem LinkRequest.commits_tx (q : LinkRequest) : (q.tx numericToAlpha).Commits q.Allowed id := by
  cases q with
  | link call => exact links_linkTx
  | unlink userId integrationId => exact unlinks_unlinkTx

end Effects

/-! ## A commit

Only a commit changes what others see. Whether it leaves one active integration at most depends on
what is committed at that moment, not on what the request has read. -/

section Commit

variable {call : LinkCall} {change : LinkDb → LinkDb} {userId : UUID} {db : LinkDb}
  {r r' : Integration}

theorem getAnyActiveIntegration_eq_none :
    getAnyActiveIntegration db userId = none ↔
      ∀ r ∈ db.integrations, r.userId = userId → r.status ≠ .active := by
  simp only [getAnyActiveIntegration, List.find?_eq_none, decide_eq_true_eq, not_and]
  exact Iff.rfl

/-- An unlink leaves at most one: it adds none. -/
theorem Unlinks.oneActive (h : Unlinks change) (hone : OneActive userId db) :
    OneActive userId (change db) :=
  fun r hr r' hr' => hone r (h db r hr) r' (h db r' hr')

/-- A row of the link's view whose id is committed is the committed row, with the same owner and
status. -/
theorem Links.sameOwner (h : Links call change) (hr : r ∈ (change db).integrations)
    (hid : r.id ∈ db.integrations.rows.map Integration.id) :
    ∃ r₀ ∈ db.integrations, SameOwner r r₀ := by
  obtain ⟨r₀, hr₀, heq⟩ := List.mem_map.mp hid
  obtain ⟨r', hr', hsame⟩ := h.kept db r₀ hr₀
  obtain rfl := IntegrationTable.eq_of_id_eq hr' hr (hsame.id.symm.trans heq)
  exact ⟨r₀, hr₀, hsame.id.symm, hsame.userId.symm, hsame.status.symm⟩

/-- A row of the link's view whose id is not committed is the link's own, and it is active. -/
theorem Links.own (h : Links call change) (hr : r ∈ (change db).integrations)
    (hid : r.id ∉ db.integrations.rows.map Integration.id) :
    r.id = call.newIntegrationId ∧ r.status = .active := by
  obtain ⟨r₀, hr₀, hsame⟩ | ⟨hnew, -, hs⟩ := h.origin db r hr
  · exact absurd (List.mem_map.mpr ⟨r₀, hr₀, hsame.id.symm⟩) hid
  · exact ⟨hnew, hs⟩

/-- **A link leaves at most one**, exactly if it has inserted none or there is none. -/
theorem Links.oneActive_iff (h : Links call change) (hone : OneActive userId db) :
    OneActive userId (change db) ↔
      ((∃ r ∈ (change db).integrations.rows,
        r.userId = userId ∧ r.id ∉ db.integrations.rows.map Integration.id) →
        getAnyActiveIntegration db userId = none) := by
  rw [getAnyActiveIntegration_eq_none]
  refine ⟨?_, fun hfree r hr r' hr' hu hu' hs hs' => ?_⟩
  · rintro hone' ⟨r, hr, hu, hid⟩ r₀ hr₀ hu₀ hs₀
    obtain ⟨-, hs⟩ := h.own hr hid
    obtain ⟨r', hr', hsame⟩ := h.kept db r₀ hr₀
    have heq : r' = r := hone' r' hr' r hr (hsame.userId.symm.trans hu₀) hu
      (hsame.status.symm.trans hs₀) hs
    exact hid (List.mem_map.mpr ⟨r₀, hr₀, heq ▸ hsame.id⟩)
  -- two active rows: both are committed, or both are the link's own
  have hboth : ∀ a ∈ (change db).integrations, ∀ b ∈ (change db).integrations,
      a.userId = userId → b.userId = userId → a.status = .active →
      a.id ∈ db.integrations.rows.map Integration.id →
      b.id ∈ db.integrations.rows.map Integration.id := by
    intro a ha b hb hua hub hsa hida
    by_contra hidb
    obtain ⟨a₀, ha₀, hsame⟩ := h.sameOwner ha hida
    exact hfree ⟨b, hb, hub, hidb⟩ a₀ ha₀ (hsame.userId.symm.trans hua)
      (hsame.status.symm.trans hsa)
  apply IntegrationTable.eq_of_id_eq hr hr'
  by_cases hid : r.id ∈ db.integrations.rows.map Integration.id
  · obtain ⟨a, ha, hsame⟩ := h.sameOwner hr hid
    obtain ⟨a', ha', hsame'⟩ := h.sameOwner hr' (hboth r hr r' hr' hu hu' hs hid)
    have heq : a = a' := hone a ha a' ha' (hsame.userId.symm.trans hu)
      (hsame'.userId.symm.trans hu') (hsame.status.symm.trans hs) (hsame'.status.symm.trans hs')
    rw [hsame.id, hsame'.id, heq]
  · have hid' : r'.id ∉ db.integrations.rows.map Integration.id := fun hid' =>
      hid (hboth r' hr' r hr hu' hu hs' hid')
    rw [(h.own hr hid).1, (h.own hr' hid').1]

end Commit

/-! ## Every run

The step lemma over all interleavings; and the transactions alone, which do what the calls of the
sequential model do. -/

variable {τ : Type*} [DecidableEq τ]

/-- The requests about to start, on tables that are committed. -/
def linkings (numericToAlpha : ℤ → Option String) (q : τ → LinkRequest) (db : LinkDb) :
    State LinkDb LinkKey τ :=
  .start db fun i => (q i).tx numericToAlpha

/-- The request as a call after the others, for the sequential model. -/
def LinkRequest.step : LinkRequest → LinkStep
  | .link call => .link call
  | .unlink userId id => .unlink userId id

/-- **A request that is left alone** ends, and leaves what its call leaves: the two models agree
where nothing is interleaved. -/
theorem exec_linking_alone (numericToAlpha : ℤ → Option String) (q : τ → LinkRequest)
    (db : LinkDb) (i : τ) :
    ∃ labels s', exec State.step (linkings numericToAlpha q db) labels = some s' ∧
      s'.db = (linkStep numericToAlpha db (q i).step).getD db ∧
      ∃ b, (s'.tx i).phase = .ended b := by
  obtain ⟨labels, s', he, hdb, hend⟩ := State.exec_alone ((q i).tx numericToAlpha)
    (linkings numericToAlpha q db) (fun _ => Or.inl rfl) rfl
  refine ⟨labels, s', he, ?_, hend⟩
  have hresult : ((q i).tx numericToAlpha).result db = linkStep numericToAlpha db (q i).step := by
    cases q i with
    | link call => rfl
    | unlink userId id => rfl
  rw [← hresult]
  exact hdb.trans (Program.alone_eq_result _ _ _)

/-- What every request can still commit. It is the invariant of a run. -/
def LinkingsAt (q : τ → LinkRequest) (s : State LinkDb LinkKey τ) : Prop :=
  ∀ i, (s.tx i).phase.Commits (q i).Allowed (s.tx i).change

/-- **A step** from at most one active integration: it leaves at most one exactly if it commits no
link too late. -/
theorem LinkingsAt.oneActive_iff {q : τ → LinkRequest} {s s' : State LinkDb LinkKey τ}
    {l : Label τ} {userId : UUID} (h : LinkingsAt q s) (hone : OneActive userId s.db)
    (hs : s.step l = some s') : OneActive userId s'.db ↔ StillUnlinked userId s l := by
  rcases hc : s.commits l with _ | _
  · have hdb : s'.db = s.db := by
      obtain hdb | ⟨i, rfl, hp, -⟩ := State.db_step hs
      · exact hdb
      · rw [State.commits_eq_true.mpr ⟨i, rfl, hp⟩] at hc
        cases hc
    rw [hdb]
    apply iff_of_true hone
    intro hcom
    rw [hc] at hcom
    cases hcom
  obtain ⟨i, rfl, hp⟩ := State.commits_eq_true.mp hc
  have hdb : s'.db = (s.tx i).change s.db := by
    simp only [State.step, State.runStep, hp] at hs
    rw [← Option.some.inj hs]
    rfl
  have hallowed : (q i).Allowed (s.tx i).change := by
    have hcommits := h i
    rw [hp] at hcommits
    exact hcommits
  rw [hdb, StillUnlinked, forall_prop_of_true hc]
  cases hq : q i with
  | link call =>
    rw [hq] at hallowed
    exact Links.oneActive_iff hallowed hone
  | unlink user integrationId =>
    rw [hq] at hallowed
    apply iff_of_true (Unlinks.oneActive hallowed hone)
    rintro ⟨r, hr, -, hid⟩
    exact absurd (List.mem_map_of_mem (hallowed s.db r hr)) hid

/-- **A user has at most one active integration, exactly if no link commits a second one**: in every
interleaving of links and unlinks, of any users and clients, with requests that crash, the user has
at most one active integration in every committed state, if and only if
`get_any_active_integration` finds none whenever a link commits that has inserted an integration of
the user. -/
theorem one_active_iff (numericToAlpha : ℤ → Option String) (q : τ → LinkRequest) (db : LinkDb)
    (userId : UUID) (hone : OneActive userId db) (labels : List (Label τ)) :
    Always State.step (fun s => OneActive userId s.db) (linkings numericToAlpha q db) labels ↔
      Along State.step (StillUnlinked userId) (linkings numericToAlpha q db) labels := by
  have hstep : ∀ s l s', LinkingsAt q s → State.step s l = some s' → LinkingsAt q s' :=
    fun s l s' h hs => Phase.Commits.step h hs
  refine always_iff_along hstep (fun s l s' h hone hs => h.oneActive_iff hone hs)
    (fun s l hs hc => ?_) (fun i => (q i).commits_tx) hone
  -- a commit is always enabled
  obtain ⟨i, rfl, hp⟩ := State.commits_eq_true.mp hc
  simp only [State.step, State.runStep, hp] at hs
  cases hs

/-! ## Two clients

One user with two bank clients: a link that has looked too early goes through. -/

/-- A second client of the user, with a card of its own. -/
def otherClient : MonobankClientInfo := ⟨"d", [⟨"card", "black", 980, none, [], "UA2"⟩]⟩

/-- The user links both clients. -/
def twoClients : Bool → LinkRequest
  | false => .link (sampleLink 2)
  | true => .link { sampleLink 3 with info := some otherClient }

/-- One link after the other: the second is refused. -/
theorem one_active_iff_in_turn :
    Always State.step (fun s => OneActive 1 s.db)
      (linkings (fun _ => some "UAH") twoClients (LinkDb.start .empty))
      (List.replicate 15 (.run false) ++ List.replicate 3 (.run true)) := by
  refine (one_active_iff (fun _ => some "UAH") twoClients (LinkDb.start .empty) 1
    (fun r hr => absurd hr List.not_mem_nil) _).mpr ?_
  decide +kernel

/-- The two links look before either commits, and both commit. -/
theorem two_clients_linked :
    ∃ s, exec State.step (linkings (fun _ => some "UAH") twoClients (LinkDb.start .empty))
        (List.replicate 2 (.run true) ++ List.replicate 15 (.run false) ++
          List.replicate 13 (.run true)) = some s ∧
      ¬ OneActive 1 s.db := by
  have hrun : ((exec State.step
      (linkings (fun _ => some "UAH") twoClients (LinkDb.start .empty))
      (List.replicate 2 (.run true) ++ List.replicate 15 (.run false) ++
        List.replicate 13 (.run true))).map fun s =>
      s.db.integrations.rows.map fun r => (r.id, r.userId, r.status)) =
      some [(2, 1, .active), (3, 1, .active)] := by
    decide +kernel
  obtain ⟨s, he, hrows⟩ := Option.map_eq_some_iff.mp hrun
  refine ⟨s, he, fun hone => ?_⟩
  have hmem : ∀ x ∈ [((2 : UUID), (1 : UUID), IntegrationStatus.active), (3, 1, .active)],
      ∃ r ∈ s.db.integrations, (r.id, r.userId, r.status) = x := by
    rw [← hrows]
    exact fun x hx => List.mem_map.mp hx
  obtain ⟨r, hr, heq⟩ := hmem (2, 1, .active) (by decide)
  obtain ⟨r', hr', heq'⟩ := hmem (3, 1, .active) (by decide)
  obtain ⟨hid, hu, hs⟩ : r.id = 2 ∧ r.userId = 1 ∧ r.status = .active := by simpa using heq
  obtain ⟨hid', hu', hs'⟩ : r'.id = 3 ∧ r'.userId = 1 ∧ r'.status = .active := by
    simpa using heq'
  have hsame := hone r hr r' hr' hu hu' hs hs'
  rw [hsame, hid'] at hid
  cases hid

end Grosh
