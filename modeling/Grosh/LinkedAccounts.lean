import Grosh.Linking

/-!
# The accounts of a linked client

An account is created when its client is linked first, tagged with the client, left without an
integration when the client is unlinked, and bound again when the client is linked again. The calls
considered are those that succeed, and an unlink does so only for a role that may delete
integrations: with the grants of the migrations (`deleteIntegration_denied`) a client that is linked
stays so.

* `Binding.accounts` — what the loop of a link makes of the accounts.
* `accounts_keep_identity` — over any sequence of links and unlinks every bank account of a client
  keeps its one row, and the row follows the client's integration.
-/

namespace Grosh

open Transition ReadCommitted

/-! ## The accounts of a link

A bank account is told by three things: its user, the client it was linked with and its id at
Monobank. They are what a link looks orphans up by. -/

/-- The row of the bank account `x` of the user's client. -/
structure Tagged (userId : UUID) (clientId x : String) (a : LinkedAccount) : Prop where
  source : a.source = .monobank
  user : a.userId = userId
  client : a.clientId = some clientId
  external : a.externalId = some x

theorem Tagged.of_eq {userId : UUID} {clientId x : String} {a a' : LinkedAccount}
    (h : Tagged userId clientId x a) (hs : a'.source = a.source) (hu : a'.userId = a.userId)
    (hc : a'.clientId = a.clientId) (hx : a'.externalId = a.externalId) :
    Tagged userId clientId x a' :=
  ⟨hs.trans h.source, hu.trans h.user, hc.trans h.client, hx.trans h.external⟩

theorem Tagged.external_eq {userId userId' : UUID} {clientId clientId' x x' : String}
    {a : LinkedAccount} (h : Tagged userId clientId x a) (h' : Tagged userId' clientId' x' a) :
    x = x' := Option.some.inj (h.external.symm.trans h'.external)

/-- No two rows are of the same bank account of the same user's client, so that the look-up finds
one row at most. -/
def SoleTags (db : LinkDb) : Prop :=
  ∀ userId clientId x, ∀ a ∈ db.accounts, ∀ a' ∈ db.accounts, Tagged userId clientId x a →
    Tagged userId clientId x a' → a = a'

section Accounts

variable {numericToAlpha : ℤ → Option String} {db db' base d : LinkDb} {call : LinkCall}
  {info : MonobankClientInfo} {r : Integration} {userId rid : UUID} {clientId x : String}
  {a a' o : LinkedAccount} {done : List String} {orphans : List LinkedAccount}

theorem mem_accountKeys {id id' : UUID} :
    LinkKey.account id' ∈ accountKeys id db ↔ id' = id ∧ db.accounts.HasKey id := by
  simp only [accountKeys, List.mem_map, List.mem_filter, decide_eq_true_eq]
  refine ⟨?_, ?_⟩
  · rintro ⟨b, ⟨hb, rfl⟩, heq⟩
    exact ⟨(LinkKey.account.inj heq).symm, b, hb, rfl⟩
  · rintro ⟨rfl, b, hb, rfl⟩
    exact ⟨b, ⟨hb, rfl⟩, rfl⟩

theorem mem_bindAccounts {held : List LinkKey} {integrationId : Option UUID} :
    a ∈ (bindAccounts held integrationId db).accounts ↔
      ∃ b ∈ db.accounts,
        (if LinkKey.account b.id ∈ held then { b with integrationId := integrationId } else b) =
          a := by
  simp only [bindAccounts, KeyedTable.mem_updateWhere, decide_eq_true_eq]

theorem mem_tagAccounts {held : List LinkKey} :
    a ∈ (tagAccounts held clientId db).accounts ↔
      ∃ b ∈ db.accounts,
        (if LinkKey.account b.id ∈ held then { b with clientId := some clientId } else b) = a := by
  simp only [tagAccounts, KeyedTable.mem_updateWhere, decide_eq_true_eq]

/-- The update of one account: its binding is replaced, and no other row is. -/
theorem mem_bindAccounts_one (ho : o ∈ db.accounts) (integrationId : Option UUID)
    (a : LinkedAccount) :
    a ∈ (bindAccounts (accountKeys o.id db) integrationId db).accounts ↔
      a = { o with integrationId := integrationId } ∨ a ∈ db.accounts ∧ a.id ≠ o.id := by
  rw [mem_bindAccounts]
  refine ⟨?_, ?_⟩
  · rintro ⟨b, hb, rfl⟩
    by_cases hid : b.id = o.id
    · obtain rfl := KeyedTable.eq_of_key_eq hb ho hid
      left
      rw [if_pos (mem_accountKeys.mpr ⟨rfl, b, hb, rfl⟩)]
    · right
      rw [if_neg fun h => hid (mem_accountKeys.mp h).1]
      exact ⟨hb, hid⟩
  · rintro (rfl | ⟨ha, hid⟩)
    · exact ⟨o, ho, if_pos (mem_accountKeys.mpr ⟨rfl, o, ho, rfl⟩)⟩
    · exact ⟨a, ha, if_neg fun h => hid (mem_accountKeys.mp h).1⟩

/-- A new account and its tag: it is added, with the client in its config. -/
theorem mem_tagAccounts_insertAccount (hnew : ¬ db.accounts.HasKey o.id) (clientId : String)
    (a : LinkedAccount) :
    a ∈ (tagAccounts (accountKeys o.id (insertAccount o db)) clientId
        (insertAccount o db)).accounts ↔
      a = { o with clientId := some clientId } ∨ a ∈ db.accounts := by
  have hmem : ∀ b, b ∈ (insertAccount o db).accounts ↔ b ∈ db.accounts ∨ b = o := fun b =>
    KeyedTable.mem_insertIgnore_of_not_hasKey hnew
  have hkey : ∀ b : LinkedAccount, LinkKey.account b.id ∈ accountKeys o.id (insertAccount o db) ↔
      b.id = o.id := fun b => mem_accountKeys.trans
    (and_iff_left ⟨o, (hmem o).mpr (Or.inr rfl), rfl⟩)
  have hne : ∀ b ∈ db.accounts, b.id ≠ o.id := fun b hb heq => hnew ⟨b, hb, heq⟩
  rw [mem_tagAccounts]
  refine ⟨?_, ?_⟩
  · rintro ⟨b, hb, rfl⟩
    obtain hb | rfl := (hmem b).mp hb
    · right
      rw [if_neg ((hkey b).not.mpr (hne b hb))]
      exact hb
    · left
      rw [if_pos ((hkey b).mpr rfl)]
  · rintro (rfl | ha)
    · exact ⟨o, (hmem o).mpr (Or.inr rfl), if_pos ((hkey o).mpr rfl)⟩
    · exact ⟨a, (hmem a).mpr (Or.inl ha), if_neg ((hkey a).not.mpr (hne a ha))⟩

/-- The accounts `done` are bound to the integration `rid`, on the way from `base` to `d`. It is the
invariant of the loop over the accounts. -/
structure Binding (userId : UUID) (clientId : String) (rid : UUID) (base : LinkDb)
    (done : List String) (d : LinkDb) : Prop where
  integrations : d.integrations = base.integrations
  kept : ∀ a ∈ base.accounts, a ∈ d.accounts ∨
    (∃ x ∈ done, Tagged userId clientId x a) ∧
      { a with integrationId := some rid } ∈ d.accounts
  origin : ∀ a ∈ d.accounts,
    (a ∈ base.accounts ∧ ∀ x ∈ done, ¬ Tagged userId clientId x a) ∨
      ∃ x ∈ done, Tagged userId clientId x a ∧ a.integrationId = some rid
  made : ∀ x ∈ done, ∃ a ∈ d.accounts, Tagged userId clientId x a
  sole : SoleTags d

theorem binding_nil (h : SoleTags base) : Binding userId clientId rid base [] base :=
  ⟨rfl, fun _ ha => Or.inl ha, fun _ ha => Or.inl ⟨ha, fun _ hx => absurd hx List.not_mem_nil⟩,
    fun _ hx => absurd hx List.not_mem_nil, h⟩

/-- An orphan is bound: the row of the account keeps its id. -/
theorem Binding.rebind (h : Binding userId clientId rid base done d) (hsole : SoleTags base)
    (hx : x ∉ done) (ho : o ∈ base.accounts) (htag : Tagged userId clientId x o) :
    Binding userId clientId rid base (x :: done)
      (bindAccounts (accountKeys o.id d) (some rid) d) := by
  have hod : o ∈ d.accounts := by
    obtain ho | ⟨⟨x', hx', htag'⟩, -⟩ := h.kept o ho
    · exact ho
    · exact absurd (htag.external_eq htag' ▸ hx') hx
  have hmem := mem_bindAccounts_one hod (some rid)
  have hbound : Tagged userId clientId x { o with integrationId := some rid } :=
    htag.of_eq rfl rfl rfl rfl
  refine ⟨h.integrations, fun b hb => ?_, fun b hb => ?_, fun x' hx' => ?_,
    fun u c x' b hb b' hb' ht ht' => ?_⟩
  · by_cases hid : b.id = o.id
    · obtain rfl := KeyedTable.eq_of_key_eq hb ho hid
      exact Or.inr ⟨⟨x, List.mem_cons_self .., htag⟩, (hmem _).mpr (Or.inl rfl)⟩
    · obtain hbd | ⟨⟨x', hx', ht'⟩, hbd⟩ := h.kept b hb
      · exact Or.inl ((hmem b).mpr (Or.inr ⟨hbd, hid⟩))
      · exact Or.inr ⟨⟨x', List.mem_cons_of_mem _ hx', ht'⟩, (hmem _).mpr (Or.inr ⟨hbd, hid⟩)⟩
  · obtain rfl | ⟨hb, hid⟩ := (hmem b).mp hb
    · exact Or.inr ⟨x, List.mem_cons_self .., hbound, rfl⟩
    obtain ⟨hbase, hno⟩ | ⟨x', hx', ht', hr⟩ := h.origin b hb
    · refine Or.inl ⟨hbase, fun x' hx' ht' => ?_⟩
      obtain rfl | hx' := List.mem_cons.mp hx'
      · exact hid (hsole userId clientId x' b hbase o ho ht' htag ▸ rfl)
      · exact hno x' hx' ht'
    · exact Or.inr ⟨x', List.mem_cons_of_mem _ hx', ht', hr⟩
  · obtain rfl | hx' := List.mem_cons.mp hx'
    · exact ⟨_, (hmem _).mpr (Or.inl rfl), hbound⟩
    · obtain ⟨b, hb, ht⟩ := h.made x' hx'
      refine ⟨b, (hmem b).mpr (Or.inr ⟨hb, fun hid => ?_⟩), ht⟩
      obtain rfl := KeyedTable.eq_of_key_eq hb hod hid
      exact hx (htag.external_eq ht ▸ hx')
  · have hout : ∀ b ∈ d.accounts, b.id ≠ o.id → Tagged u c x' b →
        ¬ Tagged u c x' { o with integrationId := some rid } := fun b hb hid ht hto =>
      hid (h.sole u c x' b hb o hod ht (hto.of_eq rfl rfl rfl rfl) ▸ rfl)
    obtain rfl | ⟨hb, hid⟩ := (hmem b).mp hb
    · obtain rfl | ⟨hb', hid'⟩ := (hmem b').mp hb'
      · rfl
      · exact absurd ht (hout b' hb' hid' ht')
    · obtain rfl | ⟨hb', hid'⟩ := (hmem b').mp hb'
      · exact absurd ht' (hout b hb hid ht)
      · exact h.sole u c x' b hb b' hb' ht ht'

/-- A new account is inserted and tagged, where the client had no row of it. -/
theorem Binding.create (h : Binding userId clientId rid base done d) (hx : x ∉ done)
    (hnone : ∀ a ∈ base.accounts, ¬ Tagged userId clientId x a)
    (hnew : ¬ d.accounts.HasKey o.id)
    (htag : Tagged userId clientId x { o with clientId := some clientId })
    (hbound : o.integrationId = some rid) :
    Binding userId clientId rid base (x :: done)
      (tagAccounts (accountKeys o.id (insertAccount o d)) clientId (insertAccount o d)) := by
  have hmem := mem_tagAccounts_insertAccount hnew clientId
  have hno : ∀ b ∈ d.accounts, ¬ Tagged userId clientId x b := by
    intro b hb ht
    obtain ⟨hbase, -⟩ | ⟨x', hx', ht', -⟩ := h.origin b hb
    · exact hnone b hbase ht
    · exact hx (ht.external_eq ht' ▸ hx')
  refine ⟨h.integrations, fun b hb => ?_, fun b hb => ?_, fun x' hx' => ?_,
    fun u c x' b hb b' hb' ht ht' => ?_⟩
  · obtain hbd | ⟨⟨x', hx', ht'⟩, hbd⟩ := h.kept b hb
    · exact Or.inl ((hmem b).mpr (Or.inr hbd))
    · exact Or.inr ⟨⟨x', List.mem_cons_of_mem _ hx', ht'⟩, (hmem _).mpr (Or.inr hbd)⟩
  · obtain rfl | hb := (hmem b).mp hb
    · exact Or.inr ⟨x, List.mem_cons_self .., htag, hbound⟩
    obtain ⟨hbase, hold⟩ | ⟨x', hx', ht', hr⟩ := h.origin b hb
    · refine Or.inl ⟨hbase, fun x' hx' ht' => ?_⟩
      obtain rfl | hx' := List.mem_cons.mp hx'
      · exact hno b hb ht'
      · exact hold x' hx' ht'
    · exact Or.inr ⟨x', List.mem_cons_of_mem _ hx', ht', hr⟩
  · obtain rfl | hx' := List.mem_cons.mp hx'
    · exact ⟨_, (hmem _).mpr (Or.inl rfl), htag⟩
    · obtain ⟨b, hb, ht⟩ := h.made x' hx'
      exact ⟨b, (hmem b).mpr (Or.inr hb), ht⟩
  -- no older account carries the new one's tags
  · have hout : ∀ b ∈ d.accounts, Tagged u c x' b →
        ¬ Tagged u c x' { o with clientId := some clientId } := by
      intro b hb ht hto
      apply hno b hb
      have hu : u = userId := hto.user.symm.trans htag.user
      have hc : c = clientId := Option.some.inj (hto.client.symm.trans htag.client)
      have hxx : x' = x := Option.some.inj (hto.external.symm.trans htag.external)
      rwa [hu, hc, hxx] at ht
    obtain rfl | hb := (hmem b).mp hb
    · obtain rfl | hb' := (hmem b').mp hb'
      · rfl
      · exact absurd ht (hout b' hb' ht')
    · obtain rfl | hb' := (hmem b').mp hb'
      · exact absurd ht' (hout b hb ht)
      · exact h.sole u c x' b hb b' hb' ht ht'

/-- The orphans of a link: every row of the user's client that the link lists, when none is
bound. -/
structure Orphans (userId : UUID) (clientId : String) (base : LinkDb)
    (orphans : List LinkedAccount) (ids : List String) : Prop where
  sub : ∀ o ∈ orphans, o ∈ base.accounts ∧ ∃ x, Tagged userId clientId x o
  all : ∀ x ∈ ids, ∀ a ∈ base.accounts, Tagged userId clientId x a → a ∈ orphans

theorem orphans_findOrphanAccounts {ids : List String}
    (hfree : ∀ a ∈ base.accounts, a.source = .monobank → a.userId = userId →
      a.clientId = some clientId → a.integrationId = none) :
    Orphans userId clientId base (findOrphanAccounts base userId clientId ids) ids := by
  refine ⟨fun o ho => ?_, fun x hx a ha ht => ?_⟩
  · obtain ⟨ho, hcond⟩ := List.mem_filter.mp ho
    obtain ⟨hu, hs, hc, -, x, -, hx⟩ := of_decide_eq_true hcond
    exact ⟨ho, x, hs, hu, hc, hx⟩
  · refine List.mem_filter.mpr ⟨ha, decide_eq_true ?_⟩
    exact ⟨ht.user, ht.source, ht.client, hfree a ha ht.source ht.user ht.client, x, hx,
      ht.external⟩

/-- **The loop over the accounts** binds each of them. -/
theorem Binding.accounts (hsole : SoleTags base)
    (horphans : Orphans call.userId info.clientId base orphans
      (info.accounts.map MonobankAccount.id)) (rest : List MonobankAccount) :
    ∀ (n : ℕ) (done : List String) (d : LinkDb),
      Binding call.userId info.clientId rid base done d →
      (∀ m ∈ rest, m.id ∈ info.accounts.map MonobankAccount.id) →
      (rest.map MonobankAccount.id).Nodup → (∀ m ∈ rest, m.id ∉ done) →
      (accountsTx numericToAlpha call info (some rid) orphans n rest).result d = some db' →
      ∃ done', (∀ x, x ∈ done' ↔ x ∈ done ∨ x ∈ rest.map MonobankAccount.id) ∧
        Binding call.userId info.clientId rid base done' db' := by
  induction rest with
  | nil =>
    intro n done d h _ _ _ hres
    obtain rfl := Option.some.inj hres
    exact ⟨done, fun x => by simp, h⟩
  | cons m rest ih =>
    intro n done d h hids hnodup hout hres
    rw [List.map_cons, List.nodup_cons] at hnodup
    have hm : m.id ∉ done := hout m (List.mem_cons_self ..)
    -- the rest of the loop, once this account is bound
    have hnext : ∀ d', Binding call.userId info.clientId rid base (m.id :: done) d' →
        (accountsTx numericToAlpha call info (some rid) orphans (n + 1) rest).result d' =
          some db' →
        ∃ done', (∀ x, x ∈ done' ↔ x ∈ done ∨ x ∈ (m :: rest).map MonobankAccount.id) ∧
          Binding call.userId info.clientId rid base done' db' := by
      intro d' h' hres'
      have hout' : ∀ m' ∈ rest, m'.id ∉ m.id :: done := by
        intro m' hm'
        rw [List.mem_cons]
        rintro (heq | hdone)
        · exact hnodup.1 (heq ▸ List.mem_map_of_mem hm')
        · exact hout m' (List.mem_cons_of_mem _ hm') hdone
      obtain ⟨done', hmem, hdone⟩ := ih (n + 1) (m.id :: done) d' h'
        (fun m' hm' => hids m' (List.mem_cons_of_mem _ hm')) hnodup.2 hout' hres'
      refine ⟨done', fun x => (hmem x).trans ?_, hdone⟩
      rw [List.mem_cons, List.map_cons, List.mem_cons, or_assoc, or_left_comm]
    simp only [accountsTx] at hres
    split at hres
    · cases hres
    next currencyCode _ =>
    split at hres
    · next o horphan =>
      have ho : o ∈ orphans := List.mem_reverse.mp (List.mem_of_find?_eq_some horphan)
      have hext : o.externalId = some m.id := by simpa using List.find?_some horphan
      obtain ⟨hob, x, htag⟩ := horphans.sub o ho
      obtain rfl : x = m.id := Option.some.inj (htag.external.symm.trans hext)
      exact hnext _ (h.rebind hsole hm hob htag) hres
    · next horphan =>
      simp only [Program.result] at hres
      split at hres
      · cases hres
      next hnew =>
      refine hnext _ (h.create (o := newAccount call (some rid) n m currencyCode) hm
        (fun a ha ht => ?_) hnew ⟨rfl, rfl, rfl, rfl⟩ rfl) hres
      have ha' := horphans.all m.id (hids m (List.mem_cons_self ..)) a ha ht
      have hno := List.find?_eq_none.mp horphan a (List.mem_reverse.mpr ha')
      exact hno (decide_eq_true ht.external)

end Accounts

/-! ## One call

A link or an unlink, of any user. The accounts of the other users and clients are not touched. -/

/-- The account ids of every client: each call lists those of its client, and no id twice. -/
def Stable (ids : String → List String) : LinkStep → Prop
  | .link call => ∀ info, call.info = some info →
      (info.accounts.map MonobankAccount.id).Nodup ∧
        ∀ x, x ∈ info.accounts.map MonobankAccount.id ↔ x ∈ ids info.clientId
  | .unlink _ _ => True
  | .reregister _ _ _ => False
  | .markError _ => False

/-- Every bank account of a client has one row; it is bound to the integration of its user and
client if there is one, and to no other. -/
structure AccountsBound (ids : String → List String) (db : LinkDb) : Prop where
  active : ∀ r ∈ db.integrations, r.status = .active
  sole : SoleTags db
  tagged : ∀ a ∈ db.accounts, a.source = .monobank →
    ∃ clientId, ∃ x ∈ ids clientId, Tagged a.userId clientId x a
  complete : ∀ r ∈ db.integrations, ∀ x ∈ ids r.config.monobankClientId,
    ∃ a ∈ db.accounts, Tagged r.userId r.config.monobankClientId x a
  linked : ∀ r ∈ db.integrations, ∀ a ∈ db.accounts, ∀ x,
    Tagged r.userId r.config.monobankClientId x a → a.integrationId = some r.id
  own : ∀ a ∈ db.accounts, ∀ id, a.integrationId = some id →
    ∃ r ∈ db.integrations, r.id = id ∧ ∃ x, Tagged r.userId r.config.monobankClientId x a

/-- Every row is still there, for the same bank account. Its binding may be another. -/
def Persists (db db' : LinkDb) : Prop :=
  ∀ a ∈ db.accounts, ∃ a' ∈ db'.accounts, a'.id = a.id ∧ a'.source = a.source ∧
    a'.userId = a.userId ∧ a'.clientId = a.clientId ∧ a'.externalId = a.externalId

section Step

variable {ids : String → List String} {numericToAlpha : ℤ → Option String} {db db' : LinkDb}
  {call : LinkCall} {info : MonobankClientInfo} {userId id : UUID}

theorem Persists.refl : Persists db db := fun a ha => ⟨a, ha, rfl, rfl, rfl, rfl, rfl⟩

theorem Persists.trans {db'' : LinkDb} (h : Persists db db') (h' : Persists db' db'') :
    Persists db db'' := by
  intro a ha
  obtain ⟨a', ha', hid, hs, hu, hc, hx⟩ := h a ha
  obtain ⟨a'', ha'', hid', hs', hu', hc', hx'⟩ := h' a' ha'
  exact ⟨a'', ha'', hid'.trans hid, hs'.trans hs, hu'.trans hu, hc'.trans hc, hx'.trans hx⟩

/-- The row of a bank account is still its row, with the same id. -/
theorem Persists.tagged {clientId x : String} {a : LinkedAccount} (h : Persists db db')
    (ha : a ∈ db.accounts) (ht : Tagged userId clientId x a) :
    ∃ a' ∈ db'.accounts, a'.id = a.id ∧ Tagged userId clientId x a' := by
  obtain ⟨a', ha', hid, hs, hu, hc, hx⟩ := h a ha
  exact ⟨a', ha', hid, ht.of_eq hs hu hc hx⟩

theorem accountsBound_start {accounts : KeyedTable LinkedAccount.id}
    (hmanual : ∀ a ∈ accounts, a.source = .manual ∧ a.integrationId = none) :
    AccountsBound ids (LinkDb.start accounts) := by
  have hno : ∀ a ∈ accounts, a.source ≠ .monobank := fun a ha hs => by
    rw [(hmanual a ha).1] at hs
    cases hs
  refine ⟨fun r hr => absurd hr List.not_mem_nil,
    fun _ _ _ a ha _ _ ht => absurd ht.source (hno a ha), fun a ha hs => absurd hs (hno a ha),
    fun r hr => absurd hr List.not_mem_nil, fun r hr => absurd hr List.not_mem_nil,
    fun a ha id hid => ?_⟩
  rw [(hmanual a ha).2] at hid
  cases hid

/-- What a link that goes through does, where every integration is active: it rotates the token of a
client that is linked, or links one that is not. -/
theorem link_cases (hactive : ∀ r ∈ db.integrations, r.status = .active)
    (h : (linkTx numericToAlpha call).result db = some db') :
    ∃ info, call.info = some info ∧
      ((∃ r ∈ db.integrations, r.userId = call.userId ∧ r.config.monobankClientId = info.clientId ∧
        db' = updateIntegrationToken (integrationKeys r.id db) call.encryptedToken
          call.keyVersion db) ∨
      ¬ db.integrations.Clash (newIntegration call info) ∧
        (accountsTx numericToAlpha call info (some call.newIntegrationId)
          (findOrphanAccounts db call.userId info.clientId
            (info.accounts.map MonobankAccount.id)) 0 info.accounts).result
          (insertIntegration (newIntegration call info) db) = some db') := by
  rcases hinfo : call.info with _ | info
  · simp only [linkTx, hinfo] at h
    cases h
  refine ⟨info, rfl, ?_⟩
  simp only [linkTx, hinfo, Program.result] at h
  rcases hget : getIntegrationByClientId db call.userId info.clientId with _ | r
  swap
  · obtain ⟨hr, hu, -, hc⟩ := getIntegrationByClientId_eq_some hget
    simp only [hget, checkSameClient, rotateIntegrationTx, Program.result, Bool.false_eq_true,
      if_false] at h
    exact Or.inl ⟨r, hr, hu, hc, (Option.some.inj h).symm⟩
  right
  -- every integration is active, so none of the slot means that the slot is free
  have hslot : (call.userId, info.clientId) ∉ db.integrations.rows.map Integration.slot := by
    intro hm
    obtain ⟨r, hr, heq⟩ := List.mem_map.mp hm
    have hno := List.find?_eq_none.mp hget r hr
    exact hno (decide_eq_true ⟨congrArg Prod.fst heq, hactive r hr, congrArg Prod.snd heq⟩)
  simp only [hget, checkSameClient, Program.result] at h
  rcases hany : getAnyActiveIntegration db call.userId with _ | other
  swap
  · simp only [hany, checkOtherClient] at h
    cases h
  have hfree : freeSlot call.userId info.clientId db = [.slot call.userId info.clientId] :=
    if_neg hslot
  simp only [hany, checkOtherClient, createIntegrationTx, Program.result, hfree,
    Bool.false_eq_true, if_false, reduceCtorEq] at h
  split at h
  · cases h
  next hclash =>
  refine ⟨hclash, ?_⟩
  simp only [Program.result, bindTx] at h
  split at h
  · cases h
  · exact h

/-- The tokens of an integration are nobody else's business: no account depends on them. -/
theorem AccountsBound.rotate (h : AccountsBound ids db) {held : List LinkKey} {token : String}
    {version : ℤ} : AccountsBound ids (updateIntegrationToken held token version db) := by
  have hback : ∀ r ∈ (updateIntegrationToken held token version db).integrations,
      ∃ r₀ ∈ db.integrations, r.id = r₀.id ∧ r.userId = r₀.userId ∧ r.status = r₀.status ∧
        r.config.monobankClientId = r₀.config.monobankClientId := by
    intro r hr
    obtain ⟨r₀, hr₀, rfl⟩ := mem_updateIntegrationToken.mp hr
    refine ⟨r₀, hr₀, ?_⟩
    split
    · exact ⟨rfl, rfl, rfl, rfl⟩
    · exact ⟨rfl, rfl, rfl, rfl⟩
  have hforth : ∀ r₀ ∈ db.integrations,
      ∃ r ∈ (updateIntegrationToken held token version db).integrations, r.id = r₀.id ∧
        r.userId = r₀.userId ∧ r.config.monobankClientId = r₀.config.monobankClientId := by
    intro r₀ hr₀
    refine ⟨_, mem_updateIntegrationToken.mpr ⟨r₀, hr₀, rfl⟩, ?_⟩
    split
    · exact ⟨rfl, rfl, rfl⟩
    · exact ⟨rfl, rfl, rfl⟩
  refine ⟨fun r hr => ?_, h.sole, h.tagged, fun r hr x hx => ?_, fun r hr a ha x ht => ?_,
    fun a ha id hid => ?_⟩
  · obtain ⟨r₀, hr₀, -, -, hs, -⟩ := hback r hr
    exact hs.trans (h.active r₀ hr₀)
  · obtain ⟨r₀, hr₀, -, hu, -, hc⟩ := hback r hr
    rw [hu, hc]
    exact h.complete r₀ hr₀ x (hc ▸ hx)
  · obtain ⟨r₀, hr₀, hid, hu, -, hc⟩ := hback r hr
    rw [hu, hc] at ht
    rw [hid]
    exact h.linked r₀ hr₀ a ha x ht
  · obtain ⟨r₀, hr₀, hid₀, x, ht⟩ := h.own a ha id hid
    obtain ⟨r, hr, hid', hu, hc⟩ := hforth r₀ hr₀
    refine ⟨r, hr, hid'.trans hid₀, x, ?_⟩
    rw [hu, hc]
    exact ht

/-- **A client is linked** that was not: its orphans are bound, and the accounts it has no rows of
are created. -/
theorem AccountsBound.create (h : AccountsBound ids db)
    (hnodup : (info.accounts.map MonobankAccount.id).Nodup)
    (hids : ∀ x, x ∈ info.accounts.map MonobankAccount.id ↔ x ∈ ids info.clientId)
    (hclash : ¬ db.integrations.Clash (newIntegration call info))
    (hres : (accountsTx numericToAlpha call info (some call.newIntegrationId)
      (findOrphanAccounts db call.userId info.clientId (info.accounts.map MonobankAccount.id)) 0
      info.accounts).result (insertIntegration (newIntegration call info) db) = some db') :
    AccountsBound ids db' ∧ Persists db db' ∧
      ∀ x ∈ info.accounts.map MonobankAccount.id,
        ∃ a ∈ db'.accounts, Tagged call.userId info.clientId x a := by
  have hslot : ∀ r ∈ db.integrations, r.userId = call.userId →
      r.config.monobankClientId ≠ info.clientId := fun r hr hu hc =>
    hclash (Or.inr (Or.inl (List.mem_map.mpr ⟨r, hr, Prod.ext hu hc⟩)))
  -- no account of the client is bound
  have hfree : ∀ a ∈ db.accounts, a.source = .monobank → a.userId = call.userId →
      a.clientId = some info.clientId → a.integrationId = none := by
    intro a ha _ hu hc
    rcases hid : a.integrationId with _ | id
    · rfl
    obtain ⟨r, hr, -, x, ht⟩ := h.own a ha id hid
    exact absurd (Option.some.inj (ht.client.symm.trans hc)) (hslot r hr (ht.user.symm.trans hu))
  have hsole : SoleTags (insertIntegration (newIntegration call info) db) := h.sole
  obtain ⟨done, hdone, hb⟩ := Binding.accounts hsole (orphans_findOrphanAccounts hfree)
    info.accounts 0 [] (insertIntegration (newIntegration call info) db) (binding_nil hsole)
    (fun m hm => List.mem_map_of_mem hm) hnodup (fun _ _ => List.not_mem_nil) hres
  have hdone' : ∀ x, x ∈ done ↔ x ∈ ids info.clientId := fun x =>
    (hdone x).trans (by simpa using hids x)
  have hints : ∀ r, r ∈ db'.integrations ↔ r ∈ db.integrations ∨ r = newIntegration call info := by
    intro r
    rw [hb.integrations]
    exact IntegrationTable.mem_insert hclash
  have hpersists : Persists db db' := by
    intro a ha
    obtain ha' | ⟨-, ha'⟩ := hb.kept a ha
    · exact ⟨a, ha', rfl, rfl, rfl, rfl, rfl⟩
    · exact ⟨_, ha', rfl, rfl, rfl, rfl, rfl⟩
  refine ⟨⟨fun r hr => ?_, hb.sole, fun a ha hs => ?_, fun r hr x hx => ?_,
    fun r hr a ha x ht => ?_, fun a ha id hid => ?_⟩, hpersists, fun x hx =>
      hb.made x ((hdone x).mpr (Or.inr hx))⟩
  · obtain hr | rfl := (hints r).mp hr
    · exact h.active r hr
    · rfl
  · obtain ⟨hbase, -⟩ | ⟨x, hx, ht, -⟩ := hb.origin a ha
    · exact h.tagged a hbase hs
    · exact ⟨info.clientId, x, (hdone' x).mp hx, ht.source, rfl, ht.client, ht.external⟩
  · obtain hr | rfl := (hints r).mp hr
    · obtain ⟨a, ha, ht⟩ := h.complete r hr x hx
      obtain ⟨a', ha', -, ht'⟩ := hpersists.tagged ha ht
      exact ⟨a', ha', ht'⟩
    · exact hb.made x ((hdone' x).mpr hx)
  · obtain hr | rfl := (hints r).mp hr
    · obtain ⟨hbase, -⟩ | ⟨x', -, ht', -⟩ := hb.origin a ha
      · exact h.linked r hr a hbase x ht
      · exact absurd (Option.some.inj (ht.client.symm.trans ht'.client))
          (hslot r hr (ht.user.symm.trans ht'.user))
    · obtain ⟨hbase, hno⟩ | ⟨x', -, -, hbound⟩ := hb.origin a ha
      · obtain ⟨c, x', hx', ht'⟩ := h.tagged a hbase ht.source
        obtain rfl : c = info.clientId := Option.some.inj (ht'.client.symm.trans ht.client)
        obtain rfl := ht'.external_eq ht
        exact absurd ht (hno x' ((hdone' x').mpr hx'))
      · exact hbound
  · obtain ⟨hbase, -⟩ | ⟨x, -, ht, hbound⟩ := hb.origin a ha
    · obtain ⟨r, hr, hrid, hx⟩ := h.own a hbase id hid
      exact ⟨r, (hints r).mpr (Or.inl hr), hrid, hx⟩
    · exact ⟨_, (hints _).mpr (Or.inr rfl), Option.some.inj (hbound.symm.trans hid), x, ht⟩

/-- The tables after an unlink: the row is gone, and its accounts are left by `ON DELETE SET
NULL`. -/
def unlinked (id : UUID) (db : LinkDb) : LinkDb :=
  bindAccounts (boundKeys id db) none (deleteIntegrations (integrationKeys id db) db)

/-- What an unlink that goes through does, and to an integration of the user only. -/
theorem unlink_cases (h : (unlinkTx userId id).result db = some db') : db' = unlinked id db := by
  simp only [unlinkTx, Program.result] at h
  split at h
  · cases h
  · simp only [Program.result, Bool.false_eq_true, if_false] at h
    split at h
    · cases h
    · exact (Option.some.inj h).symm

theorem mem_unlinked_integrations {r : Integration} :
    r ∈ (unlinked id db).integrations ↔ r ∈ db.integrations ∧ r.id ≠ id := by
  refine IntegrationTable.mem_delete.trans (and_congr_right fun hr => ?_)
  rw [decide_eq_false_iff_not]
  refine not_congr ⟨fun hk => ?_, fun hid => ?_⟩
  · obtain ⟨r', hr', heq⟩ := List.mem_map.mp hk
    rw [← LinkKey.integration.inj heq]
    exact of_decide_eq_true (List.mem_filter.mp hr').2
  · exact List.mem_map.mpr ⟨r, List.mem_filter.mpr ⟨hr, decide_eq_true hid⟩, rfl⟩

theorem mem_boundKeys {b : LinkedAccount} (hb : b ∈ db.accounts) :
    LinkKey.account b.id ∈ boundKeys id db ↔ b.integrationId = some id := by
  simp only [boundKeys, List.mem_map, List.mem_filter, decide_eq_true_eq]
  refine ⟨?_, fun hid => ⟨b, ⟨hb, hid⟩, rfl⟩⟩
  rintro ⟨b', ⟨hb', hid⟩, heq⟩
  obtain rfl := KeyedTable.eq_of_key_eq hb' hb (LinkKey.account.inj heq)
  exact hid

/-- A row after an unlink is what it was before, but for its binding. -/
theorem of_mem_unlinked {a : LinkedAccount} (ha : a ∈ (unlinked id db).accounts) :
    ∃ b ∈ db.accounts, (b.integrationId = some id ∧ a = { b with integrationId := none }) ∨
      b.integrationId ≠ some id ∧ a = b := by
  obtain ⟨b, hb, rfl⟩ := mem_bindAccounts.mp ha
  have hb' : b ∈ db.accounts := hb
  refine ⟨b, hb', ?_⟩
  by_cases hid : b.integrationId = some id
  · rw [if_pos ((mem_boundKeys hb').mpr hid)]
    exact Or.inl ⟨hid, rfl⟩
  · rw [if_neg ((mem_boundKeys hb').not.mpr hid)]
    exact Or.inr ⟨hid, rfl⟩

theorem persists_unlinked : Persists db (unlinked id db) := by
  intro b hb
  refine ⟨_, mem_bindAccounts.mpr ⟨b, hb, rfl⟩, ?_⟩
  split
  · exact ⟨rfl, rfl, rfl, rfl, rfl⟩
  · exact ⟨rfl, rfl, rfl, rfl, rfl⟩

theorem SoleTags.unlinked (h : SoleTags db) : SoleTags (unlinked id db) := by
  intro u c x a ha a' ha' ht ht'
  obtain ⟨b, hb, hcase⟩ := of_mem_unlinked ha
  obtain ⟨b', hb', hcase'⟩ := of_mem_unlinked ha'
  have hbt : Tagged u c x b := by
    obtain ⟨-, rfl⟩ | ⟨-, rfl⟩ := hcase
    · exact ht.of_eq rfl rfl rfl rfl
    · exact ht
  have hbt' : Tagged u c x b' := by
    obtain ⟨-, rfl⟩ | ⟨-, rfl⟩ := hcase'
    · exact ht'.of_eq rfl rfl rfl rfl
    · exact ht'
  obtain rfl := h u c x b hb b' hb' hbt hbt'
  obtain ⟨hid, rfl⟩ | ⟨hid, rfl⟩ := hcase
  · obtain ⟨-, rfl⟩ | ⟨hid', -⟩ := hcase'
    · rfl
    · exact absurd hid hid'
  · obtain ⟨hid', -⟩ | ⟨-, rfl⟩ := hcase'
    · exact absurd hid' hid
    · rfl

/-- **A client is unlinked**, and its accounts are left without an integration. -/
theorem AccountsBound.unlink (h : AccountsBound ids db) : AccountsBound ids (unlinked id db) := by
  refine ⟨fun r hr => h.active r (mem_unlinked_integrations.mp hr).1, h.sole.unlinked,
    fun a ha hs => ?_, fun r hr x hx => ?_, fun r hr a ha x ht => ?_, fun a ha i hi => ?_⟩
  · obtain ⟨b, hb, ⟨-, rfl⟩ | ⟨-, rfl⟩⟩ := of_mem_unlinked ha
    · obtain ⟨c, x, hx, ht⟩ := h.tagged b hb hs
      exact ⟨c, x, hx, ht.of_eq rfl rfl rfl rfl⟩
    · exact h.tagged a hb hs
  · obtain ⟨a, ha, ht⟩ := h.complete r (mem_unlinked_integrations.mp hr).1 x hx
    obtain ⟨a', ha', -, ht'⟩ := persists_unlinked.tagged ha ht
    exact ⟨a', ha', ht'⟩
  · obtain ⟨hr, hne⟩ := mem_unlinked_integrations.mp hr
    obtain ⟨b, hb, ⟨hid, rfl⟩ | ⟨-, rfl⟩⟩ := of_mem_unlinked ha
    · have hlinked := h.linked r hr b hb x (ht.of_eq rfl rfl rfl rfl)
      exact absurd (Option.some.inj (hlinked.symm.trans hid)) hne
    · exact h.linked r hr a hb x ht
  · obtain ⟨b, hb, ⟨-, rfl⟩ | ⟨hid, rfl⟩⟩ := of_mem_unlinked ha
    · cases hi
    · obtain ⟨r, hr, hrid, hx⟩ := h.own a hb i hi
      refine ⟨r, mem_unlinked_integrations.mpr ⟨hr, fun hne => hid ?_⟩, hrid, hx⟩
      rw [hi, ← hrid, hne]

/-- **A call** of stable clients: the accounts stay bound as they should be, and no row is lost. -/
theorem AccountsBound.step {l : LinkStep} (h : AccountsBound ids db) (hl : Stable ids l)
    (hs : linkStep numericToAlpha db l = some db') :
    AccountsBound ids db' ∧ Persists db db' := by
  cases l with
  | link call =>
    obtain ⟨info, hinfo, ⟨r, -, -, -, rfl⟩ | ⟨hclash, hres⟩⟩ := link_cases h.active hs
    · exact ⟨h.rotate, Persists.refl⟩
    · obtain ⟨hnodup, hids⟩ := hl info hinfo
      obtain ⟨hb, hp, -⟩ := h.create hnodup hids hclash hres
      exact ⟨hb, hp⟩
  | unlink userId id =>
    obtain rfl := unlink_cases hs
    exact ⟨h.unlink, persists_unlinked⟩
  | reregister id secret url => exact hl.elim
  | markError id => exact hl.elim

end Step

/-! ## One call after another

By induction on the calls. Who has been linked once keeps the row, whatever comes later. -/

/-- Some call of the sequence has linked the bank account `x` of the user's client. -/
def EverLinked (steps : List LinkStep) (userId : UUID) (clientId x : String) : Prop :=
  ∃ call info, .link call ∈ steps ∧ call.info = some info ∧ call.userId = userId ∧
    info.clientId = clientId ∧ x ∈ info.accounts.map MonobankAccount.id

section Run

variable {ids : String → List String} {numericToAlpha : ℤ → Option String} {db db' : LinkDb}

/-- What a link leaves of the accounts it lists: a row of each, of the user and the client. -/
theorem AccountsBound.link_made {call : LinkCall} {info : MonobankClientInfo} {x : String}
    (h : AccountsBound ids db) (hl : Stable ids (.link call)) (hinfo : call.info = some info)
    (hs : linkStep numericToAlpha db (.link call) = some db')
    (hx : x ∈ info.accounts.map MonobankAccount.id) :
    ∃ a ∈ db'.accounts, Tagged call.userId info.clientId x a := by
  obtain ⟨hnodup, hids⟩ := hl info hinfo
  obtain ⟨info', hinfo', hcase⟩ := link_cases h.active hs
  obtain rfl := Option.some.inj (hinfo.symm.trans hinfo')
  obtain ⟨r, hr, hu, hc, rfl⟩ | ⟨hclash, hres⟩ := hcase
  · obtain ⟨a, ha, ht⟩ := h.complete r hr x (hc ▸ (hids x).mp hx)
    rw [hu, hc] at ht
    exact ⟨a, ha, ht⟩
  · obtain ⟨-, -, hmade⟩ := h.create hnodup hids hclash hres
    exact hmade x hx

/-- **A run** of calls of stable clients: every account that was ever linked still has its row. -/
theorem AccountsBound.run (steps : List LinkStep) :
    ∀ {db : LinkDb}, AccountsBound ids db → (∀ l ∈ steps, Stable ids l) →
      exec (linkStep numericToAlpha) db steps = some db' →
      AccountsBound ids db' ∧ Persists db db' ∧
        ∀ userId clientId x, EverLinked steps userId clientId x →
          ∃ a ∈ db'.accounts, Tagged userId clientId x a := by
  induction steps with
  | nil =>
    intro db h _ he
    obtain rfl := Option.some.inj he
    refine ⟨h, Persists.refl, ?_⟩
    rintro _ _ _ ⟨call, info, hm, -⟩
    exact absurd hm List.not_mem_nil
  | cons l steps ih =>
    intro db h hl he
    obtain ⟨db₁, hs, he₁⟩ := exec_cons_eq_some he
    have hl₁ := hl l (List.mem_cons_self ..)
    obtain ⟨h₁, hp₁⟩ := h.step hl₁ hs
    obtain ⟨h', hp', hmade⟩ := ih h₁ (fun l' hl' => hl l' (List.mem_cons_of_mem _ hl')) he₁
    refine ⟨h', hp₁.trans hp', ?_⟩
    rintro userId clientId x ⟨call, info, hm, hinfo, hu, hc, hx⟩
    obtain rfl | hm := List.mem_cons.mp hm
    · obtain ⟨a, ha, ht⟩ := h.link_made hl₁ hinfo hs hx
      rw [hu, hc] at ht
      obtain ⟨a', ha', -, ht'⟩ := hp'.tagged ha ht
      exact ⟨a', ha', ht'⟩
    · exact hmade userId clientId x ⟨call, info, hm, hinfo, hu, hc, hx⟩

/-- **Accounts keep their identity across relinking**: after any sequence of links and unlinks that
go through, of any users and clients whose account ids are distinct and stable, there is one row
for every bank account that was ever linked for a user and a client, and the row has the same id
after any further such calls; while the client is linked the row is bound to the active integration
of the user and the client; and no row is bound to an integration of another user or client. -/
theorem accounts_keep_identity (numericToAlpha : ℤ → Option String)
    (accounts : KeyedTable LinkedAccount.id)
    (hmanual : ∀ a ∈ accounts, a.source = .manual ∧ a.integrationId = none)
    (ids : String → List String) (steps later : List LinkStep)
    (hsteps : ∀ l ∈ steps, Stable ids l) (hlater : ∀ l ∈ later, Stable ids l)
    (he : exec (linkStep numericToAlpha) (LinkDb.start accounts) steps = some db)
    (he' : exec (linkStep numericToAlpha) db later = some db') :
    (∀ userId clientId x, EverLinked steps userId clientId x →
      ∃ a ∈ db.accounts, Tagged userId clientId x a ∧
        (∀ b ∈ db.accounts, Tagged userId clientId x b → b = a) ∧
        ∃ a' ∈ db'.accounts, Tagged userId clientId x a' ∧ a'.id = a.id ∧
          ∀ b ∈ db'.accounts, Tagged userId clientId x b → b = a') ∧
    (∀ r ∈ db.integrations, r.status = .active → ∀ a ∈ db.accounts, ∀ x,
      Tagged r.userId r.config.monobankClientId x a → a.integrationId = some r.id) ∧
    ∀ a ∈ db.accounts, ∀ id, a.integrationId = some id →
      ∃ r ∈ db.integrations, r.id = id ∧ a.userId = r.userId ∧
        a.clientId = some r.config.monobankClientId := by
  obtain ⟨h, -, hmade⟩ := AccountsBound.run steps (accountsBound_start hmanual) hsteps he
  obtain ⟨h', hp, -⟩ := AccountsBound.run later h hlater he'
  refine ⟨fun userId clientId x hx => ?_, fun r hr _ a ha x ht => h.linked r hr a ha x ht,
    fun a ha id hid => ?_⟩
  · obtain ⟨a, ha, ht⟩ := hmade userId clientId x hx
    obtain ⟨a', ha', hid, ht'⟩ := hp.tagged ha ht
    exact ⟨a, ha, ht, fun b hb htb => h.sole _ _ _ b hb a ha htb ht, a', ha', ht', hid,
      fun b hb htb => h'.sole _ _ _ b hb a' ha' htb ht'⟩
  · obtain ⟨r, hr, hrid, x, ht⟩ := h.own a ha id hid
    exact ⟨r, hr, hrid, ht.user, ht.client⟩

end Run

/-- A second client, with two cards. -/
def secondClient : MonobankClientInfo :=
  ⟨"d", [⟨"card", "black", 980, none, [], "UA2"⟩, ⟨"white", "white", 980, none, [], "UA3"⟩]⟩

/-- A user links the second client. -/
def secondLink (n : ℕ) (userId : UUID) : LinkCall :=
  { sampleLink n with userId := userId, info := some secondClient }

/-- The cards of the two clients. -/
def sampleCards (clientId : String) : List String :=
  if clientId = "c" then ["card"] else ["card", "white"]

theorem stable_sampleLink (n : ℕ) : Stable sampleCards (.link (sampleLink n)) := by
  intro info hinfo
  obtain rfl := Option.some.inj hinfo
  exact ⟨by decide, fun x => Iff.rfl⟩

theorem stable_secondLink (n : ℕ) (userId : UUID) :
    Stable sampleCards (.link (secondLink n userId)) := by
  intro info hinfo
  obtain rfl := Option.some.inj hinfo
  exact ⟨by decide, fun x => Iff.rfl⟩

/-- User 1 links the first client, then the second instead; user 2 links the second as well. -/
def sampleMove : List LinkStep :=
  [.link (sampleLink 2), .unlink 1 2, .link (secondLink 3 1), .link (secondLink 4 2)]

/-- User 1 goes back to the first. -/
def sampleReturn : List LinkStep := [.unlink 1 3, .link (sampleLink 5)]

/-- Two clients and two users: every card keeps its row, and the rows of the clients that are linked
are bound to their integrations. -/
theorem accounts_keep_identity_relinked :
    ∃ db db', exec (linkStep fun _ => some "UAH") (LinkDb.start .empty) sampleMove = some db ∧
      exec (linkStep fun _ => some "UAH") db sampleReturn = some db' ∧
      (∀ p ∈ [(1, "c", "card"), (1, "d", "white"), (2, "d", "card")],
        ∃ a ∈ db.accounts, ∃ a' ∈ db'.accounts, Tagged p.1 p.2.1 p.2.2 a' ∧ a'.id = a.id ∧
          ∀ b ∈ db'.accounts, Tagged p.1 p.2.1 p.2.2 b → b = a') ∧
      ∀ r ∈ db.integrations, r.status = .active → ∀ a ∈ db.accounts, ∀ x,
        Tagged r.userId r.config.monobankClientId x a → a.integrationId = some r.id := by
  have hsteps : ∀ l ∈ sampleMove, Stable sampleCards l :=
    List.forall_mem_cons.mpr ⟨stable_sampleLink 2, List.forall_mem_cons.mpr ⟨trivial,
      List.forall_mem_cons.mpr ⟨stable_secondLink 3 1,
        List.forall_mem_singleton.mpr (stable_secondLink 4 2)⟩⟩⟩
  have hlater : ∀ l ∈ sampleReturn, Stable sampleCards l :=
    List.forall_mem_cons.mpr ⟨trivial, List.forall_mem_singleton.mpr (stable_sampleLink 5)⟩
  have hrun : ((exec (linkStep fun _ => some "UAH") (LinkDb.start .empty) sampleMove).bind
      fun db => exec (linkStep fun _ => some "UAH") db sampleReturn).isSome = true := by
    decide +kernel
  obtain ⟨db', hrun⟩ := Option.isSome_iff_exists.mp hrun
  obtain ⟨db, he, he'⟩ := Option.bind_eq_some_iff.mp hrun
  obtain ⟨hone, hbound, -⟩ := accounts_keep_identity (fun _ => some "UAH") .empty
    (fun a ha => absurd ha KeyedTable.not_mem_empty) sampleCards sampleMove sampleReturn hsteps
    hlater he he'
  -- every card of the list has been linked in the first steps
  have hever : ∀ p ∈ [(1, "c", "card"), (1, "d", "white"), (2, "d", "card")],
      EverLinked sampleMove p.1 p.2.1 p.2.2 := by
    refine List.forall_mem_cons.mpr ⟨?_, List.forall_mem_cons.mpr ⟨?_,
      List.forall_mem_singleton.mpr ?_⟩⟩
    · exact ⟨sampleLink 2, sampleClient, by simp [sampleMove], rfl, rfl, rfl, by decide⟩
    · exact ⟨secondLink 3 1, secondClient, by simp [sampleMove], rfl, rfl, rfl, by decide⟩
    · exact ⟨secondLink 4 2, secondClient, by simp [sampleMove], rfl, rfl, rfl, by decide⟩
  refine ⟨db, db', he, he', fun p hp => ?_, hbound⟩
  obtain ⟨a, ha, -, -, a', ha', ht', hid, hsole⟩ := hone _ _ _ (hever p hp)
  exact ⟨a, ha, a', ha', ht', hid, hsole⟩

end Grosh
