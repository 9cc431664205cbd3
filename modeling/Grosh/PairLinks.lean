import Grosh.StoredRows

/-!
# The pair-link invariant

`related_transaction_id` links the two legs of a transfer. Whatever events arrive, in
whatever order, redelivered or rolled back, the links of the reachable tables form a
symmetric relation between fitting legs, and no leg keeps an `unpaired_*` anomaly.

* `PairLinked` — the invariant, over the two tables;
* `PairLinked.persist_plain`, `PairLinked.claim_persist` — the two writes of a run keep it;
* `PairLinked.consume` — the step; `pairLinked_deliverAll` — every reachable state.

A `Delivery` carries the tables its run reads, so accounts and rates may change between
runs.
-/

namespace Grosh

/-! ## The invariant

The five facts about the links are kept together, since a step that keeps one needs others: that no
two rows share a partner follows from the symmetry, and the symmetry from that a claimed row was
free. -/

/-- Two rows that may be the legs of one transfer: of one user, on two accounts, in opposite
directions, close in time and with amounts that match from the side of the one that arrived
second. -/
structure Legs (a b : Transaction) : Prop where
  user : a.userId = b.userId
  account : a.accountId ≠ b.accountId
  mcc : a.mcc = some wireTransfer ∧ b.mcc = some wireTransfer
  direction : a.direction = .income ∧ b.direction = .expense ∨
    a.direction = .expense ∧ b.direction = .income
  window : a.time - 2 * second ≤ b.time ∧ b.time ≤ a.time + 2 * second
  /-- the cross-match of the candidate query, from the leg that arrived second -/
  amounts : amountsMatch a.amountCents a.operationAmountCents b.amountCents
      b.operationAmountCents = true ∨
    amountsMatch b.amountCents b.operationAmountCents a.amountCents
      a.operationAmountCents = true
  pairBlock : ∃ pair, a.pairBlock = some pair ∧ b.pairBlock = some pair

theorem Legs.symm {a b : Transaction} (h : Legs a b) : Legs b a where
  user := h.user.symm
  account := h.account.symm
  mcc := ⟨h.mcc.2, h.mcc.1⟩
  direction := by
    rcases h.direction with ⟨h1, h2⟩ | ⟨h1, h2⟩
    · exact Or.inr ⟨h2, h1⟩
    · exact Or.inl ⟨h2, h1⟩
  window := ⟨Int.sub_right_le_of_le_add h.window.2, Int.le_add_of_sub_right_le h.window.1⟩
  amounts := h.amounts.symm
  pairBlock := by
    obtain ⟨pair, ha, hb⟩ := h.pairBlock
    exact ⟨pair, hb, ha⟩

/-- The link of a row, if it has one, leads to a row whose link leads back. It is the symmetry of
the links, seen from one row. -/
def LinksBack (db : Database) (a : Transaction) : Prop :=
  ∀ p, a.relatedTransactionId = some p →
    ∃ b ∈ db.transactions, b.id = p ∧ b.relatedTransactionId = some a.id

instance (db : Database) (a : Transaction) : Decidable (LinksBack db a) :=
  inferInstanceAs (Decidable (∀ p ∈ a.relatedTransactionId,
    ∃ b ∈ db.transactions.rows, b.id = p ∧ b.relatedTransactionId = some a.id))

/-- The links of the tables: they are symmetric, lead to no row itself, join fitting legs, and go
with the category and the anomalies. It holds in every state that enrichment reaches. -/
structure PairLinked (db : Database) : Prop where
  /-- a link points to a row that points back -/
  symmetric : ∀ a ∈ db.transactions, LinksBack db a
  /-- no row is its own partner -/
  irreflexive : ∀ a ∈ db.transactions, a.relatedTransactionId ≠ some a.id
  /-- no two rows share a partner -/
  injective : ∀ a ∈ db.transactions, ∀ b ∈ db.transactions,
    a.relatedTransactionId.isSome → a.relatedTransactionId = b.relatedTransactionId → a = b
  /-- the category is `transfer` exactly on linked rows -/
  special : ∀ a ∈ db.transactions,
    a.specialCategory = some .transfer ↔ a.relatedTransactionId.isSome
  /-- linked rows fit together -/
  legs : ∀ a ∈ db.transactions, ∀ b ∈ db.transactions,
    a.relatedTransactionId = some b.id → Legs a b
  /-- a paired row has no transient anomaly -/
  noUnpaired : ∀ a ∈ db.transactions, a.relatedTransactionId.isSome →
    ∀ x ∈ db.anomalies, x.transactionId = a.id → x.reasonCode.isUnpaired = false

/-- The first two facts of the invariant give the third. -/
theorem injective_of_symmetric {db : Database}
    (hs : ∀ a ∈ db.transactions, LinksBack db a)
    {a b : Transaction} (ha : a ∈ db.transactions) (hb : b ∈ db.transactions)
    (hl : a.relatedTransactionId.isSome) (he : a.relatedTransactionId = b.relatedTransactionId) :
    a = b := by
  obtain ⟨p, hp⟩ := Option.isSome_iff_exists.mp hl
  obtain ⟨c, hc, hcp, hca⟩ := hs a ha p hp
  obtain ⟨c', hc', hcp', hcb⟩ := hs b hb p (he ▸ hp)
  obtain rfl := KeyedTable.eq_of_key_eq hc hc' (hcp.trans hcp'.symm)
  exact KeyedTable.eq_of_key_eq ha hb (Option.some.inj (hca.symm.trans hcb))

theorem pairLinked_empty : PairLinked .empty where
  symmetric := fun _ ha => absurd ha KeyedTable.not_mem_empty
  irreflexive := fun _ ha => absurd ha KeyedTable.not_mem_empty
  injective := fun _ ha => absurd ha KeyedTable.not_mem_empty
  special := fun _ ha => absurd ha KeyedTable.not_mem_empty
  legs := fun _ ha => absurd ha KeyedTable.not_mem_empty
  noUnpaired := fun _ ha => absurd ha KeyedTable.not_mem_empty

/-! ## The two writes

A unit of work writes one new row, or a new row and the row it claims. The invariant is proved for
each write, and the cases of a run are put together from them. -/

variable {env : PipelineEnv} {db db' : Database} {tx : NormalizedTransaction}

/-- A new row without a partner disturbs no link. -/
theorem linksBack_persist {row a : Transaction} {anomalies : List AnomalyRecord}
    (hf : ¬ db.Stored row.id) (hrel : row.relatedTransactionId = none)
    (ha : a ∈ (db.persist row anomalies).transactions)
    (hold : a ∈ db.transactions → LinksBack db a) : LinksBack (db.persist row anomalies) a := by
  intro p hp
  rcases (Database.mem_persist hf).mp ha with ha | rfl
  · obtain ⟨b, hb, hbp, hba⟩ := hold ha p hp
    exact ⟨b, (Database.mem_persist hf).mpr (Or.inl hb), hbp, hba⟩
  · rw [hrel] at hp
    cases hp

/-- A claim of a free row links it with the new one and disturbs no other link: no row pointed to
either before. -/
theorem linksBack_claim_persist {r row a : Transaction} {metadata : Json}
    {anomalies : List AnomalyRecord} (hr : r ∈ db.transactions) (hf : ¬ db.Stored row.id)
    (hfree : r.relatedTransactionId = none) (hrel : row.relatedTransactionId = some r.id)
    (ha : a ∈ ((db.claim r.id row.id metadata).persist row anomalies).transactions)
    (hold : a ∈ db.transactions → LinksBack db a) :
    LinksBack ((db.claim r.id row.id metadata).persist row anomalies) a := by
  intro p hp
  rcases (Database.mem_claim_persist hr hf).mp ha with rfl | rfl | ⟨ha, -⟩
  · rw [hrel] at hp
    exact ⟨_, (Database.mem_claim_persist hr hf).mpr (Or.inr (Or.inl rfl)),
      Option.some.inj hp, rfl⟩
  · exact ⟨row, (Database.mem_claim_persist hr hf).mpr (Or.inl rfl), Option.some.inj hp, hrel⟩
  · obtain ⟨b, hb, hbp, hba⟩ := hold ha p hp
    -- the partner of an old row is linked, so it is not the row that was free
    have hbr : b.id ≠ r.id := by
      intro he
      rw [KeyedTable.eq_of_key_eq hb hr he, hfree] at hba
      cases hba
    exact ⟨b, (Database.mem_claim_persist hr hf).mpr (Or.inr (Or.inr ⟨hb, hbr⟩)), hbp, hba⟩

/-- A new row without a partner keeps the invariant, if its anomalies are its own. -/
theorem PairLinked.persist_plain (h : PairLinked db) {row : Transaction}
    {anomalies : List AnomalyRecord} (hf : ¬ db.Stored row.id)
    (hrel : row.relatedTransactionId = none) (hspec : row.specialCategory = none)
    (hstamp : ∀ a ∈ anomalies, a.transactionId = row.id) :
    PairLinked (db.persist row anomalies) := by
  have hold : ∀ r ∈ (db.persist row anomalies).transactions, r.relatedTransactionId.isSome →
      r ∈ db.transactions := by
    intro r hr hl
    rcases (Database.mem_persist hf).mp hr with hr | rfl
    · exact hr
    · rw [hrel] at hl
      cases hl
  have hsym : ∀ a ∈ (db.persist row anomalies).transactions,
      LinksBack (db.persist row anomalies) a :=
    fun a ha => linksBack_persist hf hrel ha (h.symmetric a)
  refine ⟨hsym, ?_, fun a ha b hb => injective_of_symmetric hsym ha hb, ?_, ?_, ?_⟩
  · intro a ha hp
    exact h.irreflexive a (hold a ha (Option.isSome_iff_exists.mpr ⟨_, hp⟩)) hp
  · intro a ha
    rcases (Database.mem_persist hf).mp ha with ha | rfl
    · exact h.special a ha
    · simp [hrel, hspec]
  · intro a ha b hb hab
    have hl : a.relatedTransactionId.isSome := Option.isSome_iff_exists.mpr ⟨_, hab⟩
    have ha' := hold a ha hl
    obtain ⟨c, hc, hcb, -⟩ := h.symmetric a ha' _ hab
    rcases (Database.mem_persist hf).mp hb with hb | rfl
    · exact h.legs a ha' b hb hab
    · exact absurd (hcb ▸ KeyedTable.hasKey_of_mem hc) hf
  · intro a ha hl x hx hxa
    have ha' := hold a ha hl
    rcases Database.mem_persist_anomalies hx with hx | hx
    · exact h.noUnpaired a ha' hl x hx hxa
    · exact absurd (hstamp x hx ▸ hxa ▸ KeyedTable.hasKey_of_mem ha') hf

/-- A new row that claims a free one keeps the invariant, if the two fit. The unpaired anomalies of
both are deleted with the claim. -/
theorem PairLinked.claim_persist (h : PairLinked db) {r row : Transaction} {metadata : Json}
    {anomalies : List AnomalyRecord} (hr : r ∈ db.transactions) (hf : ¬ db.Stored row.id)
    (hfree : r.relatedTransactionId = none) (hrel : row.relatedTransactionId = some r.id)
    (hspec : row.specialCategory = some .transfer)
    (hlegs : Legs row (r.claimed row.id metadata))
    (hanom : ∀ a ∈ anomalies, a.reasonCode.isUnpaired = false) :
    PairLinked ((db.claim r.id row.id metadata).persist row anomalies) := by
  set next := (db.claim r.id row.id metadata).persist row anomalies with hnext
  -- the rows after the two writes: the new one, the claimed one, and the others
  have hmem : ∀ r', r' ∈ next.transactions ↔ r' = row ∨ r' = r.claimed row.id metadata ∨
      r' ∈ db.transactions ∧ r'.id ≠ r.id := fun r' => Database.mem_claim_persist hr hf
  have hne : r.id ≠ row.id := fun he => hf (he ▸ KeyedTable.hasKey_of_mem hr)
  have hcl : (r.claimed row.id metadata).relatedTransactionId = some row.id := rfl
  have hsym : ∀ a ∈ next.transactions, LinksBack next a :=
    fun a ha => linksBack_claim_persist hr hf hfree hrel ha (h.symmetric a)
  refine ⟨hsym, ?_, fun a ha b hb => injective_of_symmetric hsym ha hb, ?_, ?_, ?_⟩
  · intro a ha
    rcases (hmem a).mp ha with rfl | rfl | ⟨ha, -⟩
    · rw [hrel]
      exact fun he => hne (Option.some.inj he)
    · rw [hcl]
      exact fun he => hne (Option.some.inj he).symm
    · exact h.irreflexive a ha
  · intro a ha
    rcases (hmem a).mp ha with rfl | rfl | ⟨ha, -⟩
    · simp [hspec, hrel]
    · simp [Transaction.claimed]
    · exact h.special a ha
  · intro a ha b hb hab
    have hbid : ∀ b' ∈ next.transactions, b'.id = b.id → b' = b :=
      fun b' hb' he => KeyedTable.eq_of_key_eq hb' hb he
    rcases (hmem a).mp ha with rfl | rfl | ⟨ha, hid⟩
    · rw [hrel] at hab
      rw [← hbid _ ((hmem _).mpr (Or.inr (Or.inl rfl))) (Option.some.inj hab)]
      exact hlegs
    · rw [hcl] at hab
      rw [← hbid row ((hmem _).mpr (Or.inl rfl)) (Option.some.inj hab)]
      exact hlegs.symm
    · obtain ⟨c, hc, hcb, hca⟩ := h.symmetric a ha _ hab
      -- the partner of an older row is not the claimed one, which had no partner
      have hcr : c.id ≠ r.id := by
        intro he
        rw [KeyedTable.eq_of_key_eq hc hr he, hfree] at hca
        cases hca
      rw [← hbid c ((hmem c).mpr (Or.inr (Or.inr ⟨hc, hcr⟩))) hcb]
      exact h.legs a ha c hc (hcb ▸ hab)
  · intro a ha hl x hx hxa
    rcases Database.mem_persist_anomalies hx with hx | hx
    · obtain ⟨hx, hdel⟩ := KeyedTable.mem_deleteWhere.mp hx
      rcases (hmem a).mp ha with rfl | rfl | ⟨ha, -⟩
      · simpa [hxa] using hdel
      · simpa [hxa] using hdel
      · exact h.noUnpaired a ha hl x hx hxa
    · exact hanom x hx

/-! ## Every run, every sequence of runs -/

/-- A claimed row and the event that claims it are fitting legs: the universal query and the
consistency filter have checked it. -/
theorem legs_of_eligible {r : Transaction} {source : TransactionSource}
    {account : AccountProps} {conversion : ConversionResult} {res : TransferResult}
    {metadata pair : Json} (hd : Detects tx) (hel : eligible env tx r = true)
    (hrow : (enrichedRow tx source account conversion res).pairBlock = some pair)
    (hcl : (r.claimed tx.id metadata).pairBlock = some pair) :
    Legs (enrichedRow tx source account conversion res) (r.claimed tx.id metadata) := by
  simp only [eligible, matchesUniversal, Bool.and_eq_true, decide_eq_true_eq,
    Option.isNone_iff_eq_none] at hel
  obtain ⟨⟨⟨⟨⟨⟨⟨huser, hdir⟩, hmcc⟩, hacc⟩, -⟩, ham⟩, hwin⟩, -⟩ := hel
  refine ⟨huser.symm, Ne.symm hacc, ⟨hd.2.1, hmcc⟩, ?_, hwin, Or.inl ham, ⟨pair, hrow, hcl⟩⟩
  change tx.direction = .income ∧ r.direction = .expense ∨
    tx.direction = .expense ∧ r.direction = .income
  rw [hdir]
  rcases htx : tx.direction with _ | _ | _
  · exact Or.inl ⟨rfl, rfl⟩
  · exact Or.inr ⟨rfl, rfl⟩
  · exact absurd htx hd.2.2

/-- **The step**: a unit of work keeps the invariant, whether it fails, finds its id stored, stays
unpaired or claims a row. -/
theorem PairLinked.consume (h : PairLinked db) (hs : AllSettable db) :
    PairLinked (consume env db tx) := by
  rcases consume_cases env db tx with hdb | ⟨account, source, conversion, res, db₁, he⟩
  · rw [hdb]
    exact h
  have hfresh : ¬ db.Stored (enrichedRow tx source account conversion res).id := he.fresh
  obtain ⟨-, -, -, -, -, -, -, -, hdet, hres⟩ := he
  rw [hres]
  cases hdet with
  | skipped => exact h.persist_plain hfresh rfl rfl fun a ha => by cases ha
  | unpaired anomalies _ _ hstamp => exact h.persist_plain hfresh rfl rfl hstamp
  | claimed r pair metadata canary hd _ _ hr hel hcan hcm =>
    obtain ⟨m, hm, -, hmp⟩ := (hs r hr).claimMetadata pair
    obtain rfl := Option.some.inj (hcm.symm.trans hm)
    have hblock : (enrichedRow tx source account conversion ⟨some .transfer, some r.id,
        canary.toList, some (claimBlock env tx pair)⟩).pairBlock = some pair :=
      pairBlock_enrichedRow rfl (get?_claimBlock pair)
    have hlegs := legs_of_eligible hd hel hblock hmp
    apply h.claim_persist hr hfresh (eligible_free hel) rfl rfl hlegs
    intro a ha
    rw [(hcan a (Option.mem_toList.mp ha)).2]
    rfl

/-- The links of a run, row by row. -/
theorem linksBack_consume {a : Transaction} (ha : a ∈ (consume env db tx).transactions)
    (hold : a ∈ db.transactions → LinksBack db a) : LinksBack (consume env db tx) a := by
  rcases consume_cases env db tx with hdb | ⟨account, source, conversion, res, db₁, he⟩
  · rw [hdb] at ha ⊢
    exact hold ha
  have hfresh : ¬ db.Stored (enrichedRow tx source account conversion res).id := he.fresh
  obtain ⟨-, -, -, -, -, -, -, -, hdet, hres⟩ := he
  rw [hres] at ha ⊢
  cases hdet with
  | skipped => exact linksBack_persist hfresh rfl ha hold
  | unpaired => exact linksBack_persist hfresh rfl ha hold
  | claimed r _ _ _ _ _ _ hr hel =>
    exact linksBack_claim_persist hr hfresh (eligible_free hel) rfl ha hold

/-- One delivery of an event: the tables its run reads beside the two it writes, the event, and
whether the transaction around the run commits. A redelivery is one more delivery of the same
event. -/
structure Delivery : Type where
  env : PipelineEnv
  event : NormalizedTransaction
  committed : Bool

/-- A delivery: the unit of work, or nothing where it is rolled back. -/
def deliver (db : Database) (d : Delivery) : Database :=
  if d.committed then consume d.env db d.event else db

/-- Deliveries one after another. -/
def deliverAll (db : Database) (ds : List Delivery) : Database := ds.foldl deliver db

/-- What every unit of work keeps, deliveries keep. -/
theorem deliverAll_induction {P : Database → Prop} {ds : List Delivery} {db : Database}
    (hstep : ∀ d ∈ ds, ∀ db, P db → P (consume d.env db d.event)) (h : P db) :
    P (deliverAll db ds) := by
  induction ds generalizing db with
  | nil => exact h
  | cons d ds ih =>
    refine ih (fun d' hd' => hstep d' (List.mem_cons_of_mem _ hd')) ?_
    rw [deliver]
    split
    · exact hstep d (List.mem_cons_self ..) db h
    · exact h

/-- **The pair-link invariant** holds in every state enrichment reaches from empty tables, for any
events in any order, delivered any number of times, with any of the transactions rolled back, and
with accounts and rates that may change in between. -/
theorem pairLinked_deliverAll (ds : List Delivery) (hn : ∀ d ∈ ds, d.event.NoLayer) :
    PairLinked (deliverAll .empty ds) := by
  have hboth : PairLinked (deliverAll .empty ds) ∧ AllSettable (deliverAll .empty ds) :=
    deliverAll_induction (P := fun db => PairLinked db ∧ AllSettable db)
      (fun d hd _ h => ⟨h.1.consume h.2, h.2.consume (hn d hd)⟩)
      ⟨pairLinked_empty, fun _ hr => absurd hr KeyedTable.not_mem_empty⟩
  exact hboth.1

/-! ### A transfer between two accounts -/

/-- One user with three hryvnia cards; no amount is converted. -/
def sampleEnv : PipelineEnv where
  users := [1]
  accounts := [⟨10, 1, "black", "UAH", none⟩, ⟨11, 1, "black", "UAH", none⟩,
    ⟨12, 1, "black", "UAH", none⟩]
  convert := fun _ _ => .ok ⟨fun _ => none, []⟩
  scan := id
  scan_perm := scan_id_perm

/-- A leg of a transfer of one hryvnia between the cards. -/
def sampleLeg (id accountId : UUID) (sourceId : String) (direction : TransactionDirection) :
    NormalizedTransaction where
  id := id
  source := "monobank"
  sourceId := sourceId
  userId := 1
  accountId := accountId
  time := 0
  amountCents := 100
  operationAmountCents := some 100
  operationCurrencyCode := "UAH"
  description := none
  mcc := some wireTransfer
  cashbackAmountCents := 0
  balanceCents := some 0
  hold := some false
  direction := direction
  counterpartyIban := none
  rateSource := some "monobank"
  metadata := none

/-- An expense from the first card. -/
def sampleExpense : NormalizedTransaction :=
  sampleLeg 0x2fb91b2f80715ea5bb99f1a552e54832 10 "a" .expense

/-- An income of the same amount at the same moment on the second card. -/
def sampleIncome : NormalizedTransaction :=
  sampleLeg 0x3f5e7cec64305b6cbeb5949bab3886a1 11 "b" .income

/-- Another one on the third. -/
def sampleIncome' : NormalizedTransaction :=
  sampleLeg 0x126a49edecc15c3497891d798a20268f 12 "c" .income

/-- Two legs, the first delivered twice, one delivery of the second rolled back. -/
theorem pairLinked_deliverAll_two_legs :
    let ds : List Delivery := [⟨sampleEnv, sampleExpense, true⟩, ⟨sampleEnv, sampleIncome, false⟩,
      ⟨sampleEnv, sampleIncome, true⟩, ⟨sampleEnv, sampleExpense, true⟩]
    (deliverAll .empty ds).transactions.rows.map (fun r => (r.id, r.relatedTransactionId)) =
      [(sampleExpense.id, some sampleIncome.id), (sampleIncome.id, some sampleExpense.id)] ∧
    PairLinked (deliverAll .empty ds) := by
  intro ds
  refine ⟨by decide, pairLinked_deliverAll ds ?_⟩
  intro d hd
  simp only [ds, List.mem_cons, List.not_mem_nil, or_false] at hd
  rcases hd with rfl | rfl | rfl | rfl <;> exact fun _ h => by cases h

end Grosh
