import Grosh.PairLinks

/-!
# The transfer block of a row

`metadata.layer.transfer` holds what detection says of a row: the `row` block that its own event
writes, and the `pair` block that a claim adds, often a later event's.

The two blocks have different authors, and a row can have both. A claim merges its block into the
metadata with `jsonb_set`, so what it leaves alone is said of every path of the document; which rows
have a block of their own is settled when they are inserted, and never changes.

* `claimPair_frame` — a claim writes the pair block and the two columns of the link, and leaves
  every other column, every other row and the metadata off that path as they are.
* `transferBlock_iff` — after every sequence of deliveries the Monobank rows with the block are
  those of MCC 4829, except for the rows of direction zero, which have none.
-/

namespace Grosh

variable {env : PipelineEnv} {db : Database} {tx : NormalizedTransaction} {r : Transaction}

/-! ## What a claim leaves alone

A claim writes to a row that another event has made. The frame says what it may not touch:
everything off the path of the pair block, in the metadata and elsewhere. -/

/-- The path of the pair block. -/
def pairPath : List String := ["layer", "transfer", "pair"]

/-- **What a claim writes**: the pair block at its path, and the metadata is the same off it. A
`layer` that was missing is there afterwards, with nothing but the block. -/
theorem Settable.claimMetadata_sameOff {metadata : Option Json} (h : Settable metadata)
    (pair : Json) :
    ∃ m, Grosh.claimMetadata metadata pair = some m ∧ m.getPath? pairPath = some pair ∧
      Json.SameOff pairPath metadata (some m) := by
  obtain ⟨d, ld, td, hd, hld, htd, hm⟩ := h.claimMetadata_eq pair
  refine ⟨_, hm, by simp [pairPath], ?_⟩
  exact Json.sameOff_set hd (Json.sameOff_set hld (Json.sameOff_set htd (Json.sameOff_nil _ _)))

/-- **A claim touches only what it owns.** On a row whose metadata is `NULL` or an object with
objects on the path of the pair block, as far as it goes, `claim_pair` does not raise; the row has
the link, the category and the pair block, and its metadata is the same off that path; every
other column, every other row and the anomalies stay as they are. -/
theorem claimPair_frame (hr : r ∈ db.transactions) (h : Settable r.metadata) (newId : UUID)
    (pair : Json) :
    ∃ metadata db', claimPair db r.id newId pair = .ok db' ∧
      (∀ r', r' ∈ db'.transactions ↔
        r' = { r with
          relatedTransactionId := some newId
          specialCategory := some .transfer
          metadata := some metadata } ∨
        r' ∈ db.transactions ∧ r'.id ≠ r.id) ∧
      db'.anomalies = db.anomalies ∧
      metadata.getPath? pairPath = some pair ∧
      ∀ path, ¬ path <+: pairPath → ¬ pairPath <+: path →
        metadata.getPath? path = r.metadata.bind fun m => m.getPath? path := by
  obtain ⟨metadata, hm, hpair, hoff⟩ := h.claimMetadata_sameOff pair
  have hclaim := claimPair_of_mem hr newId pair
  rw [hm] at hclaim
  refine ⟨metadata, _, hclaim, fun r' => ?_, rfl, hpair, fun path hp hpath => hoff path hp hpath⟩
  exact KeyedTable.mem_updateWhere_key (fun q => q.claimed_id newId metadata) hr

/-- A row as the bank's normalizer writes it, before any layer. -/
def sampleStored : Transaction :=
  toRow sampleExpense .monobank "UAH" none (fun _ => none)
    (some [("source", .obj [("comment", .str "rent")])]) none

/-- A claim of that row. -/
theorem claimPair_frame_sampleStored :
    ∃ metadata db', claimPair ⟨⟨[sampleStored], by decide⟩, .empty⟩ sampleStored.id 7 .null =
        .ok db' ∧
      (∀ r', r' ∈ db'.transactions ↔
        r' = { sampleStored with
          relatedTransactionId := some 7
          specialCategory := some .transfer
          metadata := some metadata } ∨
        r' ∈ (⟨[sampleStored], by decide⟩ : KeyedTable Transaction.id) ∧
          r'.id ≠ sampleStored.id) ∧
      db'.anomalies = .empty ∧
      metadata.getPath? pairPath = some .null ∧
      ∀ path, ¬ path <+: pairPath → ¬ pairPath <+: path →
        metadata.getPath? path = sampleStored.metadata.bind fun m => m.getPath? path := by
  refine claimPair_frame (List.mem_singleton_self _) (fun m hm => ?_) 7 .null
  obtain rfl := Option.some.inj hm
  exact ⟨_, rfl, fun l hl => by cases hl⟩

/-! ## Which rows have the block

Detection emits the block for the events it looks at, and these are the transfers with an amount.
The result type of detection says that the block exists exactly for the wire transfers, which leaves
those without an amount to be told apart. -/

/-- The transfer block of a row, if it has one. The row block in it is written with the row, and the
pair block with a claim. -/
def Transaction.transferBlock (r : Transaction) : Option Json :=
  r.metadata.bind fun m => m.getPath? ["layer", "transfer"]

/-- The row is a Monobank transfer of direction zero: an item without an amount, such as the check
of a card. -/
def Transaction.ZeroTransfer (r : Transaction) : Prop :=
  r.source = .monobank ∧ r.mcc = some wireTransfer ∧ r.direction = .zero

/-- The event is a Monobank transfer of direction zero. -/
def NormalizedTransaction.ZeroTransfer (tx : NormalizedTransaction) : Prop :=
  tx.source = "monobank" ∧ tx.mcc = some wireTransfer ∧ tx.direction = .zero

/-- A row with a pair block has a transfer block. -/
theorem transferBlock_of_pairBlock (h : r.pairBlock.isSome) : r.transferBlock.isSome := by
  rw [Transaction.pairBlock, Option.isSome_iff_exists] at h
  obtain ⟨pair, h⟩ := h
  obtain ⟨m, hm, h⟩ := Option.bind_eq_some_iff.mp h
  obtain ⟨l, hl, h⟩ := Option.bind_eq_some_iff.mp h
  obtain ⟨t, ht, -⟩ := Option.bind_eq_some_iff.mp h
  rw [Transaction.transferBlock, hm]
  simp only [Option.bind_some, Json.getPath?_cons, hl, ht, Json.getPath?_nil, Option.isSome_some]

theorem ofText_eq_monobank {s : String} :
    TransactionSource.ofText s = some .monobank ↔ s = "monobank" := by
  constructor
  · intro h
    simp only [TransactionSource.ofText] at h
    split at h
    · rfl
    · cases h
    · cases h
  · rintro rfl
    rfl

/-- **A new row** has the block exactly if its detection emitted one. -/
theorem transferBlock_enrichedRow (hn : tx.NoLayer) {source : TransactionSource}
    {account : AccountProps} {conversion : ConversionResult} {res : TransferResult} :
    (enrichedRow tx source account conversion res).transferBlock =
      res.metadataBlock.map Json.obj := by
  rw [Transaction.transferBlock, enrichedRow_metadata]
  split
  · next hempty =>
    -- nothing was contributed, and the event brings no layer of its own
    have hblock : res.metadataBlock = none := by
      rcases hb : res.metadataBlock with _ | block
      · rfl
      · rw [hb] at hempty
        simp [layerOf] at hempty
    rw [hblock]
    rcases htx : tx.metadata with _ | d
    · rfl
    · have hlayer := hn d htx
      rcases d with _ | ⟨p, d⟩
      · rfl
      · simp [hlayer]
  · rcases hb : res.metadataBlock with _ | block
    · simp [layerOf_no_transfer]
    · simp [layerOf_transfer]

/-- The Monobank rows with the block are the transfers that are not of direction zero. This is what
the code keeps; the condition on the direction is what it adds to its own documentation. -/
def BlocksMarked (db : Database) : Prop :=
  ∀ r ∈ db.transactions, r.source = .monobank →
    (r.transferBlock.isSome ↔ r.mcc = some wireTransfer ∧ r.direction ≠ .zero)

/-- **One unit of work** keeps that: it marks its own row, and a row it claims has the block. -/
theorem BlocksMarked.consume (h : BlocksMarked db) (hs : AllSettable db) (hn : tx.NoLayer) :
    BlocksMarked (consume env db tx) := by
  intro r hr hsource
  rcases consume_row_cases hr with hr | ⟨account, source, conversion, res, db₁, _, he, rfl⟩ |
    ⟨-, r₀, hr₀, hel, pair, metadata, hcm, rfl⟩
  · exact h r hr hsource
  · have htext : tx.source = "monobank" := by
      refine ofText_eq_monobank.mp (he.source_eq.trans ?_)
      exact congrArg some hsource
    rw [transferBlock_enrichedRow hn]
    cases he.detection with
    | skipped hskip =>
      apply iff_of_false (fun h => by cases h)
      intro hmark
      rcases hskip with hskip | hstored
      · exact hskip ⟨htext, hmark⟩
      · exact he.fresh hstored
    | unpaired _ hdet => exact iff_of_true rfl hdet.2
    | claimed _ _ _ _ hdet => exact iff_of_true rfl hdet.2
  · obtain ⟨m, hm, -, hpath⟩ := (hs r₀ hr₀).claimMetadata pair
    obtain rfl := Option.some.inj (hcm.symm.trans hm)
    have hpair : (r₀.claimed tx.id metadata).pairBlock = some pair := hpath
    apply iff_of_true (transferBlock_of_pairBlock (hpair ▸ rfl))
    simp only [eligible, matchesUniversal, Bool.and_eq_true, decide_eq_true_eq] at hel
    obtain ⟨⟨⟨⟨⟨⟨⟨-, hdir⟩, hmcc⟩, -⟩, -⟩, -⟩, -⟩, -⟩ := hel
    refine ⟨hmcc, ?_⟩
    rw [show (r₀.claimed tx.id metadata).direction = r₀.direction from rfl, hdir]
    exact oppositeDirection_ne_zero tx.direction

theorem blocksMarked_deliverAll {ds : List Delivery} (hn : ∀ d ∈ ds, d.event.NoLayer) :
    BlocksMarked (deliverAll .empty ds) := by
  have hboth : BlocksMarked (deliverAll .empty ds) ∧ AllSettable (deliverAll .empty ds) :=
    deliverAll_induction (P := fun db => BlocksMarked db ∧ AllSettable db)
      (fun d hd _ h => ⟨h.1.consume h.2 (hn d hd), h.2.consume (hn d hd)⟩)
      ⟨fun _ hr => absurd hr KeyedTable.not_mem_empty,
        fun _ hr => absurd hr KeyedTable.not_mem_empty⟩
  exact hboth.1

/-- A row of direction zero is that of its event: a claim takes no such row, and leaves these
columns alone. -/
theorem zeroTransfer_deliverAll {ds : List Delivery} (h : ∀ d ∈ ds, ¬ d.event.ZeroTransfer) :
    ∀ r ∈ (deliverAll .empty ds).transactions, ¬ r.ZeroTransfer := by
  refine deliverAll_induction (P := fun db => ∀ r ∈ db.transactions, ¬ r.ZeroTransfer)
    (fun d hd db ih r hr => ?_) fun _ hr => absurd hr KeyedTable.not_mem_empty
  rcases consume_row_cases hr with hr | ⟨account, source, conversion, res, db₁, _, he, rfl⟩ |
    ⟨-, r₀, hr₀, -, pair, metadata, -, rfl⟩
  · exact ih r hr
  · rintro ⟨hsource, hmcc, hdir⟩
    refine h d hd ⟨?_, hmcc, hdir⟩
    exact ofText_eq_monobank.mp (he.source_eq.trans (congrArg some hsource))
  · exact ih r₀ hr₀

/-- **Which rows have the block.** After every sequence of deliveries, a Monobank row has the
block exactly if its MCC is 4829, unless it is of direction zero: then its MCC is 4829 and it has
none. So where no Monobank event of MCC 4829 and direction zero is delivered, the rows with the
block are the transfers. -/
theorem transferBlock_iff (ds : List Delivery) (hn : ∀ d ∈ ds, d.event.NoLayer) :
    (∀ r ∈ (deliverAll .empty ds).transactions, r.source = .monobank →
      ((r.transferBlock.isSome ↔ r.mcc = some wireTransfer) ↔ ¬ r.ZeroTransfer)) ∧
    ((∀ d ∈ ds, ¬ d.event.ZeroTransfer) →
      ∀ r ∈ (deliverAll .empty ds).transactions, r.source = .monobank →
        (r.transferBlock.isSome ↔ r.mcc = some wireTransfer)) := by
  have hrow : ∀ r ∈ (deliverAll .empty ds).transactions, r.source = .monobank →
      ((r.transferBlock.isSome ↔ r.mcc = some wireTransfer) ↔ ¬ r.ZeroTransfer) := by
    intro r hr hsource
    rw [blocksMarked_deliverAll hn r hr hsource, Transaction.ZeroTransfer]
    by_cases hmcc : r.mcc = some wireTransfer
    · simp only [hmcc, hsource, true_and, iff_true]
    · simp only [hmcc, false_and, and_false, not_false_eq_true]
  exact ⟨hrow, fun hzero r hr hsource =>
    (hrow r hr hsource).mpr (zeroTransfer_deliverAll hzero r hr)⟩

/-- A check of a card: a transfer of no amount. -/
def sampleCheck : NormalizedTransaction :=
  { sampleLeg 5 10 "check" .zero with amountCents := 0, operationAmountCents := some 0 }

/-- Two legs and a check. -/
theorem transferBlock_iff_two_legs :
    (∀ r ∈ (deliverAll .empty [⟨sampleEnv, sampleExpense, true⟩, ⟨sampleEnv, sampleIncome, true⟩,
        ⟨sampleEnv, sampleCheck, true⟩]).transactions, r.source = .monobank →
      ((r.transferBlock.isSome ↔ r.mcc = some wireTransfer) ↔ ¬ r.ZeroTransfer)) ∧
    ((∀ d ∈ ([⟨sampleEnv, sampleExpense, true⟩, ⟨sampleEnv, sampleIncome, true⟩,
        ⟨sampleEnv, sampleCheck, true⟩] : List Delivery), ¬ d.event.ZeroTransfer) →
      ∀ r ∈ (deliverAll .empty [⟨sampleEnv, sampleExpense, true⟩,
        ⟨sampleEnv, sampleIncome, true⟩, ⟨sampleEnv, sampleCheck, true⟩]).transactions,
        r.source = .monobank → (r.transferBlock.isSome ↔ r.mcc = some wireTransfer)) := by
  apply transferBlock_iff _
  intro d hd
  simp only [List.mem_cons, List.not_mem_nil, or_false] at hd
  rcases hd with rfl | rfl | rfl
  · exact fun _ h => by cases h
  · exact fun _ h => by cases h
  · exact fun _ h => by cases h

/-- The check is stored with MCC 4829 and without the block. -/
theorem transferBlock_missing :
    sampleCheck.NoLayer ∧
    ∃ r ∈ (deliverAll .empty [⟨sampleEnv, sampleCheck, true⟩]).transactions,
      r.source = .monobank ∧ r.mcc = some wireTransfer ∧ r.transferBlock.isSome = false := by
  have hrow : (deliverAll .empty [⟨sampleEnv, sampleCheck, true⟩]).transactions.rows.any
      (fun r => decide (r.source = .monobank) && decide (r.mcc = some wireTransfer) &&
        !r.transferBlock.isSome) = true := by decide +kernel
  obtain ⟨r, hr, hcond⟩ := List.any_eq_true.mp hrow
  simp only [Bool.and_eq_true, decide_eq_true_eq, Bool.not_eq_true'] at hcond
  exact ⟨(fun _ h => by cases h), r, hr, hcond.1.1, hcond.1.2, hcond.2⟩

end Grosh
