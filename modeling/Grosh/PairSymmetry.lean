import Grosh.ArrivalOrder

/-!
# Pair eligibility is symmetric

One side of a pair is an event in memory, the other a stored row. Whether the two fit does not
depend on which of them is which: the window, the amount cross-match, the direction, the
accounts, the IBAN claims and the description verdict are the same from both sides.

* `findsRow_comm` — an event finds the row of another exactly if the other finds its own.
* `evidenceWith_comm`, `descriptionsConsistent_comm` — with the same evidence and the same
  description verdict.
* `pair_eligibility_symmetric` — so two events alone are paired in both orders of arrival, with
  one pair block, or in none.
-/

namespace Grosh

variable {env : PipelineEnv} {db db' : Database} {a b tx : NormalizedTransaction}
  {ra rb r : Transaction}

/-! ## The conditions, from both sides

Each condition compares a field of the event with a field of the row, and some do it in a way that
looks one-sided. One after the other they turn out to be conditions on the pair. -/

theorem amountsMatch_comm (amount amount' op op' : ℤ) :
    amountsMatch amount (some op) amount' (some op') =
      amountsMatch amount' (some op') amount (some op) := by
  rw [Bool.eq_iff_iff]
  simp only [amountsMatch, Option.getD_some, Bool.or_eq_true, beq_iff_eq, Option.some.injEq]
  rw [eq_comm, or_comm, eq_comm (a := op')]

/-- Of two directed rows, each is opposite to the other if one is. -/
theorem oppositeDirection_comm {d d' : TransactionDirection} (h : d ≠ .zero) (h' : d' ≠ .zero) :
    d' = oppositeDirection d ↔ d = oppositeDirection d' := by
  cases d <;> cases d' <;> simp [oppositeDirection] at h h' ⊢

/-- The universal fetch of one event, over the row of the other. The amount predicate is not
symmetric by itself: it takes an operation amount on both sides to make it so. -/
theorem matchesUniversal_comm (hmcc : a.mcc = some wireTransfer) (hmcc' : b.mcc = some wireTransfer)
    (huser : a.userId = b.userId) (ha : a.operationAmountCents.isSome)
    (hb : b.operationAmountCents.isSome) (hd : a.direction ≠ .zero) (hd' : b.direction ≠ .zero) :
    matchesUniversal a (unclaimedRow b) = matchesUniversal b (unclaimedRow a) := by
  obtain ⟨op, hop⟩ := Option.isSome_iff_exists.mp ha
  obtain ⟨op', hop'⟩ := Option.isSome_iff_exists.mp hb
  have hwindow : (a.time - 2 * second ≤ b.time ∧ b.time ≤ a.time + 2 * second) ↔
      (b.time - 2 * second ≤ a.time ∧ a.time ≤ b.time + 2 * second) :=
    ⟨fun h => ⟨Int.sub_right_le_of_le_add h.2, Int.le_add_of_sub_right_le h.1⟩,
      fun h => ⟨Int.sub_right_le_of_le_add h.2, Int.le_add_of_sub_right_le h.1⟩⟩
  simp only [matchesUniversal, unclaimedRow, toRow, hop, hop', hmcc, hmcc', huser,
    amountsMatch_comm a.amountCents, oppositeDirection_comm hd hd', hwindow,
    ne_comm (a := b.accountId)]

theorem candidateFlags_unclaimedRow (huser : a.userId = b.userId) :
    candidateFlags env a (.ofRow (unclaimedRow b)) = incomingFlags env b := by
  rw [candidateFlags, incomingFlags, huser]
  rfl

/-- An unlinked IBAN resolves to no account. -/
theorem resolvesTo_of_unlinked {direction : TransactionDirection} {iban : Option String}
    {multiHop : Bool} {m : String → Option UUID} {accountId : UUID}
    (h : classifyCpIban direction iban multiHop m = .unlinked) :
    resolvesTo iban accountId m = false := by
  rcases iban with _ | iban
  · rfl
  rw [classifyCpIban] at h
  split at h
  · cases h
  rcases hm : m iban with _ | account
  · simp [resolvesTo, hm]
  · rw [hm] at h
    cases h

/-- The filter drops a candidate where a side that has to point at the other does not. The incoming
side is stopped earlier where its IBAN is unlinked, which is why the two sides are not treated alike
here. -/
theorem isConsistent_iff {flags flags' : RowFlags} {iban iban' : Option String}
    {accountId accountId' : UUID} {m : String → Option UUID} :
    isConsistent flags flags' iban iban' accountId accountId' m = true ↔
      (flags.cpIbanStatus = .honest → resolvesTo iban accountId' m = true) ∧
      (flags'.cpIbanStatus = .honest ∨ flags'.cpIbanStatus = .unlinked →
        resolvesTo iban' accountId m = true) := by
  rw [isConsistent]
  split
  · next h =>
    apply iff_of_false Bool.false_ne_true
    intro h'
    rw [h'.1 h.1] at h
    cases h.2
  next hin =>
  split
  · next h =>
    apply iff_of_false Bool.false_ne_true
    intro h'
    rw [h'.2 h.1] at h
    cases h.2
  next hcand =>
  refine iff_of_true rfl ⟨fun h => ?_, fun h => ?_⟩
  · exact Bool.not_eq_false _ ▸ fun hf => hin ⟨h, hf⟩
  · exact Bool.not_eq_false _ ▸ fun hf => hcand ⟨h, hf⟩

/-- What the short-circuit and the filter leave: no side is unlinked, and an honest side points at
the other. Together the two are symmetric, although neither is by itself. -/
theorem linked_and_consistent_iff (huser : a.userId = b.userId) :
    ((incomingFlags env a).cpIbanStatus ≠ .unlinked ∧
        consistentWith env a (.ofRow (unclaimedRow b)) = true) ↔
      ((incomingFlags env a).cpIbanStatus ≠ .unlinked ∧
        (incomingFlags env b).cpIbanStatus ≠ .unlinked) ∧
      ((incomingFlags env a).cpIbanStatus = .honest →
        resolvesTo a.counterpartyIban b.accountId (resolveIban env b.userId) = true) ∧
      ((incomingFlags env b).cpIbanStatus = .honest →
        resolvesTo b.counterpartyIban a.accountId (resolveIban env b.userId) = true) := by
  have hunlinked : (incomingFlags env b).cpIbanStatus = .unlinked →
      resolvesTo b.counterpartyIban a.accountId (resolveIban env b.userId) = false :=
    resolvesTo_of_unlinked
  rw [consistentWith, candidateFlags_unclaimedRow huser, isConsistent_iff, huser]
  constructor
  · rintro ⟨hlinked, hin, hcand⟩
    refine ⟨⟨hlinked, fun hb => ?_⟩, hin, fun h => hcand (Or.inl h)⟩
    exact Bool.false_ne_true ((hunlinked hb).symm.trans (hcand (Or.inr hb)))
  · rintro ⟨⟨hlinked, hlinked'⟩, hin, hcand⟩
    exact ⟨hlinked, hin, fun h => h.elim hcand fun h => absurd h hlinked'⟩

/-- **Finding is symmetric**: of two Monobank wire transfers of one user with operation amounts,
either finds the row of the other, or neither does. -/
theorem findsRow_comm (hsrc : a.source = "monobank") (hsrc' : b.source = "monobank")
    (hmcc : a.mcc = some wireTransfer) (hmcc' : b.mcc = some wireTransfer)
    (huser : a.userId = b.userId) (ha : a.operationAmountCents.isSome)
    (hb : b.operationAmountCents.isSome) :
    findsRow env a (unclaimedRow b) = true ↔ findsRow env b (unclaimedRow a) = true := by
  have hside : ∀ {x y : NormalizedTransaction}, x.source = "monobank" →
      x.mcc = some wireTransfer → (findsRow env x (unclaimedRow y) = true ↔
        (x.direction ≠ .zero ∧ y.direction ≠ .zero ∧ matchesUniversal x (unclaimedRow y) = true) ∧
          (incomingFlags env x).cpIbanStatus ≠ .unlinked ∧
            consistentWith env x (.ofRow (unclaimedRow y)) = true) := by
    intro x y hx hm
    have hdir : matchesUniversal x (unclaimedRow y) = true → y.direction ≠ .zero := by
      intro h
      simp only [matchesUniversal, Bool.and_eq_true, decide_eq_true_eq] at h
      have hy : y.direction = oppositeDirection x.direction := h.1.1.1.1.1.2
      rw [hy]
      exact oppositeDirection_ne_zero _
    simp only [findsRow, eligible, Detects, Bool.and_eq_true, decide_eq_true_eq, hx, hm, true_and]
    tauto
  rw [hside hsrc hmcc, hside hsrc' hmcc', linked_and_consistent_iff huser,
    linked_and_consistent_iff huser.symm, huser, and_comm (a := (incomingFlags env b).cpIbanStatus
      ≠ .unlinked), and_comm (a := (incomingFlags env b).cpIbanStatus = .honest → _)]
  refine and_congr_left fun _ => ⟨?_, ?_⟩
  · rintro ⟨hd, hd', h⟩
    exact ⟨hd', hd, (matchesUniversal_comm hmcc hmcc' huser ha hb hd hd').symm.trans h⟩
  · rintro ⟨hd', hd, h⟩
    exact ⟨hd, hd', (matchesUniversal_comm hmcc hmcc' huser ha hb hd hd').trans h⟩

/-- **The evidence is that of the pair**: both sides count the same claims. -/
theorem evidenceWith_comm (huser : a.userId = b.userId) :
    evidenceWith env a (.ofRow (unclaimedRow b)) =
      evidenceWith env b (.ofRow (unclaimedRow a)) := by
  rw [evidenceWith, evidenceWith, candidateFlags_unclaimedRow huser,
    candidateFlags_unclaimedRow huser.symm, huser]
  simp only [classifyPairEvidence]
  rw [Bool.and_comm, Bool.or_comm]
  rfl

/-- The routing by direction puts each description and account where it belongs, whichever of
the two rows is the stored one. -/
theorem splitByDirection_comm (c c' : CandidateRow) {accProps accProps' : AccountProps}
    (h : c.direction = oppositeDirection c'.direction) (hne : c'.direction ≠ .zero) :
    splitByDirection c' accProps' c.description accProps =
      splitByDirection c accProps c'.description accProps' := by
  by_cases hin : c'.direction = .income
  · have hout : c.direction ≠ .income := by
      rw [h, hin]
      decide
    rw [splitByDirection, if_pos hin, splitByDirection, if_neg hout]
  · have hin' : c.direction = .income := by
      rw [h]
      revert hin hne
      cases c'.direction <;> simp [oppositeDirection]
    rw [splitByDirection, if_neg hin, splitByDirection, if_pos hin']

/-- **The description verdict is that of the pair**: the income description is read against the
expense account, and the expense description against the income account, whichever of them is in
memory. -/
theorem descriptionsConsistent_comm (h : a.direction = oppositeDirection b.direction)
    (hb : b.direction ≠ .zero) (accA accB : AccountProps) :
    descriptionsConsistent (.ofRow (unclaimedRow b)) accB a.description accA =
      descriptionsConsistent (.ofRow (unclaimedRow a)) accA b.description accB := by
  have hsplit : splitByDirection (.ofRow (unclaimedRow b)) accB a.description accA =
      splitByDirection (.ofRow (unclaimedRow a)) accA b.description accB :=
    splitByDirection_comm (.ofRow (unclaimedRow a)) (.ofRow (unclaimedRow b)) h hb
  simp only [descriptionsConsistent, hsplit]

/-! ## Two events alone -/

/-- The candidates an arriving event decides among: detection gets to the fetch only for a fresh
wire transfer whose IBAN is not unlinked. For every other event the list is empty. -/
def filteredCandidates (env : PipelineEnv) (db : Database) (tx : NormalizedTransaction) :
    List ScoredCandidate :=
  if Detects tx ∧ ¬ db.Stored tx.id ∧ (incomingFlags env tx).cpIbanStatus ≠ .unlinked then
    scoredCandidates env db tx
  else []

/-- The row of an event, stored and unpaired: what the other event of a pair may find when it
arrives. -/
structure StoredUnpaired (db : Database) (tx : NormalizedTransaction) (r : Transaction) :
    Prop where
  mem : r ∈ db.transactions
  row : RowOf tx r
  free : r.relatedTransactionId = none

/-- The stored row of another event is a filtered candidate exactly if it is found. -/
theorem mem_filteredCandidates_iff (hf : ¬ db.Stored a.id) (hb : StoredUnpaired db b rb)
    {ev : PairEvidence} :
    (CandidateRow.ofRow rb, ev) ∈ filteredCandidates env db a ↔
      findsRow env a (unclaimedRow b) = true ∧
        evidenceWith env a (.ofRow (unclaimedRow b)) = ev := by
  have hrow : ∀ r ∈ db.transactions, CandidateRow.ofRow r = CandidateRow.ofRow rb → r = rb :=
    fun r hr h => KeyedTable.eq_of_key_eq hr hb.mem (congrArg CandidateRow.id h)
  have hel : eligible env a rb = true ↔ eligible env a (unclaimedRow b) = true := by
    simp only [eligible, hb.row.looked a, hb.row.candidate, hb.free, Option.isNone_none,
      Bool.and_true]
  simp only [filteredCandidates, findsRow, Bool.and_eq_true, decide_eq_true_eq]
  by_cases hd : Detects a ∧ (incomingFlags env a).cpIbanStatus ≠ .unlinked
  swap
  · rw [if_neg fun h => hd ⟨h.1, h.2.2⟩]
    exact iff_of_false List.not_mem_nil fun h => hd h.1.1
  rw [if_pos ⟨hd.1, hf, hd.2⟩, mem_scoredCandidates, and_iff_right hd, ← hel, hb.row.candidate]
  constructor
  · rintro ⟨r, hr, her, hcand, hev⟩
    obtain rfl := hrow r hr (hcand.trans hb.row.candidate.symm)
    exact ⟨her, hev⟩
  · rintro ⟨her, hev⟩
    exact ⟨rb, hb.mem, her, hb.row.candidate, hev⟩

/-- Two rows are each other's partner, with one pair block. Which of them arrived first can no
longer be seen. -/
def PairedBy (db : Database) (a b : UUID) (pair : Json) : Prop :=
  ∃ ra ∈ db.transactions, ∃ rb ∈ db.transactions, ra.id = a ∧ rb.id = b ∧
    ra.relatedTransactionId = some b ∧ rb.relatedTransactionId = some a ∧
    ra.pairBlock = some pair ∧ rb.pairBlock = some pair

theorem PairedBy.symm {a b : UUID} {pair : Json} (h : PairedBy db a b pair) :
    PairedBy db b a pair := by
  obtain ⟨ra, hra, rb, hrb, ha, hb, hab, hba, hpa, hpb⟩ := h
  exact ⟨rb, hrb, ra, hra, hb, ha, hba, hab, hpb, hpa⟩

/-- No row has a partner or a pair block. -/
def NonePaired (db : Database) : Prop :=
  ∀ r ∈ db.transactions, r.relatedTransactionId = none ∧ r.pairBlock = none

/-- A new row that detection found no partner for has no pair block. -/
theorem pairBlock_enrichedRow_none (hn : tx.NoLayer) {source : TransactionSource}
    {account : AccountProps} {conversion : ConversionResult} {res : TransferResult}
    (hb : ∀ block, res.metadataBlock = some block → Dict.get? block "pair" = none) :
    (enrichedRow tx source account conversion res).pairBlock = none := by
  rw [Transaction.pairBlock, enrichedRow_metadata]
  split
  · rcases htx : tx.metadata with _ | d
    · rfl
    · rw [Option.bind_some]
      split
      · rfl
      · simp [hn d htx]
  · rcases hres : res.metadataBlock with _ | block
    · simp [layerOf_no_transfer]
    · simp [layerOf_transfer, hb block hres]

/-- An event that finds no row leaves nothing paired. -/
theorem NonePaired.consume (h : NonePaired db) (hn : tx.NoLayer)
    (hno : ∀ r ∈ db.transactions, findsRow env tx r = false) : NonePaired (consume env db tx) := by
  rcases consume_cases env db tx with hdb | ⟨account, source, conversion, res, db₁, he⟩
  · rw [hdb]
    exact h
  have hfresh : ¬ db.Stored (enrichedRow tx source account conversion res).id := he.fresh
  obtain ⟨-, -, -, -, -, -, -, -, hdet, hres⟩ := he
  have hplain : (∀ block, res.metadataBlock = some block → Dict.get? block "pair" = none) →
      res.relatedTransactionId = none → db₁ = db → NonePaired (Grosh.consume env db tx) := by
    rintro hblock hrel rfl r hr
    rw [hres] at hr
    rcases (Database.mem_persist hfresh).mp hr with hr | rfl
    · exact h r hr
    · exact ⟨hrel, pairBlock_enrichedRow_none hn hblock⟩
  cases hdet with
  | skipped => exact hplain (fun _ hb => by cases hb) rfl rfl
  | unpaired =>
    refine hplain (fun block hb => ?_) rfl rfl
    obtain rfl := Option.some.inj hb
    simp [Dict.get?]
  | claimed r pair metadata canary hd _ hlinked hr hel =>
    have hfound := hno r hr
    simp [findsRow, hd, hlinked, hel] at hfound

/-- The first of the two: nothing is there to pair with. -/
theorem consume_empty (hn : tx.NoLayer) (hadm : Admitted env tx) :
    ∃ r, StoredUnpaired (consume env .empty tx) tx r ∧
      (∀ r' ∈ (consume env .empty tx).transactions, r' = r) ∧
      NonePaired (consume env .empty tx) := by
  have hnone : NonePaired .empty := fun r hr => absurd hr KeyedTable.not_mem_empty
  have hpaired : NonePaired (consume env .empty tx) :=
    hnone.consume hn fun r hr => absurd hr KeyedTable.not_mem_empty
  obtain ⟨db', hrun⟩ := (run_ok_iff rowsSound_empty hn KeyedTable.not_hasKey_empty).mpr
    ⟨hadm, fun ⟨_, hr, _⟩ => KeyedTable.not_mem_empty hr⟩
  have hnew : ∀ r ∈ (consume env .empty tx).transactions, ∃ source account conversion res,
      r = enrichedRow tx source account conversion res := by
    intro r hr
    rcases consume_row_cases hr with hr | ⟨account, source, conversion, res, _, _, _, rfl⟩ |
      ⟨-, r₀, hr₀, -⟩
    · exact absurd hr KeyedTable.not_mem_empty
    · exact ⟨source, account, conversion, res, rfl⟩
    · exact absurd hr₀ KeyedTable.not_mem_empty
  obtain ⟨r, hr, hid⟩ : (consume env .empty tx).Stored tx.id := by
    rw [consume_of_run hrun]
    exact stored_of_run hrun
  refine ⟨r, ⟨hr, ?_, (hpaired r hr).1⟩, fun r' hr' => ?_, hpaired⟩
  · obtain ⟨source, account, conversion, res, rfl⟩ := hnew r hr
    exact rowOf_enrichedRow ..
  · obtain ⟨_, _, _, _, rfl⟩ := hnew r' hr'
    exact KeyedTable.eq_of_key_eq hr' hr hid.symm

/-- The second of the two: it claims the first if it finds it. -/
theorem consume_second (hs : RowsSound env db) (hn : a.NoLayer) (hadm : Admitted env a)
    (hf : ¬ db.Stored a.id) (hdt : ¬ db.DedupTaken a.accountId a.sourceId)
    (hb : StoredUnpaired db b rb) (hall : ∀ r ∈ db.transactions, r = rb)
    (hfinds : findsRow env a (unclaimedRow b) = true) :
    PairedBy (consume env db a) a.id b.id
      (buildPairBlock (evidenceWith env a (.ofRow (unclaimedRow b))) false) := by
  have hfound : findsRow env a rb = true := hb.row.findsRow_iff.mpr ⟨hfinds, hb.free⟩
  simp only [findsRow, Bool.and_eq_true, decide_eq_true_eq] at hfound
  obtain ⟨⟨hd, hu⟩, hel⟩ := hfound
  have hsingle : scoredCandidates env db a =
      [(CandidateRow.ofRow rb, evidenceWith env a (.ofRow rb))] := by
    refine eq_singleton_of_nodup (scoredCandidates_nodup env db a)
      (mem_scoredCandidates.mpr ⟨rb, hb.mem, hel, rfl, rfl⟩) ?_
    rintro ⟨c, ev⟩ hc
    obtain ⟨r, hr, -, rfl, rfl⟩ := mem_scoredCandidates.mp hc
    rw [hall r hr]
  obtain ⟨db', hrun⟩ := (run_ok_iff hs hn hf).mpr ⟨hadm, hdt⟩
  rw [consume_of_run hrun]
  rcases run_cases hrun with ⟨hst, -⟩ | ⟨account, source, conversion, res, db₁, he⟩
  · exact absurd hst hf
  obtain ⟨hrel, hblock⟩ := runTransferDetection_single hd hf hu hsingle he.returned
  rw [hb.row.candidate] at hblock
  have hfresh : ¬ db.Stored (enrichedRow a source account conversion res).id := he.fresh
  obtain ⟨-, -, -, -, -, -, -, -, hdet, rfl⟩ := he
  cases hdet with
  | skipped => cases hrel
  | unpaired => cases hrel
  | claimed r pair metadata canary _ _ _ hr _ _ hcm =>
    obtain rfl := hall r hr
    have hpair : pair = buildPairBlock (evidenceWith env a (.ofRow (unclaimedRow b))) false := by
      have hget := congrArg (fun block => (block.bind fun d : Dict => Dict.get? d "pair")) hblock
      simp only [Option.bind_some, get?_claimBlock, Option.some.injEq] at hget
      exact hget
    subst hpair
    obtain ⟨m, hm, -, hmp⟩ := (hs.settable r hr).claimMetadata
      (buildPairBlock (evidenceWith env a (.ofRow (unclaimedRow b))) false)
    obtain rfl := Option.some.inj (hcm.symm.trans hm)
    refine ⟨_, (Database.mem_claim_persist hr hfresh).mpr (Or.inl rfl), _,
      (Database.mem_claim_persist hr hfresh).mpr (Or.inr (Or.inl rfl)), rfl, hb.row.id,
      congrArg some hb.row.id, rfl, pairBlock_enrichedRow rfl (get?_claimBlock _), hmp⟩

/-- Both events can be stored, they are two, and the second finds the first. This is all it takes
for the second to claim the first. -/
def SecondFinds (env : PipelineEnv) (a b : NormalizedTransaction) : Prop :=
  Admitted env a ∧ Admitted env b ∧ a.id ≠ b.id ∧ findsRow env b (unclaimedRow a) = true

/-- **Two arrivals**: the second is paired with the first, or nothing is paired. -/
theorem consumeAll_two (env : PipelineEnv) (ha : a.NoLayer) (hb : b.NoLayer) :
    SecondFinds env a b ∧ PairedBy (consumeAll env .empty [a, b]) b.id a.id
        (buildPairBlock (evidenceWith env b (.ofRow (unclaimedRow a))) false) ∨
      ¬ SecondFinds env a b ∧ NonePaired (consumeAll env .empty [a, b]) := by
  change _ ∧ PairedBy (consume env (consume env .empty a) b) _ _ _ ∨
    _ ∧ NonePaired (consume env (consume env .empty a) b)
  have hempty : NonePaired .empty := fun r hr => absurd hr KeyedTable.not_mem_empty
  by_cases hadma : Admitted env a
  swap
  · rw [consume_of_settled rowsSound_empty ha (Or.inr (Or.inl hadma))]
    exact Or.inr ⟨fun h => hadma h.1,
      hempty.consume hb fun r hr => absurd hr KeyedTable.not_mem_empty⟩
  obtain ⟨ra, hra, hall, hnone⟩ := consume_empty ha hadma
  have hsound : RowsSound env (consume env .empty a) := rowsSound_empty.consume ha
  by_cases hadmb : Admitted env b
  swap
  · rw [consume_of_settled hsound hb (Or.inr (Or.inl hadmb))]
    exact Or.inr ⟨fun h => hadmb h.2.1, hnone⟩
  by_cases hid : a.id = b.id
  · rw [consume_of_stored ⟨ra, hra.mem, hra.row.id.trans hid⟩]
    exact Or.inr ⟨fun h => h.2.2.1 hid, hnone⟩
  by_cases hfinds : findsRow env b (unclaimedRow a) = true
  swap
  · refine Or.inr ⟨fun h => hfinds h.2.2.2, hnone.consume hb fun r hr => ?_⟩
    rw [hall r hr, ← Bool.not_eq_true, hra.row.findsRow_iff]
    exact fun h => hfinds h.1
  refine Or.inl ⟨⟨hadma, hadmb, hid, hfinds⟩, consume_second hsound hb hadmb ?_ ?_ hra hall
    hfinds⟩
  · rintro ⟨r, hr, hrid⟩
    rw [hall r hr] at hrid
    exact hid (hra.row.id.symm.trans hrid)
  · -- the legs of a pair are on two accounts, so they do not share a dedup key
    rintro ⟨r, hr, hacc, -⟩
    rw [hall r hr, hra.row.accountId] at hacc
    simp only [findsRow, eligible, matchesUniversal, Bool.and_eq_true, decide_eq_true_eq] at hfinds
    exact hfinds.2.1.1.1.1.2 hacc

/-- **Pair eligibility is symmetric.** For two Monobank wire transfers of one user with operation
amounts: the stored, unpaired row of the one is a filtered candidate of the other exactly if that
holds with the roles exchanged, and then with the same evidence and the same IBAN and description
verdicts. Where only the two arrive, both orders pair them with the same pair block, or neither
pairs anything. -/
theorem pair_eligibility_symmetric (env : PipelineEnv) (a b : NormalizedTransaction)
    (hsrc : a.source = "monobank") (hsrc' : b.source = "monobank")
    (hmcc : a.mcc = some wireTransfer) (hmcc' : b.mcc = some wireTransfer)
    (huser : a.userId = b.userId) (ha : a.operationAmountCents.isSome)
    (hb : b.operationAmountCents.isSome) (hna : a.NoLayer) (hnb : b.NoLayer) :
    (∀ db db' ra rb, ¬ db.Stored a.id → StoredUnpaired db b rb → ¬ db'.Stored b.id →
      StoredUnpaired db' a ra →
        (∀ ev, (CandidateRow.ofRow rb, ev) ∈ filteredCandidates env db a ↔
          (CandidateRow.ofRow ra, ev) ∈ filteredCandidates env db' b) ∧
        ∀ ev, (CandidateRow.ofRow rb, ev) ∈ filteredCandidates env db a →
          evidenceWith env a (.ofRow rb) = evidenceWith env b (.ofRow ra) ∧
          consistentWith env a (.ofRow rb) = consistentWith env b (.ofRow ra) ∧
          ∀ accA accB, descriptionsConsistent (.ofRow rb) accB a.description accA =
            descriptionsConsistent (.ofRow ra) accA b.description accB) ∧
    ((∃ pair, PairedBy (consumeAll env .empty [a, b]) a.id b.id pair ∧
        PairedBy (consumeAll env .empty [b, a]) a.id b.id pair) ∨
      NonePaired (consumeAll env .empty [a, b]) ∧ NonePaired (consumeAll env .empty [b, a])) := by
  have hcomm : findsRow env a (unclaimedRow b) = true ↔ findsRow env b (unclaimedRow a) = true :=
    findsRow_comm hsrc hsrc' hmcc hmcc' huser ha hb
  have hev : evidenceWith env a (.ofRow (unclaimedRow b)) =
      evidenceWith env b (.ofRow (unclaimedRow a)) := evidenceWith_comm huser
  refine ⟨fun db db' ra rb hfa hsb hfb hsa => ⟨fun ev => ?_, fun ev hmem => ?_⟩, ?_⟩
  · rw [mem_filteredCandidates_iff hfa hsb, mem_filteredCandidates_iff hfb hsa, hcomm, hev]
  · obtain ⟨hfinds, -⟩ := (mem_filteredCandidates_iff hfa hsb).mp hmem
    have hfinds' := hcomm.mp hfinds
    rw [hsb.row.candidate, hsa.row.candidate]
    simp only [findsRow, eligible, matchesUniversal, Bool.and_eq_true,
      decide_eq_true_eq] at hfinds hfinds'
    obtain ⟨-, -, hcons⟩ := hfinds
    obtain ⟨⟨hdet, -⟩, ⟨⟨⟨⟨⟨⟨-, hdir⟩, -⟩, -⟩, -⟩, -⟩, -⟩, hcons'⟩ := hfinds'
    exact ⟨hev, hcons.trans hcons'.symm, descriptionsConsistent_comm hdir hdet.2.2⟩
  · have hboth : SecondFinds env a b ↔ SecondFinds env b a := by
      rw [SecondFinds, SecondFinds, hcomm, ne_comm]
      tauto
    rcases consumeAll_two env hna hnb with ⟨h, hp⟩ | ⟨h, hp⟩ <;>
      rcases consumeAll_two env hnb hna with ⟨h', hp'⟩ | ⟨h', hp'⟩
    · refine Or.inl ⟨_, hp.symm, ?_⟩
      rw [← hev]
      exact hp'
    · exact absurd (hboth.mp h) h'
    · exact absurd (hboth.mpr h') h
    · exact Or.inr ⟨hp, hp'⟩

/-- An expense and an income of the same amount: each finds the other, and both orders pair
them. -/
theorem pair_eligibility_symmetric_two_legs :
    findsRow sampleEnv sampleExpense (unclaimedRow sampleIncome) = true ∧
    ((∃ pair, PairedBy (consumeAll sampleEnv .empty [sampleExpense, sampleIncome])
          sampleExpense.id sampleIncome.id pair ∧
        PairedBy (consumeAll sampleEnv .empty [sampleIncome, sampleExpense])
          sampleExpense.id sampleIncome.id pair) ∨
      NonePaired (consumeAll sampleEnv .empty [sampleExpense, sampleIncome]) ∧
        NonePaired (consumeAll sampleEnv .empty [sampleIncome, sampleExpense])) :=
  ⟨by decide, (pair_eligibility_symmetric sampleEnv sampleExpense sampleIncome rfl rfl rfl rfl rfl
    rfl rfl (fun _ h => by cases h) fun _ h => by cases h).2⟩

end Grosh
