import Grosh.Lib.OnlineMatching
import Grosh.Normalization
import Grosh.Redelivery

/-!
# Order of arrival

Detection is an online matcher: an arriving leg looks at the unclaimed rows present, takes a
single candidate, and of several takes one or none. `Arrived.refines` makes this precise — a
unit of work is one arrival of the abstract matcher whose `sees` is `Finds` — so when the
pairing depends on the order of arrival is a fact about matchers: `pairing_orderFree_iff`.

`Finds env a b` says that the arriving event `a` has the unclaimed row of `b` in its filtered
candidate list.

The matcher is a system of its own, over any type of elements and any relation of seeing each other.
What it says about symmetry and about elements with two partners is proved there, and carried over
to the tables by the simulation. The tables are one realisation of it, and both directions of the
equivalence come from the matcher.
-/

namespace Grosh

open OnlineMatching

variable {env : PipelineEnv} {nenv : NormalizerEnv} {userId : UUID} {db : Database}
  {events arrived : List NormalizedTransaction} {a b : NormalizedTransaction}

/-! ## The events -/

/-- A finite set of Monobank wire transfers of one user: each carries the id its source id
determines (`monobankNormalize_id`), no two the same. -/
structure MonobankLegs (nenv : NormalizerEnv) (userId : UUID)
    (events : List NormalizedTransaction) : Prop where
  source : ∀ tx ∈ events, tx.source = "monobank"
  mcc : ∀ tx ∈ events, tx.mcc = some wireTransfer
  user : ∀ tx ∈ events, tx.userId = userId
  ids : ∀ tx ∈ events, tx.id = generateTransactionId nenv "monobank" tx.sourceId
  noLayer : ∀ tx ∈ events, tx.NoLayer
  nodup : (events.map NormalizedTransaction.id).Nodup

theorem MonobankLegs.eq_of_id (h : MonobankLegs nenv userId events) (ha : a ∈ events)
    (hb : b ∈ events) (he : a.id = b.id) : a = b :=
  List.inj_on_of_nodup_map h.nodup ha hb he

/-! ## What an arriving event finds -/

/-- The row of an event as long as nobody has claimed it. -/
def unclaimedRow (tx : NormalizedTransaction) : Transaction :=
  toRow tx .monobank "" none (fun _ => none) none none

/-- The arriving event looks for a partner and the row is in its filtered candidate list. -/
def findsRow (env : PipelineEnv) (tx : NormalizedTransaction) (r : Transaction) : Bool :=
  decide (Detects tx) && decide ((incomingFlags env tx).cpIbanStatus ≠ .unlinked) &&
    eligible env tx r

/-- Both events can be stored, and the arriving first one finds the second, stored and
unclaimed. -/
def Finds (env : PipelineEnv) (a b : NormalizedTransaction) : Prop :=
  Admitted env a ∧ Admitted env b ∧ findsRow env a (unclaimedRow b) = true

/-- The row is that of the event, in the columns the matcher looks at. -/
structure RowOf (tx : NormalizedTransaction) (r : Transaction) : Prop where
  id : r.id = tx.id
  sourceId : r.sourceId = tx.sourceId
  accountId : r.accountId = tx.accountId
  looked : ∀ x : NormalizedTransaction, matchesUniversal x r =
    (matchesUniversal x (unclaimedRow tx) && r.relatedTransactionId.isNone)
  candidate : CandidateRow.ofRow r = CandidateRow.ofRow (unclaimedRow tx)

theorem rowOf_enrichedRow (tx : NormalizedTransaction) (source : TransactionSource)
    (account : AccountProps) (conversion : ConversionResult) (res : TransferResult) :
    RowOf tx (enrichedRow tx source account conversion res) where
  id := rfl
  sourceId := rfl
  accountId := rfl
  looked := by
    intro x
    simp only [matchesUniversal, enrichedRow, unclaimedRow, toRow, Option.isNone_none,
      Bool.and_true]
    ac_rfl
  candidate := rfl

theorem RowOf.claimed {tx : NormalizedTransaction} {r : Transaction} (h : RowOf tx r)
    (newId : UUID) (metadata : Json) : RowOf tx (r.claimed newId metadata) where
  id := h.id
  sourceId := h.sourceId
  accountId := h.accountId
  looked := by
    intro x
    simp [matchesUniversal, Transaction.claimed]
  candidate := h.candidate

/-- A row is found if it is unclaimed and its event is one the arriving event finds. -/
theorem RowOf.findsRow_iff {r : Transaction} (h : RowOf b r) :
    findsRow env a r = true ↔
      findsRow env a (unclaimedRow b) = true ∧ r.relatedTransactionId = none := by
  simp only [findsRow, eligible, h.looked a, h.candidate, Bool.and_eq_true,
    Option.isNone_iff_eq_none]
  tauto

/-! ## A single candidate is claimed -/

theorem eq_singleton_of_nodup {β : Type} {l : List β} {x : β} (hnd : l.Nodup)
    (hx : x ∈ l) (hall : ∀ y ∈ l, y = x) : l = [x] := by
  match l, hnd with
  | [], _ => cases hx
  | [y], _ => rw [hall y (List.mem_singleton_self y)]
  | y :: z :: l, hnd =>
    have hy := hall y (List.mem_cons_self ..)
    have hz := hall z (List.mem_cons_of_mem _ (List.mem_cons_self ..))
    have hne := (List.nodup_cons.mp hnd).1
    rw [hy, hz] at hne
    exact absurd (List.mem_cons_self ..) hne

/-- Candidates are rows, so none is listed twice. -/
theorem scoredCandidates_nodup (env : PipelineEnv) (db : Database) (tx : NormalizedTransaction) :
    (scoredCandidates env db tx).Nodup := by
  have hrows : (db.transactions.rows.filter (matchesUniversal tx)).map Transaction.id |>.Nodup :=
    db.transactions.nodup.sublist (List.filter_sublist.map _)
  have hscan : ((env.scan (db.transactions.rows.filter (matchesUniversal tx))).map
      Transaction.id).Nodup := ((env.scan_perm _).map _).nodup_iff.mpr hrows
  have hfetched : (findUniversalCandidates env db tx).Nodup := by
    apply List.Nodup.of_map CandidateRow.id
    rw [findUniversalCandidates, List.map_map]
    exact hscan
  apply hfetched.filterMap
  intro c c' sc hc hc'
  simp only [Option.mem_def, Option.ite_none_right_eq_some, Option.some.injEq] at hc hc'
  rw [← hc.2] at hc'
  exact (Prod.mk.inj hc'.2).1.symm

/-- With one scored candidate, detection returns it as the partner, and the pair block of its
evidence. -/
theorem runTransferDetection_single {tx : NormalizedTransaction} {c : CandidateRow}
    {ev : PairEvidence} {res : TransferResult} {db₁ : Database} (hd : Detects tx)
    (hf : ¬ db.Stored tx.id) (hu : (incomingFlags env tx).cpIbanStatus ≠ .unlinked)
    (hs : scoredCandidates env db tx = [(c, ev)])
    (h : runTransferDetection env db tx = .ok (res, db₁)) :
    res.relatedTransactionId = some c.id ∧
      res.metadataBlock = some (claimBlock env tx (buildPairBlock ev false)) := by
  rw [runTransferDetection, if_pos hd.1, detectAndPair_of_fresh hd.2.1 hd.2.2 hf, if_neg hu,
    hs] at h
  split at h
  · cases h
  split at h
  · cases h
  next decision hdec =>
  obtain ⟨props, -, rfl⟩ := decideSingle_cases hdec
  simp only [applyDecision] at h
  split at h
  · cases h
  · obtain ⟨rfl, -⟩ := Prod.mk.inj (Except.ok.inj h)
    exact ⟨rfl, rfl⟩

/-! ## Links -/

/-- A row whose link leads to `y`. -/
def Linked (db : Database) (x y : UUID) : Prop :=
  ∃ r ∈ db.transactions.rows, r.id = x ∧ r.relatedTransactionId = some y

instance (db : Database) (x y : UUID) : Decidable (Linked db x y) :=
  inferInstanceAs (Decidable (∃ r ∈ db.transactions.rows, _ ∧ _))

/-- Two transactions are paired: the unordered pair is linked. The order in which the two ids are
named does not matter, nor on which of the rows the link is found. -/
def Paired (db : Database) (x y : UUID) : Prop := Linked db x y ∨ Linked db y x

instance (db : Database) (x y : UUID) : Decidable (Paired db x y) :=
  inferInstanceAs (Decidable (_ ∨ _))

theorem PairLinked.linked_symm (h : PairLinked db) {x y : UUID} (hl : Linked db x y) :
    Linked db y x := by
  obtain ⟨r, hr, rfl, hy⟩ := hl
  obtain ⟨r', hr', rfl, hback⟩ := h.symmetric r hr y hy
  exact ⟨r', hr', rfl, hback⟩

theorem PairLinked.paired_iff (h : PairLinked db) {x y : UUID} :
    Paired db x y ↔ Linked db x y := by
  refine ⟨fun hp => hp.elim id fun hl => h.linked_symm hl, Or.inl⟩

theorem linked_persist_iff {row : Transaction} {anomalies : List AnomalyRecord} {x y : UUID}
    (hf : ¬ db.Stored row.id) (hrel : row.relatedTransactionId = none) :
    Linked (db.persist row anomalies) x y ↔ Linked db x y := by
  refine ⟨?_, ?_⟩
  · rintro ⟨r, hr, hx, hy⟩
    rcases (Database.mem_persist hf).mp hr with hr | rfl
    · exact ⟨r, hr, hx, hy⟩
    · rw [hrel] at hy
      cases hy
  · rintro ⟨r, hr, hx, hy⟩
    exact ⟨r, (Database.mem_persist hf).mpr (Or.inl hr), hx, hy⟩

theorem linked_claim_persist_iff {r row : Transaction} {metadata : Json}
    {anomalies : List AnomalyRecord} {x y : UUID} (hr : r ∈ db.transactions)
    (hf : ¬ db.Stored row.id) (hfree : r.relatedTransactionId = none)
    (hrel : row.relatedTransactionId = some r.id) :
    Linked ((db.claim r.id row.id metadata).persist row anomalies) x y ↔
      Linked db x y ∨ x = row.id ∧ y = r.id ∨ x = r.id ∧ y = row.id := by
  have hmem : ∀ r', r' ∈ ((db.claim r.id row.id metadata).persist row anomalies).transactions ↔
      r' = row ∨ r' = r.claimed row.id metadata ∨ r' ∈ db.transactions ∧ r'.id ≠ r.id :=
    fun _ => Database.mem_claim_persist hr hf
  refine ⟨?_, ?_⟩
  · rintro ⟨r', hr', rfl, hy⟩
    rcases (hmem r').mp hr' with rfl | rfl | ⟨hr', -⟩
    · rw [hrel] at hy
      exact Or.inr (Or.inl ⟨rfl, (Option.some.inj hy).symm⟩)
    · exact Or.inr (Or.inr ⟨rfl, (Option.some.inj hy).symm⟩)
    · exact Or.inl ⟨r', hr', rfl, hy⟩
  · rintro (⟨r', hr', rfl, hy⟩ | ⟨rfl, rfl⟩ | ⟨rfl, rfl⟩)
    · have hne : r'.id ≠ r.id := by
        intro he
        rw [KeyedTable.eq_of_key_eq hr' hr he, hfree] at hy
        cases hy
      exact ⟨r', (hmem r').mpr (Or.inr (Or.inr ⟨hr', hne⟩)), rfl, hy⟩
    · exact ⟨row, (hmem row).mpr (Or.inl rfl), rfl, hrel⟩
    · exact ⟨_, (hmem _).mpr (Or.inr (Or.inl rfl)), rfl, rfl⟩

/-! ## The refinement

The tables are looked at as a state of the abstract matcher: its arrivals are the events that have
been consumed and can be stored, and its links are those of the rows. -/

/-- The tables after some arrivals: one row for each event that can be stored, with sound rows and
linked pairs. An event that cannot be stored leaves nothing behind. -/
structure Arrived (env : PipelineEnv) (db : Database) (arrived : List NormalizedTransaction) :
    Prop where
  sound : RowsSound env db
  linked : PairLinked db
  rows : ∀ r ∈ db.transactions, ∃ b ∈ arrived, Admitted env b ∧ RowOf b r
  stored : ∀ b ∈ arrived, Admitted env b → db.Stored b.id

theorem arrived_nil : Arrived env .empty [] where
  sound := rowsSound_empty
  linked := pairLinked_empty
  rows := fun _ hr => absurd hr KeyedTable.not_mem_empty
  stored := fun _ hb => absurd hb List.not_mem_nil

/-- The matcher's view of the tables. -/
def matcherState (db : Database) (arrived : List NormalizedTransaction) :
    State NormalizedTransaction :=
  ⟨{x | x ∈ arrived}, fun x y => x ∈ arrived ∧ y ∈ arrived ∧ Linked db x.id y.id⟩

/-- An unclaimed row of the tables is the row of a free arrival. -/
theorem matcherState_free {r : Transaction} (hr : r ∈ db.transactions)
    (hrel : r.relatedTransactionId = none) (hid : r.id = b.id) :
    (matcherState db arrived).Free b := by
  rintro c ⟨-, -, r', hr', hid', hl⟩
  rw [KeyedTable.eq_of_key_eq hr' hr (hid'.trans hid.symm), hrel] at hl
  cases hl

/-- The row of a free arrival is unclaimed. -/
theorem Arrived.row_of_free (h : Arrived env db arrived) (hev : MonobankLegs nenv userId events)
    (hsub : ∀ x ∈ arrived, x ∈ events) (hb : b ∈ arrived) (hadm : Admitted env b)
    (hfree : (matcherState db arrived).Free b) :
    ∃ r ∈ db.transactions, r.id = b.id ∧ r.relatedTransactionId = none ∧ RowOf b r := by
  obtain ⟨r, hr, hid⟩ := h.stored b hb hadm
  obtain ⟨b', hb', -, hrow⟩ := h.rows r hr
  obtain rfl := hev.eq_of_id (hsub b' hb') (hsub b hb) (hrow.id.symm.trans hid)
  refine ⟨r, hr, hid, ?_, hrow⟩
  rcases hrel : r.relatedTransactionId with _ | p
  · rfl
  · obtain ⟨q, hq, rfl, -⟩ := h.linked.symmetric r hr p hrel
    obtain ⟨c, hc, -, hcrow⟩ := h.rows q hq
    exact absurd ⟨hb, hc, r, hr, hid, by rw [hrel, hcrow.id]⟩ (hfree c)

/-- An event that cannot be stored leaves no trace: its unit of work is rolled back, with whatever
it had claimed. -/
theorem Arrived.consume_of_not_admitted (h : Arrived env db arrived) (hn : a.NoLayer)
    (hadm : ¬ Admitted env a) : Grosh.consume env db a = db :=
  consume_of_settled h.sound hn (Or.inr (Or.inl hadm))

/-- A free arrival that the arriving event finds is one of its scored candidates, and the
other way round. -/
theorem Arrived.offered_iff (h : Arrived env db arrived) (hev : MonobankLegs nenv userId events)
    (hsub : ∀ x ∈ arrived, x ∈ events) (hadm : Admitted env a) :
    Offered (Finds env) (matcherState db arrived) a b ↔
      b ∈ arrived ∧ ∃ r ∈ db.transactions, r.id = b.id ∧ findsRow env a r = true := by
  refine ⟨?_, ?_⟩
  · rintro ⟨hb, hfree, -, hadmb, hfinds⟩
    obtain ⟨r, hr, hid, hrel, hrow⟩ := h.row_of_free hev hsub hb hadmb hfree
    exact ⟨hb, r, hr, hid, hrow.findsRow_iff.mpr ⟨hfinds, hrel⟩⟩
  · rintro ⟨hb, r, hr, hid, hfinds⟩
    obtain ⟨b', hb', hadmb, hrow⟩ := h.rows r hr
    obtain rfl := hev.eq_of_id (hsub b' hb') (hsub b hb) (hrow.id.symm.trans hid)
    obtain ⟨hfinds, hrel⟩ := hrow.findsRow_iff.mp hfinds
    exact ⟨hb, matcherState_free hr hrel hid, hadm, hadmb, hfinds⟩

section Step

variable (hev : MonobankLegs nenv userId events) (hsub : ∀ x ∈ arrived, x ∈ events)
  (ha : a ∈ events) (hna : a ∉ arrived) (h : Arrived env db arrived)

include hev hsub ha hna h

theorem Arrived.not_stored : ¬ db.Stored a.id := by
  rintro ⟨r, hr, hid⟩
  obtain ⟨b, hb, -, hrow⟩ := h.rows r hr
  exact hna (hev.eq_of_id ha (hsub b hb) (hid.symm.trans hrow.id) ▸ hb)

/-- Ids follow from source ids, so two events never share a dedup key. -/
theorem Arrived.dedup_free : ¬ db.DedupTaken a.accountId a.sourceId := by
  rintro ⟨r, hr, -, hsrc⟩
  obtain ⟨b, hb, -, hrow⟩ := h.rows r hr
  have hid : a.id = b.id := by
    rw [hev.ids a ha, hev.ids b (hsub b hb), ← hrow.sourceId, hsrc]
  exact hna (hev.eq_of_id ha (hsub b hb) hid ▸ hb)

/-- An event that can be stored is stored when it arrives. -/
theorem Arrived.run_ok (hadm : Admitted env a) : ∃ db', run env db a = .ok db' :=
  (run_ok_iff h.sound (hev.noLayer a ha) (h.not_stored hev hsub ha hna)).mpr
    ⟨hadm, h.dedup_free hev hsub ha hna⟩

theorem Arrived.consume : Arrived env (consume env db a) (a :: arrived) where
  sound := h.sound.consume (hev.noLayer a ha)
  linked := h.linked.consume h.sound.settable
  rows := by
    intro r hr
    rcases consume_row_cases hr with hr | ⟨account, source, conversion, res, _, _, he, rfl⟩ |
      ⟨-, r₀, hr₀, -, _, _, -, rfl⟩
    · obtain ⟨b, hb, hadm, hrow⟩ := h.rows r hr
      exact ⟨b, List.mem_cons_of_mem _ hb, hadm, hrow⟩
    · refine ⟨a, List.mem_cons_self .., ?_, rowOf_enrichedRow ..⟩
      by_contra hadm
      have hst : (Grosh.consume env db a).Stored a.id := ⟨_, hr, rfl⟩
      rw [h.consume_of_not_admitted (hev.noLayer a ha) hadm] at hst
      exact h.not_stored hev hsub ha hna hst
    · obtain ⟨b, hb, hadm, hrow⟩ := h.rows r₀ hr₀
      exact ⟨b, List.mem_cons_of_mem _ hb, hadm, hrow.claimed _ _⟩
  stored := by
    intro b hb hadm
    rcases List.mem_cons.mp hb with rfl | hb
    · obtain ⟨db', hrun⟩ := h.run_ok hev hsub ha hna hadm
      simp only [Grosh.consume, hrun]
      exact stored_of_run hrun
    · exact consume_stored_mono (h.stored b hb hadm)

/-- Nothing is linked with an event that has not arrived. -/
theorem Arrived.not_linked {x : UUID} : ¬ Linked db a.id x ∧ ¬ Linked db x a.id := by
  have hst := h.not_stored hev hsub ha hna
  have hleft : ∀ y, ¬ Linked db a.id y := by
    rintro y ⟨r, hr, hid, -⟩
    exact hst ⟨r, hr, hid⟩
  exact ⟨hleft x, fun hl => hleft x (h.linked.linked_symm hl)⟩

/-- The matcher's view when the links among the earlier arrivals stay as they are. -/
theorem Arrived.matcherState_alone {db' : Database}
    (hlink : ∀ x y, Linked db' x y ↔ Linked db x y) :
    matcherState db' (a :: arrived) = (matcherState db arrived).alone a := by
  ext x y
  · simp [matcherState, State.alone]
  · simp only [matcherState, State.alone, hlink, List.mem_cons]
    refine ⟨?_, ?_⟩
    · rintro ⟨rfl | hx, rfl | hy, hl⟩
      · exact absurd hl (h.not_linked hev hsub ha hna).1
      · exact absurd hl (h.not_linked hev hsub ha hna).1
      · exact absurd hl (h.not_linked hev hsub ha hna).2
      · exact ⟨hx, hy, hl⟩
    · rintro ⟨hx, hy, hl⟩
      exact ⟨Or.inr hx, Or.inr hy, hl⟩

/-- The matcher's view when the arriving event is linked with `b`. -/
theorem Arrived.matcherState_matched {db' : Database} (hb : b ∈ arrived)
    (hlink : ∀ x y, Linked db' x y ↔
      Linked db x y ∨ x = a.id ∧ y = b.id ∨ x = b.id ∧ y = a.id) :
    matcherState db' (a :: arrived) = (matcherState db arrived).matched a b := by
  have hid : ∀ x ∈ a :: arrived, ∀ y ∈ a :: arrived, x.id = y.id → x = y := by
    have hin : ∀ x ∈ a :: arrived, x ∈ events := by
      intro x hx
      rcases List.mem_cons.mp hx with rfl | hx
      · exact ha
      · exact hsub x hx
    exact fun x hx y hy he => hev.eq_of_id (hin x hx) (hin y hy) he
  have hma : a ∈ a :: arrived := List.mem_cons_self ..
  have hmb : b ∈ a :: arrived := List.mem_cons_of_mem _ hb
  ext x y
  · simp [matcherState, State.matched]
  · simp only [matcherState, State.matched, hlink]
    refine ⟨?_, ?_⟩
    · rintro ⟨hx, hy, hl | ⟨hxa, hyb⟩ | ⟨hxb, hya⟩⟩
      · rcases List.mem_cons.mp hx with rfl | hx
        · exact absurd hl (h.not_linked hev hsub ha hna).1
        rcases List.mem_cons.mp hy with rfl | hy
        · exact absurd hl (h.not_linked hev hsub ha hna).2
        exact Or.inl ⟨hx, hy, hl⟩
      · exact Or.inr (Or.inl ⟨hid x hx a hma hxa, hid y hy b hmb hyb⟩)
      · exact Or.inr (Or.inr ⟨hid x hx b hmb hxb, hid y hy a hma hya⟩)
    · rintro (⟨hx, hy, hl⟩ | ⟨rfl, rfl⟩ | ⟨rfl, rfl⟩)
      · exact ⟨List.mem_cons_of_mem _ hx, List.mem_cons_of_mem _ hy, Or.inl hl⟩
      · exact ⟨hma, hmb, Or.inr (Or.inl ⟨rfl, rfl⟩)⟩
      · exact ⟨hmb, hma, Or.inr (Or.inr ⟨rfl, rfl⟩)⟩

/-- Where exactly one arrival is offered, detection returns its row. -/
theorem Arrived.related_of_single (hadm : Admitted env a) {res : TransferResult}
    {db₁ : Database} (hret : runTransferDetection env db a = .ok (res, db₁))
    (hb : Offered (Finds env) (matcherState db arrived) a b)
    (hall : ∀ c, Offered (Finds env) (matcherState db arrived) a c → c = b) :
    res.relatedTransactionId = some b.id := by
  have hst := h.not_stored hev hsub ha hna
  obtain ⟨-, r, hr, hid, hfinds⟩ := (h.offered_iff hev hsub hadm).mp hb
  have hfound := hfinds
  simp only [findsRow, Bool.and_eq_true, decide_eq_true_eq] at hfound
  obtain ⟨⟨hdet, hlinked⟩, hel⟩ := hfound
  -- every scored candidate is the row of an offered arrival, hence this one
  have hsingle : scoredCandidates env db a =
      [(CandidateRow.ofRow r, evidenceWith env a (.ofRow r))] := by
    refine eq_singleton_of_nodup (scoredCandidates_nodup env db a)
      (mem_scoredCandidates.mpr ⟨r, hr, hel, rfl, rfl⟩) ?_
    rintro ⟨c, ev⟩ hc
    obtain ⟨r', hr', hel', rfl, rfl⟩ := mem_scoredCandidates.mp hc
    obtain ⟨b', hb', -, hrow⟩ := h.rows r' hr'
    have hfinds' : findsRow env a r' = true := by
      simp only [findsRow, Bool.and_eq_true, decide_eq_true_eq]
      exact ⟨⟨hdet, hlinked⟩, hel'⟩
    obtain rfl := hall b' ((h.offered_iff hev hsub hadm).mpr
      ⟨hb', r', hr', hrow.id, hfinds'⟩)
    rw [KeyedTable.eq_of_key_eq hr' hr (hrow.id.trans hid.symm)]
  rw [(runTransferDetection_single hdet hst hlinked hsingle hret).1, ← hid]
  rfl

/-- **A unit of work is one arrival of the matcher**: what it does to the rows is a step that the
matcher may make with the candidates it is offered. -/
theorem Arrived.refines :
    Step (Finds env) (matcherState db arrived) a
      (matcherState (Grosh.consume env db a) (a :: arrived)) := by
  by_cases hadm : Admitted env a
  swap
  · rw [h.consume_of_not_admitted (hev.noLayer a ha) hadm,
      h.matcherState_alone hev hsub ha hna fun _ _ => Iff.rfl]
    exact .alone fun b hb => absurd hb.2.2.1 hadm
  have hst := h.not_stored hev hsub ha hna
  obtain ⟨db', hrun⟩ := h.run_ok hev hsub ha hna hadm
  simp only [Grosh.consume, hrun]
  rcases run_cases hrun with ⟨hst', -⟩ | ⟨account, source, conversion, res, db₁, he⟩
  · exact absurd hst' hst
  have hret := he.returned
  obtain ⟨-, -, -, -, -, -, -, -, hdet, rfl⟩ := he
  cases hdet with
  | skipped hskip =>
    rw [h.matcherState_alone hev hsub ha hna fun x y => linked_persist_iff hst rfl]
    refine .alone fun b hb => ?_
    obtain ⟨-, -, -, -, hfinds⟩ := hb
    simp only [findsRow, Bool.and_eq_true, decide_eq_true_eq] at hfinds
    exact absurd hfinds.1.1 (hskip.resolve_right hst)
  | unpaired anomalies =>
    rw [h.matcherState_alone hev hsub ha hna fun x y => linked_persist_iff hst rfl]
    refine .alone fun b hb => ?_
    by_contra hno
    have hall : ∀ c, Offered (Finds env) (matcherState db arrived) a c → c = b :=
      fun c hc => not_not.mp fun hne => hno ⟨c, hc, hne⟩
    cases h.related_of_single hev hsub ha hna hadm hret hb hall
  | claimed r pair metadata canary hd _ hlinked hr hel =>
    obtain ⟨b, hb, -, hrow⟩ := h.rows r hr
    have hfinds : findsRow env a r = true := by
      simp only [findsRow, Bool.and_eq_true, decide_eq_true_eq]
      exact ⟨⟨hd, hlinked⟩, hel⟩
    rw [h.matcherState_matched hev hsub ha hna hb fun x y => ?_]
    · exact .matched b ((h.offered_iff hev hsub hadm).mpr ⟨hb, r, hr, hrow.id, hfinds⟩)
    · rw [← hrow.id]
      exact linked_claim_persist_iff hr hst (eligible_free hel) rfl

end Step

/-- The units of work of a list of new events are a run of the matcher. -/
theorem Arrived.run (hev : MonobankLegs nenv userId events) {order : List NormalizedTransaction} :
    ∀ {db : Database} {arrived : List NormalizedTransaction}, Arrived env db arrived →
      (∀ x ∈ arrived, x ∈ events) → (∀ x ∈ order, x ∈ events) → order.Nodup →
      (∀ x ∈ order, x ∉ arrived) →
      Arrived env (consumeAll env db order) (order.reverse ++ arrived) ∧
        Run (Finds env) (matcherState db arrived) order
          (matcherState (consumeAll env db order) (order.reverse ++ arrived)) := by
  induction order with
  | nil => exact fun h _ _ _ _ => ⟨h, .nil _⟩
  | cons a order ih =>
    intro db arrived h hsub hin hnd hnew
    have ha := hin a (List.mem_cons_self ..)
    have hna := hnew a (List.mem_cons_self ..)
    obtain ⟨haord, hnd⟩ := List.nodup_cons.mp hnd
    have hsub' : ∀ x ∈ a :: arrived, x ∈ events := by
      intro x hx
      rcases List.mem_cons.mp hx with rfl | hx
      · exact ha
      · exact hsub x hx
    have hnew' : ∀ x ∈ order, x ∉ a :: arrived := by
      intro x hx hxa
      rcases List.mem_cons.mp hxa with rfl | hxa
      · exact haord hx
      · exact hnew x (List.mem_cons_of_mem _ hx) hxa
    obtain ⟨harr, hrun⟩ := ih (h.consume hev hsub ha hna) hsub'
      (fun x hx => hin x (List.mem_cons_of_mem _ hx)) hnd hnew'
    rw [List.reverse_cons, List.append_assoc]
    exact ⟨harr, .cons (h.refines hev hsub ha hna) hrun⟩

theorem finds_irrefl (a : NormalizedTransaction) : ¬ Finds env a a := by
  rintro ⟨-, -, hfinds⟩
  simp [findsRow, eligible, matchesUniversal, unclaimedRow, toRow] at hfinds

/-- A link of the tables is a link of the matcher. -/
theorem Arrived.linked_iff (h : Arrived env db arrived) {x y : UUID} :
    Linked db x y ↔ ∃ a b, (matcherState db arrived).link a b ∧ a.id = x ∧ b.id = y := by
  refine ⟨?_, ?_⟩
  · rintro ⟨r, hr, rfl, hy⟩
    obtain ⟨q, hq, rfl, -⟩ := h.linked.symmetric r hr y hy
    obtain ⟨a, ha, -, harow⟩ := h.rows r hr
    obtain ⟨b, hb, -, hbrow⟩ := h.rows q hq
    refine ⟨a, b, ⟨ha, hb, ?_⟩, harow.id.symm, hbrow.id.symm⟩
    rw [← harow.id, ← hbrow.id]
    exact ⟨r, hr, rfl, hy⟩
  · rintro ⟨a, b, ⟨-, -, hl⟩, rfl, rfl⟩
    exact hl

/-- **When the pairing is independent of the order of arrival**: exactly when finding is symmetric
among the events and no event finds two of the others. Both directions come from the matcher, since
the tables are one. -/
theorem pairing_orderFree_iff (hev : MonobankLegs nenv userId events) :
    (∀ o₁ o₂, o₁.Perm events → o₂.Perm events → ∀ x y,
      Paired (consumeAll env .empty o₁) x y ↔ Paired (consumeAll env .empty o₂) x y) ↔
    OrderFree (Finds env) events := by
  have hnd : events.Nodup := hev.nodup.of_map _
  have hrun : ∀ order, order.Perm events →
      Arrived env (consumeAll env .empty order) (order.reverse ++ []) ∧
        Run (Finds env) State.empty order
          (matcherState (consumeAll env .empty order) (order.reverse ++ [])) := by
    intro order hp
    have hempty : matcherState .empty [] = (State.empty : State NormalizedTransaction) := by
      ext x y <;> simp [matcherState, State.empty]
    rw [← hempty]
    exact Arrived.run hev arrived_nil (fun _ hx => absurd hx List.not_mem_nil)
      (fun x hx => hp.mem_iff.mp hx) (hp.nodup_iff.mpr hnd) fun _ _ => List.not_mem_nil
  rw [← orderFree_iff hnd (fun a _ => finds_irrefl a)
    (fun order => matcherState (consumeAll env .empty order) (order.reverse ++ []))
    fun order hp => (hrun order hp).2]
  have hmem : ∀ order : List NormalizedTransaction, order.Perm events →
      ∀ a, a ∈ order.reverse ++ [] ↔ a ∈ events := by
    intro order hp a
    rw [List.append_nil, List.mem_reverse, hp.mem_iff]
  refine ⟨?_, ?_⟩
  · intro hsame o₁ o₂ hp₁ hp₂ a b
    have hpair := hsame o₁ o₂ hp₁ hp₂ a.id b.id
    rw [(hrun o₁ hp₁).1.linked.paired_iff, (hrun o₂ hp₂).1.linked.paired_iff] at hpair
    simp only [matcherState, hmem o₁ hp₁, hmem o₂ hp₂, hpair]
  · intro hsame o₁ o₂ hp₁ hp₂ x y
    rw [(hrun o₁ hp₁).1.linked.paired_iff, (hrun o₂ hp₂).1.linked.paired_iff,
      (hrun o₁ hp₁).1.linked_iff, (hrun o₂ hp₂).1.linked_iff]
    simp only [hsame o₁ o₂ hp₁ hp₂]

/-! ### Three mutually fitting legs -/

/-- The identifiers of the sample legs, as `uuid5` computes them. -/
def sampleNormalizerEnv : NormalizerEnv where
  uuid5 := fun name =>
    if name = "monobank:a" then 0x2fb91b2f80715ea5bb99f1a552e54832
    else if name = "monobank:b" then 0x3f5e7cec64305b6cbeb5949bab3886a1
    else if name = "monobank:c" then 0x126a49edecc15c3497891d798a20268f
    else 0
  pycountry := fun code => if code = "980" then some "UAH" else none

theorem monobankLegs_of_sample {l : List NormalizedTransaction}
    (hl : ∀ tx ∈ l, tx = sampleExpense ∨ tx = sampleIncome ∨ tx = sampleIncome')
    (hnd : (l.map NormalizedTransaction.id).Nodup) : MonobankLegs sampleNormalizerEnv 1 l where
  source := fun tx ht => by rcases hl tx ht with rfl | rfl | rfl <;> rfl
  mcc := fun tx ht => by rcases hl tx ht with rfl | rfl | rfl <;> rfl
  user := fun tx ht => by rcases hl tx ht with rfl | rfl | rfl <;> rfl
  ids := fun tx ht => by rcases hl tx ht with rfl | rfl | rfl <;> decide
  noLayer := fun tx ht => by
    rcases hl tx ht with rfl | rfl | rfl <;> exact fun _ h => by cases h
  nodup := hnd

/-- Two legs pair in either order. -/
theorem pairing_orderFree_iff_two_legs :
    OrderFree (Finds sampleEnv) [sampleExpense, sampleIncome] ∧
    ∀ o₁ o₂, o₁.Perm [sampleExpense, sampleIncome] → o₂.Perm [sampleExpense, sampleIncome] →
      ∀ x y, Paired (consumeAll sampleEnv .empty o₁) x y ↔
        Paired (consumeAll sampleEnv .empty o₂) x y := by
  have hfree : OrderFree (Finds sampleEnv) [sampleExpense, sampleIncome] := by
    have hfinds : findsRow sampleEnv sampleExpense (unclaimedRow sampleIncome) = true ∧
        findsRow sampleEnv sampleIncome (unclaimedRow sampleExpense) = true := by decide
    refine ⟨fun a ha b hb hab => ?_, fun a ha b hb c hc hab hac => ?_⟩
    · simp only [List.mem_cons, List.not_mem_nil, or_false] at ha hb
      rcases ha with rfl | rfl <;> rcases hb with rfl | rfl
      · exact hab
      · exact ⟨hab.2.1, hab.1, hfinds.2⟩
      · exact ⟨hab.2.1, hab.1, hfinds.1⟩
      · exact hab
    · simp only [List.mem_cons, List.not_mem_nil, or_false] at ha hb hc
      rcases ha with rfl | rfl <;> rcases hb with rfl | rfl <;> rcases hc with rfl | rfl <;>
        first | rfl | exact absurd hab (finds_irrefl _) | exact absurd hac (finds_irrefl _)
  refine ⟨hfree, (pairing_orderFree_iff (monobankLegs_of_sample ?_ (by decide))).mpr hfree⟩
  intro tx ht
  simp only [List.mem_cons, List.not_mem_nil, or_false] at ht
  exact ht.imp_right Or.inl

/-- An expense and two fitting incomes: the income that comes first after the expense gets
it. -/
theorem pairing_depends_on_order :
    MonobankLegs sampleNormalizerEnv 1 [sampleExpense, sampleIncome, sampleIncome'] ∧
    [sampleExpense, sampleIncome', sampleIncome].Perm
      [sampleExpense, sampleIncome, sampleIncome'] ∧
    Paired (consumeAll sampleEnv .empty [sampleExpense, sampleIncome, sampleIncome'])
      sampleExpense.id sampleIncome.id ∧
    ¬ Paired (consumeAll sampleEnv .empty [sampleExpense, sampleIncome', sampleIncome])
      sampleExpense.id sampleIncome.id := by
  refine ⟨monobankLegs_of_sample (fun tx ht => ?_) (by decide),
    (List.Perm.swap _ _ _).cons _, by decide, by decide⟩
  simpa only [List.mem_cons, List.not_mem_nil, or_false] using ht

end Grosh
