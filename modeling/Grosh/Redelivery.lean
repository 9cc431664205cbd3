import Grosh.PairLinks

/-!
# Redeliveries change nothing

Kafka delivers at least once, so an event may be consumed again at any later time: after its
row has been claimed, has become a candidate of others, or has lost its anomaly.
`consumeAll_firstOccurrences` says that the tables do not notice.

The argument is one notion: an event is `Settled` when it is stored, or when what rejects it
cannot change any more. A settled event is a no-op (`consume_of_settled`), consuming an event
settles it (`settled_consume_self`), and no later event unsettles it (`Settled.consume`).

The definition of being settled looks at the tables and at nothing that happens later, so that it
can be kept along a run. An event is rejected for its data, or because another row has its dedup
key. The first is no matter of the two tables, and the second cannot change since no row goes away.
-/

namespace Grosh

variable {env : PipelineEnv} {db : Database} {tx tx' : NormalizedTransaction}

/-- The events without the occurrences of an id already seen. The first occurrence of each stays
where it was. -/
def firstOccurrences : List UUID → List NormalizedTransaction → List NormalizedTransaction
  | _, [] => []
  | seen, tx :: events =>
    if tx.id ∈ seen then firstOccurrences seen events
    else tx :: firstOccurrences (tx.id :: seen) events

/-- Nothing will come of the event any more: it is stored, it is rejected whatever the tables hold,
or another row has its dedup key. None of the three can change back. -/
def Settled (env : PipelineEnv) (db : Database) (tx : NormalizedTransaction) : Prop :=
  db.Stored tx.id ∨ ¬ Admitted env tx ∨ db.DedupTaken tx.accountId tx.sourceId

/-- A dedup key, once taken, stays taken. -/
theorem consume_dedupTaken_mono {accountId : UUID} {sourceId : String}
    (h : db.DedupTaken accountId sourceId) : (consume env db tx).DedupTaken accountId sourceId := by
  rcases consume_cases env db tx with hdb | ⟨account, source, conversion, res, db₁, he⟩
  · rw [hdb]
    exact h
  obtain ⟨r, hr, hra, hrs⟩ := he.detection.dedupTaken_iff.mpr h
  rw [he.result]
  exact ⟨r, KeyedTable.mem_insertIgnore_of_mem hr, hra, hrs⟩

theorem Settled.consume (h : Settled env db tx) : Settled env (consume env db tx') tx := by
  rcases h with h | h | h
  · exact Or.inl (consume_stored_mono h)
  · exact Or.inr (Or.inl h)
  · exact Or.inr (Or.inr (consume_dedupTaken_mono h))

/-- Consuming a settled event is a no-op. -/
theorem consume_of_settled (hdb : RowsSound env db) (hn : tx.NoLayer)
    (h : Settled env db tx) : consume env db tx = db := by
  by_cases hst : db.Stored tx.id
  · exact consume_of_stored hst
  rcases hrun : run env db tx with e | db'
  · simp only [Grosh.consume, hrun]
  · obtain ⟨hadm, hdt⟩ := (run_ok_iff hdb hn hst).mp ⟨db', hrun⟩
    rcases h with h | h | h
    · exact absurd h hst
    · exact absurd hadm h
    · exact absurd h hdt

/-- Consuming an event settles it: the unit of work has stored it, or one of the two reasons why it
has not is a lasting one. -/
theorem settled_consume_self (hdb : RowsSound env db) (hn : tx.NoLayer) :
    Settled env (consume env db tx) tx := by
  by_cases hst : db.Stored tx.id
  · exact Or.inl (consume_stored_mono hst)
  rcases hrun : run env db tx with e | db'
  · have hno : ¬ (Admitted env tx ∧ ¬ db.DedupTaken tx.accountId tx.sourceId) := by
      intro h
      obtain ⟨db', hok⟩ := (run_ok_iff hdb hn hst).mpr h
      rw [hrun] at hok
      cases hok
    simp only [Grosh.consume, hrun]
    by_cases hadm : Admitted env tx
    · exact Or.inr (Or.inr (not_not.mp fun hdt => hno ⟨hadm, hdt⟩))
    · exact Or.inr (Or.inl hadm)
  · simp only [Grosh.consume, hrun]
    exact Or.inl (stored_of_run hrun)

/-- The run lemma: `seen` holds ids whose remaining occurrences are settled. -/
theorem consumeAll_firstOccurrences_of_seen {events : List NormalizedTransaction} :
    ∀ {seen : List UUID} {db : Database}, RowsSound env db → (∀ tx ∈ events, tx.NoLayer) →
      (∀ a ∈ events, ∀ b ∈ events, a.id = b.id → a = b) →
      (∀ tx ∈ events, tx.id ∈ seen → Settled env db tx) →
      consumeAll env db events = consumeAll env db (firstOccurrences seen events) := by
  induction events with
  | nil => exact fun _ _ _ _ => rfl
  | cons tx events ih =>
    intro seen db hdb hn hid hseen
    have hn' : ∀ e ∈ events, e.NoLayer := fun e he => hn e (List.mem_cons_of_mem _ he)
    have hid' : ∀ a ∈ events, ∀ b ∈ events, a.id = b.id → a = b :=
      fun a ha b hb => hid a (List.mem_cons_of_mem _ ha) b (List.mem_cons_of_mem _ hb)
    have htx : tx.NoLayer := hn tx (List.mem_cons_self ..)
    by_cases hmem : tx.id ∈ seen
    · have hnoop := consume_of_settled hdb htx (hseen tx (List.mem_cons_self ..) hmem)
      rw [firstOccurrences, if_pos hmem, ← ih hdb hn' hid'
        fun e he => hseen e (List.mem_cons_of_mem _ he)]
      change consumeAll env (consume env db tx) events = _
      rw [hnoop]
    · rw [firstOccurrences, if_neg hmem]
      apply ih (hdb.consume htx) hn' hid'
      intro e he hes
      rcases List.mem_cons.mp hes with heq | hes
      · obtain rfl := hid e (List.mem_cons_of_mem _ he) tx (List.mem_cons_self ..) heq
        exact settled_consume_self hdb htx
      · exact (hseen e (List.mem_cons_of_mem _ he) hes).consume

/-- **Enrichment is idempotent**: a sequence of events in which equal ids mean equal events
leaves the tables the sequence of their first occurrences leaves. -/
theorem consumeAll_firstOccurrences {events : List NormalizedTransaction}
    (hdb : RowsSound env db) (hn : ∀ tx ∈ events, tx.NoLayer)
    (hid : ∀ a ∈ events, ∀ b ∈ events, a.id = b.id → a = b) :
    consumeAll env db events = consumeAll env db (firstOccurrences [] events) :=
  consumeAll_firstOccurrences_of_seen hdb hn hid fun _ _ h => absurd h List.not_mem_nil

/-- A transfer whose first leg comes again after it was claimed. -/
theorem consumeAll_firstOccurrences_claimed :
    let events := [sampleExpense, sampleIncome, sampleExpense, sampleIncome, sampleExpense]
    firstOccurrences [] events = [sampleExpense, sampleIncome] ∧
    consumeAll sampleEnv .empty events =
      consumeAll sampleEnv .empty (firstOccurrences [] events) := by
  intro events
  have hev : ∀ tx ∈ events, tx = sampleExpense ∨ tx = sampleIncome := by
    intro tx htx
    simp only [events, List.mem_cons, List.not_mem_nil, or_false] at htx
    tauto
  refine ⟨rfl, consumeAll_firstOccurrences rowsSound_empty ?_ ?_⟩
  · intro tx htx
    rcases hev tx htx with rfl | rfl <;> exact fun _ h => by cases h
  · intro a ha b hb h
    rcases hev a ha with rfl | rfl <;> rcases hev b hb with rfl | rfl <;> first | rfl | cases h

end Grosh
