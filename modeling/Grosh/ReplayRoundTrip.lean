import Grosh.Reprocess

/-!
# The replay round trip

A row of `transactions` is written by the insert of enrichment, later claimed by the partner of
its pair, and read back by the reprocess job, which turns it into an event again. Enrichment
writes under `metadata.layer` only, and the event drops `metadata.layer`.

What is not preserved is named: the layer, which enrichment computes again, and the columns of the
link, which are no part of the event. Between the insert and the reading back any units of work may
run, with claims of the row among them, since none of them touches what the event is read from.

* `replay_round_trip` — the event read back is the event that was inserted, its metadata cut
  down to the source block; and it comes back from another replay as it is.
-/

namespace Grosh

/-- `metadata.source` of an event; a missing block counts as empty. -/
def NormalizedTransaction.sourceBlock (tx : NormalizedTransaction) : Json :=
  (Dict.get? (tx.metadata.getD []) "source").getD (.obj [])

/-- The event with its metadata cut down to the source block. The replay publishes an event of this
form, whatever layers the row has gained. -/
def NormalizedTransaction.replayed (tx : NormalizedTransaction) : NormalizedTransaction :=
  { tx with metadata := some [("source", tx.sourceBlock)] }

variable {env env' : PipelineEnv} {db db' : Database} {tx other : NormalizedTransaction}
  {r : Transaction} {source : TransactionSource} {metadata : Option Dict}

theorem replayed_noLayer (tx : NormalizedTransaction) : tx.replayed.NoLayer := by
  intro d hd
  obtain rfl := Option.some.inj hd
  simp [Dict.get?]

/-! ## What a row reads back as

The relation between a row and the event it came from is set up by the insert and kept by every
claim. All that can differ is what enrichment has derived. -/

/-- The row is read back as the event, and a claim can be written into it: its metadata is an
object, or there is none. -/
structure ReadsAs (r : Transaction) (tx : NormalizedTransaction) : Prop where
  event : (TransactionRow.ofRow r).toNormalized = tx.replayed
  object : ∀ m, r.metadata = some m → ∃ d, m = .obj d

/-- The metadata `_build_metadata` returns has the source block of the event's. -/
theorem buildMetadata_source {sourceMetadata : Option Dict} {contributions : List (String × Dict)}
    (h : buildMetadata sourceMetadata contributions = .ok metadata) :
    Dict.get? (metadata.getD []) "source" = Dict.get? (sourceMetadata.getD []) "source" := by
  simp only [buildMetadata] at h
  split at h
  · obtain rfl := Except.ok.inj h
    rfl
  · rcases hm : mergeLayers [] contributions with e | layer
    · rw [hm] at h
      cases h
    · rw [hm] at h
      obtain rfl := Except.ok.inj h
      exact Dict.get?_set_of_ne (by decide)

theorem toText_of_ofText {text : String} (h : TransactionSource.ofText text = some source) :
    source.toText = text := by
  simp only [TransactionSource.ofText] at h
  split at h
  · obtain rfl := Option.some.inj h
    rfl
  · obtain rfl := Option.some.inj h
    rfl
  · cases h

/-- The inserted row reads back as the event it was made of, whatever was converted or detected. -/
theorem readsAs_toRow {accountCurrency : String} {specialCategory : Option SpecialCategory}
    {converted : Currency → Option ℤ} {related : Option UUID}
    (hs : TransactionSource.ofText tx.source = some source)
    (hm : Dict.get? (metadata.getD []) "source" = Dict.get? (tx.metadata.getD []) "source") :
    ReadsAs (toRow tx source accountCurrency specialCategory converted metadata related) tx := by
  refine ⟨?_, fun m h => ?_⟩
  · have hread : (TransactionRow.ofRow (toRow tx source accountCurrency specialCategory converted
        metadata related)).metadata.getD [] = metadata.getD [] := by
      simp only [TransactionRow.ofRow, toRow]
      rcases metadata with _ | d
      · rfl
      · rcases d with _ | ⟨p, d⟩
        · rfl
        · rfl
    simp only [TransactionRow.toNormalized, hread, hm, NormalizedTransaction.replayed,
      NormalizedTransaction.sourceBlock]
    simp only [TransactionRow.ofRow, toRow, toText_of_ofText hs, Option.getD_some]
  · simp only [toRow] at h
    obtain ⟨d, -, h⟩ := Option.bind_eq_some_iff.mp h
    split at h
    · cases h
    · exact ⟨d, (Option.some.inj h).symm⟩

/-- A claim leaves the source block alone: it writes under `layer` only. -/
theorem claimMetadata_source {d : Dict} {pair m : Json}
    (h : claimMetadata (some (.obj d)) pair = some m) :
    ∃ d', m = .obj d' ∧ Dict.get? d' "source" = Dict.get? d "source" := by
  obtain ⟨m₂, h₂, h⟩ := Option.bind_eq_some_iff.mp h
  obtain ⟨m₁, h₁, h₂⟩ := Option.bind_eq_some_iff.mp h₂
  have hne : "layer" ≠ "source" := by decide
  obtain ⟨d₁, rfl, hd₁⟩ := Json.setPath_obj_frame hne h₁
  obtain ⟨d₂, rfl, hd₂⟩ := Json.setPath_obj_frame hne h₂
  obtain ⟨d₃, rfl, hd₃⟩ := Json.setPath_obj_frame hne h
  exact ⟨d₃, rfl, hd₃.trans (hd₂.trans hd₁)⟩

/-- A claimed row reads back as before: the link and the layer are no part of an event. -/
theorem ReadsAs.claimed (h : ReadsAs r tx) {newId : UUID} {pair m : Json}
    (hm : claimMetadata r.metadata pair = some m) : ReadsAs (r.claimed newId m) tx := by
  obtain ⟨d, hd, hread⟩ : ∃ d, claimMetadata (some (.obj d)) pair = some m ∧
      (TransactionRow.ofRow r).metadata.getD [] = d := by
    rcases hr : r.metadata with _ | m₀
    · rw [hr] at hm
      exact ⟨[], hm, by simp [TransactionRow.ofRow, hr]⟩
    · obtain ⟨d, rfl⟩ := h.object m₀ hr
      rw [hr] at hm
      exact ⟨d, hm, by simp [TransactionRow.ofRow, hr]⟩
  obtain ⟨d', rfl, hsource⟩ := claimMetadata_source hd
  refine ⟨?_, fun m' h' => ⟨d', (Option.some.inj h').symm⟩⟩
  rw [← h.event]
  simp only [TransactionRow.toNormalized, hread]
  simp only [TransactionRow.ofRow, Transaction.claimed, Option.bind_some, Option.getD_some, hsource]

/-! ## What enrichment keeps

The relation over whole tables and any number of units of work. A unit of work can do two things to
a row that is there: nothing, or claim it. -/

/-- The row of an event that is the user's and reads back as the event. There is one such row at
most, as ids are unique. -/
def StoredAs (db : Database) (tx : NormalizedTransaction) : Prop :=
  ∃ r ∈ db.transactions, r.id = tx.id ∧ r.userId = tx.userId ∧ ReadsAs r tx

/-- A unit of work may claim the row; it does nothing else to one that is stored. -/
theorem StoredAs.consume (h : StoredAs db tx) : StoredAs (consume env db other) tx := by
  obtain ⟨r, hr, hid, hu, hread⟩ := h
  obtain ⟨r', hr', hid'⟩ : (Grosh.consume env db other).Stored r.id :=
    consume_stored_mono (KeyedTable.hasKey_of_mem hr)
  refine ⟨r', hr', hid'.trans hid, ?_⟩
  rcases consume_row_cases hr' with hr' | ⟨_, _, _, _, _, _, he, rfl⟩ |
    ⟨-, r₀, hr₀, -, pair, m, hm, rfl⟩
  · rw [KeyedTable.eq_of_key_eq hr' hr hid']
    exact ⟨hu, hread⟩
  · exact absurd ⟨r, hr, hid'.symm⟩ he.fresh
  · obtain rfl := KeyedTable.eq_of_key_eq hr₀ hr hid'
    exact ⟨hu, hread.claimed hm⟩

/-- Units of work, one after another, each in an environment of its own. -/
def consumeSteps (db : Database) (steps : List (PipelineEnv × NormalizedTransaction)) : Database :=
  steps.foldl (fun db step => consume step.1 db step.2) db

theorem StoredAs.consumeSteps (h : StoredAs db tx)
    (steps : List (PipelineEnv × NormalizedTransaction)) :
    StoredAs (consumeSteps db steps) tx := by
  induction steps generalizing db with
  | nil => exact h
  | cons step steps ih => exact ih h.consume

/-- The insert of enrichment, with any layer, stores the event under its own id. -/
theorem storedAs_insert {accountCurrency : String} {specialCategory : Option SpecialCategory}
    {converted : Currency → Option ℤ} {related : Option UUID}
    {contributions : List (String × Dict)}
    (hm : buildMetadata tx.metadata contributions = .ok metadata) (hfresh : ¬ db.Stored tx.id)
    (h : insertTransaction env db tx accountCurrency specialCategory converted metadata related =
      .ok db') : StoredAs db' tx := by
  obtain ⟨hst, -⟩ | ⟨source, hs, -, -, -, -, rfl⟩ := insertTransaction_cases h
  · exact absurd hst hfresh
  · have hnew : ¬ db.Stored (toRow tx source accountCurrency specialCategory converted metadata
        related).id := hfresh
    exact ⟨_, (KeyedTable.mem_insertIgnore_of_not_hasKey hnew).mpr (Or.inr rfl), rfl, rfl,
      readsAs_toRow hs (buildMetadata_source hm)⟩

/-! ## The round trip

What the queries of the job return is compared with the event as it was consumed, and then once more
with what the replay has inserted. -/

/-- What `select_for_user` and `to_normalized` return for the id: one row, and this event. -/
def ReadsBack (db : Database) (tx : NormalizedTransaction) (event : NormalizedTransaction) :
    Prop :=
  ∃ row ∈ selectForUser db tx.userId, row.id = tx.id ∧ row.toNormalized = event ∧
    ∀ row' ∈ selectForUser db tx.userId, row'.id = tx.id → row' = row

theorem StoredAs.readsBack (h : StoredAs db tx) : ReadsBack db tx tx.replayed := by
  obtain ⟨r, hr, hid, hu, hread⟩ := h
  refine ⟨TransactionRow.ofRow r, mem_selectForUser.mpr ⟨r, hr, hu, rfl⟩, hid, hread.event,
    fun row' hrow' hid' => ?_⟩
  obtain ⟨r', hr', -, rfl⟩ := mem_selectForUser.mp hrow'
  rw [KeyedTable.eq_of_key_eq hr' hr (hid'.trans hid.symm)]

/-- The delete of a replay takes the row, so that its event can be inserted again. -/
theorem StoredAs.not_stored_deleteUser (h : StoredAs db tx) :
    ¬ (db.deleteUser tx.userId).Stored tx.id := by
  obtain ⟨r, hr, hid, hu, -⟩ := h
  rintro ⟨q, hq, hqid⟩
  obtain ⟨q₀, hq₀, hne, rfl⟩ := mem_deleteUser.mp hq
  rw [Transaction.unlinked_id] at hqid
  obtain rfl := KeyedTable.eq_of_key_eq hq₀ hr (hqid.trans hid.symm)
  exact hne hu

/-- Equal to the event on every field but the metadata, with its source block and no layer. -/
structure SamePreserved (tx event : NormalizedTransaction) : Prop where
  fields : ∃ m, event = { tx with metadata := m }
  source : event.sourceBlock = tx.sourceBlock
  noLayer : event.NoLayer

/-- **The replay round trip**: an event that enrichment has inserted, with any metadata layer and
followed by any units of work, reads back as one that is equal on every preserved field, with the
same source block and no layer; and that event, inserted after the delete of a replay, with any
layer and followed by any units of work, reads back as itself. -/
theorem replay_round_trip {accountCurrency : String} {specialCategory : Option SpecialCategory}
    {converted : Currency → Option ℤ} {related : Option UUID}
    {contributions : List (String × Dict)}
    (hm : buildMetadata tx.metadata contributions = .ok metadata) (hfresh : ¬ db.Stored tx.id)
    (hins : insertTransaction env db tx accountCurrency specialCategory converted metadata
      related = .ok db') (later : List (PipelineEnv × NormalizedTransaction)) :
    ∃ event, ReadsBack (consumeSteps db' later) tx event ∧ SamePreserved tx event ∧
      ∀ (env' : PipelineEnv) (accountCurrency' : String)
        (specialCategory' : Option SpecialCategory) (converted' : Currency → Option ℤ)
        (metadata' : Option Dict) (related' : Option UUID)
        (contributions' : List (String × Dict)) (db₂ : Database)
        (later' : List (PipelineEnv × NormalizedTransaction)),
        buildMetadata event.metadata contributions' = .ok metadata' →
        insertTransaction env' ((consumeSteps db' later).deleteUser tx.userId) event
          accountCurrency' specialCategory' converted' metadata' related' = .ok db₂ →
        ReadsBack (consumeSteps db₂ later') tx event := by
  have hstored : StoredAs (consumeSteps db' later) tx :=
    (storedAs_insert hm hfresh hins).consumeSteps later
  refine ⟨tx.replayed, hstored.readsBack, ⟨⟨_, rfl⟩, rfl, replayed_noLayer tx⟩, ?_⟩
  intro env' accountCurrency' specialCategory' converted' metadata' related' contributions' db₂
    later' hm' hins'
  have hstored' : StoredAs db₂ tx.replayed :=
    storedAs_insert hm' hstored.not_stored_deleteUser hins'
  exact (hstored'.consumeSteps later').readsBack

/-- A leg with a comment, which the source block has to keep. -/
def sampleCommented : NormalizedTransaction :=
  { sampleExpense with metadata := some [("source", .obj [("comment", .str "rent")])] }

/-- Its metadata, with the layer of a rate beside the source block. -/
def sampleLayered : Option Dict :=
  some [("source", .obj [("comment", .str "rent")]), ("layer", .obj [("rate", .obj [])])]

/-- The leg is stored with a layer, claimed by its partner and read back. -/
theorem replay_round_trip_sampleCommented :
    ∃ db', insertTransaction sampleEnv .empty sampleCommented "UAH" none (fun _ => none)
        sampleLayered none = .ok db' ∧
      ∃ event, ReadsBack (consumeSteps db' [(sampleEnv, sampleIncome)]) sampleCommented event ∧
        SamePreserved sampleCommented event := by
  have hok : (insertTransaction sampleEnv .empty sampleCommented "UAH" none (fun _ => none)
      sampleLayered none).toOption.isSome = true := by decide
  rcases hins : insertTransaction sampleEnv .empty sampleCommented "UAH" none (fun _ => none)
    sampleLayered none with e | db'
  · rw [hins] at hok
    cases hok
  have hm : buildMetadata sampleCommented.metadata [("rate", [])] = .ok sampleLayered := rfl
  have hfresh : ¬ Database.empty.Stored sampleCommented.id := KeyedTable.not_hasKey_empty
  obtain ⟨event, hreads, hsame, -⟩ := replay_round_trip hm hfresh hins [(sampleEnv, sampleIncome)]
  exact ⟨db', rfl, event, hreads, hsame⟩

end Grosh
