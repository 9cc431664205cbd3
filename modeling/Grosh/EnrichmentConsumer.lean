import Grosh.Lib.AtLeastOnce
import Grosh.Redelivery

/-!
# The enrichment consumer: at-least-once in, exactly once out

`run_enrichment_consumer` commits the unit of work of a message to the database and the offset of
the message to Kafka, one after the other. The two are not one transaction: a process that dies in
between is given the message again, and so is the one that takes over its partition. An offset
commit is sent without waiting for an answer, so it may arrive late or not at all.

* `stored_exactly_once` — whatever dies and whenever, the tables are those of a history in which
  every message is processed once, and no offset is committed past a message that was neither
  stored nor skipped for a reason that concerns it;
* `enriched_in_order` — while the accounts are there, a consumer that has caught up leaves the
  tables the messages of the topic give when each is processed once, in the order of its partition.

The consumers of a group share the tables, and each step is one unit of work. Accounts, rates and
fallbacks may be others at each step; the reprocess job, which deletes rows, is not running.
-/

namespace Grosh

open AtLeastOnce Transition

/-- A message of `normalized_transactions`; `none` does not parse as a `NormalizedTransaction`. -/
abbrev NormalizedMessage : Type := Option NormalizedTransaction

/-- One turn of the loop: a message that does not parse and one whose account does not exist are
logged and skipped, any other exception ends the process. The offset of a message that is skipped is
committed like that of one that is stored. -/
def processMessage (env : PipelineEnv) (db : Database) : NormalizedMessage → Outcome Database
  | none => .skipped
  | some tx =>
    match run env db tx with
    | .ok db' => .done db'
    | .error (.accountNotFound _) => .skipped
    | .error _ => .raised

variable {π : Type} [DecidableEq π] {env : PipelineEnv} {db db' db₀ : Database}
  {msg : NormalizedMessage} {s : State π NormalizedMessage Database}
  {g : History π NormalizedMessage PipelineEnv}
  {labels : List (Label π NormalizedMessage PipelineEnv)}

/-- The row of the message is in `transactions`. -/
def StoredMessage (db : Database) (msg : NormalizedMessage) : Prop :=
  ∀ tx, msg = some tx → db.Stored tx.id

/-- What a message that is stored was: an event whose unit of work committed. -/
theorem processMessage_done (h : processMessage env db msg = .done db') :
    ∃ tx, msg = some tx ∧ run env db tx = .ok db' := by
  cases msg with
  | none => cases h
  | some tx =>
    refine ⟨tx, rfl, ?_⟩
    simp only [processMessage] at h
    split at h
    · next hrun =>
      cases h
      exact hrun
    · cases h
    · cases h

/-- What a message that is skipped was: not an event, or the event of an unknown account. -/
theorem processMessage_skipped (h : processMessage env db msg = .skipped) :
    msg = none ∨ ∃ tx, msg = some tx ∧ Skips (run env db tx) := by
  cases msg with
  | none => exact Or.inl rfl
  | some tx =>
    refine Or.inr ⟨tx, rfl, ?_⟩
    simp only [processMessage] at h
    split at h
    · cases h
    · next accountId hrun => exact ⟨accountId, hrun⟩
    · cases h

/-- **Enrichment is an idempotent handler**: a row stays, and an event whose row is there writes
nothing. This is all that the results on redelivery have to know about enrichment. -/
theorem idempotent_processMessage : Idempotent processMessage StoredMessage where
  absorbs env db msg db' h tx htx := by
    obtain ⟨tx', rfl, hrun⟩ := processMessage_done h
    obtain rfl := Option.some.inj htx
    exact stored_of_run hrun
  keeps env db msg msg' db' hst h tx htx := by
    obtain ⟨tx', rfl, hrun⟩ := processMessage_done h
    rw [← consume_of_run hrun]
    exact consume_stored_mono (hst tx htx)
  unchanged env db msg db' hst h := by
    obtain ⟨tx, rfl, hrun⟩ := processMessage_done h
    rw [← consume_of_run hrun]
    exact consume_of_stored (hst tx rfl)

/-- A message that does not parse. -/
def isJunk (msg : NormalizedMessage) : Bool := msg.isNone

/-- The account of the message being handled, if it is an event, is there. An account is created
before its first transaction is published, so what this excludes is an account that has been deleted
since. -/
def AccountThere (s : State π NormalizedMessage Database) :
    Label π NormalizedMessage PipelineEnv → Prop
  | .handle p env => ∀ tx, (s.log p)[s.position p]? = some (some tx) →
      ∃ account, getById env tx.accountId = .ok account
  | _ => True

omit [DecidableEq π] in
/-- Where the account is there, only junk is skipped: of the exceptions of a unit of work only the
missing account is caught. -/
theorem skipsJunk_of_accountThere {l : Label π NormalizedMessage PipelineEnv}
    (h : AccountThere s l) : SkipsJunk processMessage isJunk (s, g) l := by
  cases l with
  | handle p env =>
    intro msg hm ho
    rcases processMessage_skipped ho with rfl | ⟨tx, rfl, hskips⟩
    · rfl
    · obtain ⟨account, ha⟩ := h tx hm
      exact absurd hskips (not_skips_run ha)
  | _ => trivial

/-- **Each message once, in the order of its partition**: where no account is missing while its
events are consumed, and the consumers have committed every partition to its end, some merge of
the partitions has every event of every partition once and in order, and its units of work, one
after another and each successful, leave the tables the consumers have left. -/
theorem enriched_in_order
    (hC : Along (State.step processMessage) AccountThere (State.start db₀) labels)
    (h : exec (State.step processMessage) (State.start db₀) labels = some s)
    (hall : ∀ p, s.committed p = (s.log p).length) :
    ∃ merged : List (Entry π NormalizedMessage PipelineEnv),
      replay processMessage db₀ merged = some s.store ∧
      ∀ p, (merged.filter fun e => decide (e.partition = p)).map Entry.message =
        (s.log p).filter fun msg => !isJunk msg := by
  obtain ⟨g, hg⟩ : ∃ g, exec (tracedStep processMessage) (State.start db₀, History.empty) labels =
      some (s, g) := exec_traced _ h
  have hsound := sound_of_exec idempotent_processMessage hg
  have htraced : Along (tracedStep processMessage) (SkipsJunk processMessage isJunk)
      (State.start db₀, History.empty) labels :=
    along_of_along (I := fun _ => True) (fun _ _ _ _ _ _ => trivial)
      (fun x l _ hl => skipsJunk_of_accountThere (g := x.2) hl) trivial (along_traced _ hC)
  have horder : InOrder isJunk s g := by
    refine inOrder_of_exec idempotent_processMessage ?_ htraced hg
    intro env db msg hj
    cases msg with
    | none => rfl
    | some tx => cases hj
  refine ⟨g.stored, hsound.replayed, fun p => horder.messages hsound ?_⟩
  obtain ⟨n, hle, hlen, -⟩ := horder p
  exact le_antisymm (le_trans hle hlen) (hall p ▸ hsound.behind p)

/-- The accounts are there if those of all events of a run are in every environment it reads. -/
theorem along_accountThere (envs : List PipelineEnv) (events : List NormalizedTransaction)
    (hacc : ∀ env ∈ envs, ∀ tx ∈ events, ∃ account, getById env tx.accountId = .ok account)
    (henvs : ∀ p env, .handle p env ∈ labels → env ∈ envs)
    (hevents : ∀ p tx, .append p (some tx) ∈ labels → tx ∈ events) :
    Along (State.step processMessage) AccountThere (State.start db₀) labels := by
  refine along_of_along
    (I := fun s : State π NormalizedMessage Database => ∀ p tx, some tx ∈ s.log p → tx ∈ events)
    (C := fun _ l => l ∈ labels) ?_ ?_ ?_ (along_of_labels fun l hl => hl)
  · intro s l s' hI hl hstep p tx htx
    rcases mem_log_of_step hstep htx with htx | rfl
    · exact hI p tx htx
    · exact hevents p tx hl
  · intro s l hI hl
    cases l with
    | handle p env =>
      exact fun tx hm => hacc env (henvs p env hl) tx (hI p tx (List.mem_of_getElem? hm))
    | _ => trivial
  · exact fun p tx h => absurd h List.not_mem_nil

/-- Two partitions read by two consumers, one of which dies between its unit of work and its
offset commit. -/
theorem enriched_in_order_two_partitions :
    let labels : List (Label Bool NormalizedMessage PipelineEnv) :=
      [.append true (some sampleExpense), .append false (some sampleIncome), .append true none,
        .handle true sampleEnv, .rewind true, .handle false sampleEnv, .handle true sampleEnv,
        .commit false 1, .handle true sampleEnv, .commit true 2]
    ∃ s, exec (State.step processMessage) (State.start .empty) labels = some s ∧
      ∃ merged : List (Entry Bool NormalizedMessage PipelineEnv),
        replay processMessage .empty merged = some s.store ∧
        ∀ p, (merged.filter fun e => decide (e.partition = p)).map Entry.message =
          (s.log p).filter fun msg => !isJunk msg := by
  intro labels
  refine ⟨_, rfl, ?_⟩
  refine @enriched_in_order _ _ _ _ labels ?_ rfl ?_
  · apply along_accountThere [sampleEnv] [sampleExpense, sampleIncome]
    · intro env henv tx htx
      rw [List.mem_singleton.mp henv]
      simp only [List.mem_cons, List.not_mem_nil, or_false] at htx
      rcases htx with rfl | rfl <;> exact ⟨_, rfl⟩
    · intro p env h
      simp only [labels, List.mem_cons, reduceCtorEq, Label.handle.injEq, false_or, or_false,
        List.not_mem_nil] at h
      rw [List.mem_singleton]
      tauto
    · intro p tx h
      simp only [labels, List.mem_cons, reduceCtorEq, Label.append.injEq, Option.some.injEq,
        or_false, List.not_mem_nil] at h ⊢
      tauto
  · intro p
    cases p <;> rfl

end Grosh
