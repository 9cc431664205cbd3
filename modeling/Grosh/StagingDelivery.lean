import Grosh.Staging

/-!
# What the staging path may lose

A `produce` only enqueues. The drain deletes a staged row right after enqueuing its event, and
the consumer commits an offset right after routing, whether or not routing raised; neither
waits for the broker.

* `always_kept_iff` — every event ever staged is in the table or acknowledged, in every state
  of a run, exactly if each row is deleted after its event is acknowledged, or while another
  row holds the event;
* `offsetSafe_of_prompt` — as long as an offset is committed only once the event has left the
  producer's queue, neither routing nor a delivery fails for the event in the consumer's
  hands, and no drain deletes it too early, the consumer commits no offset of an event that is
  neither in the staging table nor acknowledged.
-/

namespace Grosh

open Transition

namespace StagingState

variable {env : NormalizerEnv} {s s' : StagingState} {l : StagingLabel}
  {labels : List StagingLabel} {tx : NormalizedTransaction}

/-! ## The drain

A drain publishes a staged row and deletes it, and the deletion does not wait for the broker.
Between the two, and until the broker answers, the event is nowhere but in the local queue of the
producer. -/

/-- The id a step deletes from the staging table. -/
def deletes (s : StagingState) : StagingLabel → Option UUID
  | .drain i =>
    match s.tasks[i]? with
    | some ⟨_, .deleting _ row _, _⟩ => some row.id
    | _ => none
  | _ => none

/-- The event is in the staging table or acknowledged: neither a crash of the service nor a failed
delivery can make it disappear. -/
def Durable (s : StagingState) (tx : NormalizedTransaction) : Prop :=
  (∃ r ∈ s.staging, r.payload = tx) ∨ tx ∈ s.acked

/-- Every event ever committed to the staging table is there or acknowledged. The list of these
events is a record the steps write and never read. -/
def Kept (s : StagingState) : Prop := ∀ tx ∈ s.staged, s.Durable tx

/-- The step deletes a row of the event only when the event is acknowledged, or another row holds
it. An event that arrives twice is staged twice, under two ids. -/
def Spares (s : StagingState) (l : StagingLabel) (tx : NormalizedTransaction) : Prop :=
  ∀ id ∈ s.deletes l, ∀ r ∈ s.staging, r.id = id → r.payload = tx →
    tx ∈ s.acked ∨ ∃ r' ∈ s.staging, r'.id ≠ id ∧ r'.payload = tx

/-- The condition on a step: a row is deleted when its event is acknowledged, or another row holds
the event. Steps that delete nothing meet it. -/
def DeletesAcked (s : StagingState) (l : StagingLabel) : Prop := ∀ tx, s.Spares l tx

/-- The staged rows are among the events ever staged. -/
def Logged (s : StagingState) : Prop := ∀ r ∈ s.staging, r.payload ∈ s.staged

/-- The three ways a step treats the staging table: it leaves the table alone, it commits one new
row and records its event, or it deletes the row a drain has published. -/
theorem staging_step (hs : step env s l = some s') :
    (s.deletes l = none ∧ s'.staging = s.staging ∧ s'.staged = s.staged) ∨
    (∃ row, s.deletes l = none ∧ ¬ s.staging.HasKey row.id ∧
      s'.staging = s.staging.insertIgnore row ∧ s'.staged = row.payload :: s.staged) ∨
    ∃ id, s.deletes l = some id ∧
      s'.staging = s.staging.deleteWhere (fun r => decide (r.id = id)) ∧ s'.staged = s.staged ∧
      s'.acked = s.acked := by
  cases step_cases hs with
  | commitStaged rowId tx hc hk => exact Or.inr (Or.inl ⟨_, rfl, hk, rfl, rfl⟩)
  | delete i t u row rest ht hp =>
    obtain ⟨b, phase, us⟩ := t
    obtain rfl : phase = .deleting u row rest := hp
    exact Or.inr (Or.inr ⟨row.id, by simp only [deletes, ht], rfl, rfl, rfl⟩)
  | select i t u ht hp =>
    obtain ⟨b, phase, us⟩ := t
    obtain rfl : phase = .selecting u := hp
    exact Or.inl ⟨by simp only [deletes, ht], rfl, rfl⟩
  | drained i t u ht hp =>
    obtain ⟨b, phase, us⟩ := t
    obtain rfl : phase = .draining u [] := hp
    exact Or.inl ⟨by simp only [deletes, ht], rfl, rfl⟩
  | publish i t u row rest ht hp =>
    obtain ⟨b, phase, us⟩ := t
    obtain rfl : phase = .draining u (row :: rest) := hp
    exact Or.inl ⟨by simp only [deletes, ht], rfl, rfl⟩
  | _ => exact Or.inl ⟨rfl, rfl, rfl⟩

/-- The broker takes no acknowledgement back: what it has acknowledged stays so in every later
state. -/
theorem acked_step (hs : step env s l = some s') (h : tx ∈ s.acked) : tx ∈ s'.acked := by
  cases step_cases hs with
  | acknowledge => exact List.mem_cons_of_mem _ h
  | _ => exact h

theorem Logged.step (h : s.Logged) (hs : step env s l = some s') : s'.Logged := by
  intro r hr
  rcases staging_step hs with ⟨-, hstg, hst⟩ | ⟨row, -, hk, hstg, hst⟩ | ⟨id, -, hstg, hst, -⟩
  · rw [hstg] at hr
    exact hst ▸ h r hr
  · rw [hstg] at hr
    rw [hst]
    rcases (KeyedTable.mem_insertIgnore_of_not_hasKey hk).mp hr with hr | rfl
    · exact List.mem_cons_of_mem _ (h r hr)
    · exact List.mem_cons_self ..
  · rw [hstg] at hr
    exact hst ▸ h r (KeyedTable.mem_deleteWhere.mp hr).1

/-- An event that is spared stays durable, whatever else the step does. -/
theorem Durable.step (h : s.Durable tx) (hC : s.Spares l tx) (hs : step env s l = some s') :
    s'.Durable tx := by
  rcases h with ⟨r, hr, rfl⟩ | hacked
  swap
  · exact Or.inr (acked_step hs hacked)
  rcases staging_step hs with ⟨-, hstg, -⟩ | ⟨row, -, -, hstg, -⟩ | ⟨id, hdel, hstg, -, hack⟩
  · exact Or.inl ⟨r, hstg ▸ hr, rfl⟩
  · exact Or.inl ⟨r, hstg ▸ KeyedTable.mem_insertIgnore_of_mem hr, rfl⟩
  · by_cases hid : r.id = id
    · rcases hC id hdel r hr hid rfl with hacked | ⟨r', hr', hne, hp⟩
      · exact Or.inr (hack ▸ hacked)
      · exact Or.inl
          ⟨r', hstg ▸ KeyedTable.mem_deleteWhere.mpr ⟨hr', by simpa using hne⟩, hp⟩
    · exact Or.inl ⟨r, hstg ▸ KeyedTable.mem_deleteWhere.mpr ⟨hr, by simpa using hid⟩, rfl⟩

theorem Kept.step (h : s.Kept) (hC : s.DeletesAcked l) (hs : step env s l = some s') :
    s'.Kept := by
  intro tx htx
  rcases staging_step hs with ⟨-, -, hst⟩ | ⟨row, -, hk, hstg, hst⟩ | ⟨id, -, -, hst, -⟩
  · exact (h tx (hst ▸ htx)).step (hC tx) hs
  · rw [hst] at htx
    rcases List.mem_cons.mp htx with rfl | htx
    · exact Or.inl
        ⟨row, hstg ▸ (KeyedTable.mem_insertIgnore_of_not_hasKey hk).mpr (Or.inr rfl), rfl⟩
    · exact (h tx htx).step (hC tx) hs
  · exact (h tx (hst ▸ htx)).step (hC tx) hs

/-- A deletion that comes too early loses its event at once: nothing else holds it, so the invariant
is broken in the very next state. This is why the condition is also necessary. -/
theorem deletesAcked_of_kept (h : s.Logged) (hs : step env s l = some s') (hk : s'.Kept) :
    s.DeletesAcked l := by
  rintro tx id hid r hr hrid rfl
  rcases staging_step hs with ⟨hdel, -, -⟩ | ⟨row, hdel, -, -, -⟩ | ⟨id', hdel, hstg, hst, hack⟩
  · rw [hdel] at hid
    cases hid
  · rw [hdel] at hid
    cases hid
  · obtain rfl : id' = id := Option.some.inj (hdel.symm.trans hid)
    have hkept := hk r.payload (hst ▸ h r hr)
    rw [Durable, hstg, hack] at hkept
    rcases hkept with ⟨r', hr', hp⟩ | hacked
    · obtain ⟨hr', hne⟩ := KeyedTable.mem_deleteWhere.mp hr'
      exact Or.inr ⟨r', hr', by simpa using hne, hp⟩
    · exact Or.inl hacked

theorem deletesAcked_of_disabled (hs : step env s l = none) : s.DeletesAcked l := by
  intro tx id hid
  simp only [deletes] at hid
  split at hid
  · split at hid
    · next ht =>
      simp only [step, drainStep, ht] at hs
      cases hs
    · cases hid
  · cases hid

/-- **Staged events are never lost, exactly when** every deletion of a staged row comes after the
acknowledgement of its event, or leaves another row that holds it. Both directions are about whole
runs, with crashes, failed deliveries and any number of drains of a user. -/
theorem always_kept_iff (hlog : s.Logged) (hkept : s.Kept) :
    Always (step env) Kept s labels ↔ Along (step env) DeletesAcked s labels := by
  refine ⟨?_, ?_⟩
  · exact along_of_always (I := Logged) (fun _ _ _ h hs => h.step hs)
      (fun _ _ _ h hs hk => deletesAcked_of_kept h hs hk)
      (fun _ _ hs => deletesAcked_of_disabled hs) hlog
  · exact always_of_along (fun _ _ _ h hC hs => Kept.step h hC hs) (fun _ h => h) hkept

/-- The service with the sample event staged. -/
def sampleStaged : StagingState :=
  { start [] with
    staging := .insertIgnore .empty ⟨1, 1, sampleEvent⟩
    staged := [sampleEvent] }

/-- A drain that ends before it deletes, and a crash: the row stays, and the next drain publishes
the event again. -/
theorem always_kept_iff_crash :
    (exec (step sampleNormalizer) sampleStaged
        [.sweep [1], .drain 0, .drain 0, .crash]).isSome ∧
      (Always (step sampleNormalizer) Kept sampleStaged
          [.sweep [1], .drain 0, .drain 0, .crash] ↔
        Along (step sampleNormalizer) DeletesAcked sampleStaged
          [.sweep [1], .drain 0, .drain 0, .crash]) := by
  refine ⟨rfl, always_kept_iff (fun r hr => ?_) fun tx htx => ?_⟩
  · rcases KeyedTable.mem_of_mem_insertIgnore hr with hr | rfl
    · exact absurd hr KeyedTable.not_mem_empty
    · exact List.mem_cons_self ..
  · obtain rfl := List.mem_singleton.mp htx
    exact Or.inl ⟨⟨1, 1, sampleEvent⟩, List.mem_cons_self .., rfl⟩

/-- A drain that deletes the row before the broker has answered, and a crash: the event is in no
table and no queue, and nobody will publish it. -/
theorem staged_event_lost :
    ∃ s, exec (step sampleNormalizer) sampleStaged
        [.sweep [1], .drain 0, .drain 0, .drain 0, .crash] = some s ∧
      (s.queue .drain).isEmpty ∧ ¬ s.Kept := by
  have hrun : (exec (step sampleNormalizer) sampleStaged
      [.sweep [1], .drain 0, .drain 0, .drain 0, .crash]).map (fun s =>
        decide ((s.queue .drain).isEmpty ∧ s.staging.rows.isEmpty ∧ s.acked.isEmpty ∧
          ¬ s.staged.isEmpty)) = some true := by decide
  obtain ⟨s, hs, h⟩ := Option.map_eq_some_iff.mp hrun
  obtain ⟨hqueue, hstaging, hacked, hstaged⟩ := of_decide_eq_true h
  refine ⟨s, hs, hqueue, fun hkept => hstaged ?_⟩
  rw [List.isEmpty_iff, List.eq_nil_iff_forall_not_mem]
  intro tx htx
  rcases hkept tx htx with ⟨r, hr, -⟩ | htx
  · rw [KeyedTable.mem_def, List.isEmpty_iff.mp hstaging] at hr
    cases hr
  · rw [List.isEmpty_iff.mp hacked] at htx
    cases htx

/-! ## The consumer

The consumer commits the offset of a message after `_route`, whether or not it has raised, and
without waiting for the broker. The comment in the source promises that a message that is not
acknowledged may be redelivered; after the commit nobody redelivers it. -/

/-- The event of the message the consumer is working on. -/
def InHand (env : NormalizerEnv) (s : StagingState) (tx : NormalizedTransaction) : Prop :=
  s.consumer ≠ .polling ∧ s.raw.head?.bind (normalizeMessage env) = some tx

/-- The step commits no offset of an event that could be lost: an offset commit finds the event of
its message staged or acknowledged. -/
def OffsetSafe (env : NormalizerEnv) (s : StagingState) (l : StagingLabel) : Prop :=
  ∀ rowId, l = .consume rowId → s.consumer = .handled → ∀ tx, InHand env s tx → s.Durable tx

/-- The condition on a step, about what fails and how fast the broker is, for the event of the
message in hand: it is durable or enqueued where routing raises, durable or enqueued once more where
a delivery fails, durable where it is still enqueued when the offset is committed, and no drain
deletes its row too early. -/
structure Prompt (env : NormalizerEnv) (s : StagingState) (l : StagingLabel) : Prop where
  /-- routing fails only for an event that is durable or enqueued -/
  routed : l = .routeFails → ∀ tx, InHand env s tx → s.Durable tx ∨ tx ∈ s.queue .consumer
  /-- a delivery fails only for an event that is durable, or enqueued once more -/
  delivered : ∀ i tx, l = .deliveryFails .consumer i → (s.queue .consumer)[i]? = some tx →
    InHand env s tx → s.Durable tx ∨ tx ∈ (s.queue .consumer).eraseIdx i
  /-- an offset is committed once the event has left the queue -/
  awaited : ∀ rowId, l = .consume rowId → s.consumer = .handled →
    ∀ tx, InHand env s tx → tx ∈ s.queue .consumer → s.Durable tx
  /-- no drain deletes the event too early -/
  spared : ∀ tx, InHand env s tx → s.Spares l tx

/-- What a run keeps: the consumer works on the first uncommitted message, and once it is routed its
event is durable or enqueued. With an empty queue that leaves only durable. -/
structure HandSound (env : NormalizerEnv) (s : StagingState) : Prop where
  raw : s.consumer ≠ .polling → s.raw ≠ []
  routing : ∀ tx, s.consumer = .routing tx ∨
    (∃ b, s.consumer = .checked tx b ∨ s.consumer = .written tx b) → InHand env s tx
  produced : ∀ tx, s.consumer = .written tx false → s.Durable tx ∨ tx ∈ s.queue .consumer
  handled : s.consumer = .handled → ∀ tx, InHand env s tx →
    s.Durable tx ∨ tx ∈ s.queue .consumer

/-- A message leaves its queue at the end of its delivery, the others stay. -/
theorem eq_or_mem_queue {p : ServiceProducer} {i : ℕ} {tx' : NormalizedTransaction}
    (hq : (s.queue p)[i]? = some tx) (h : tx' ∈ s.queue .consumer) :
    (p = .consumer ∧ tx' = tx) ∨
      tx' ∈ Function.update s.queue p ((s.queue p).eraseIdx i) .consumer := by
  cases p with
  | drain => exact Or.inr (by simpa using h)
  | consumer =>
    obtain ⟨hlt, rfl⟩ := List.getElem?_eq_some_iff.mp hq
    have hperm := List.getElem_cons_eraseIdx_perm hlt
    rcases List.mem_cons.mp (hperm.mem_iff.mpr h) with heq | hmem
    · exact Or.inl ⟨rfl, heq⟩
    · exact Or.inr (by simpa using hmem)

/-- A step of the others: the message in hand stays, and so does what became of its event. It is
used for the steps of the broker, the lock rows and the drains alike. -/
theorem HandSound.of_frame (h : HandSound env s) (hc : s'.consumer = s.consumer)
    (hraw : s.raw ≠ [] → s'.raw ≠ [] ∧ s'.raw.head? = s.raw.head?)
    (hd : ∀ tx, InHand env s tx → s.Durable tx ∨ tx ∈ s.queue .consumer →
      s'.Durable tx ∨ tx ∈ s'.queue .consumer) : HandSound env s' := by
  have hhand : ∀ tx, InHand env s' tx ↔ InHand env s tx := by
    intro tx
    simp only [InHand]
    rw [hc]
    apply and_congr_right
    intro hne
    rw [(hraw (h.raw hne)).2]
  refine ⟨fun hne => ?_, fun tx htx => ?_, fun tx htx => ?_, fun hh tx htx => ?_⟩
  · rw [hc] at hne
    exact (hraw (h.raw hne)).1
  · rw [hc] at htx
    exact (hhand tx).mpr (h.routing tx htx)
  · rw [hc] at htx
    exact hd tx (h.routing tx (Or.inr ⟨false, Or.inr htx⟩)) (h.produced tx htx)
  · rw [hc] at hh
    exact hd tx ((hhand tx).mp htx) (h.handled hh tx ((hhand tx).mp htx))

/-- Between two messages the consumer holds nothing. -/
theorem handSound_of_polling (h : s.consumer = .polling) : HandSound env s := by
  refine ⟨fun hne => absurd h hne, fun tx htx => ?_, fun tx htx => ?_, fun hh => ?_⟩
  · rcases htx with htx | ⟨b, htx | htx⟩ <;> rw [h] at htx <;> cases htx
  · rw [h] at htx
    cases htx
  · rw [h] at hh
    cases hh

/-- The consumer is routing the event of the message in hand. -/
theorem HandSound.of_routing (hraw : s.raw ≠ []) (hin : InHand env s tx)
    (hc : s.consumer = .routing tx ∨
      ∃ b, s.consumer = .checked tx b ∨ s.consumer = .written tx b)
    (hp : s.consumer = .written tx false → s.Durable tx ∨ tx ∈ s.queue .consumer) :
    HandSound env s := by
  have hone : ∀ tx', s.consumer = .routing tx' ∨
      (∃ b, s.consumer = .checked tx' b ∨ s.consumer = .written tx' b) → tx' = tx := by
    intro tx' h
    rcases hc with hc | ⟨b, hc | hc⟩ <;> rcases h with h | ⟨b', h | h⟩ <;> rw [hc] at h <;>
      first
        | cases h; done
        | injection h with h
          exact h.symm
  refine ⟨fun _ => hraw, fun tx' h => hone tx' h ▸ hin, fun tx' h => ?_, fun hh => ?_⟩
  · obtain rfl := hone tx' (Or.inr ⟨false, Or.inr h⟩)
    exact hp h
  · rcases hc with hc | ⟨b, hc | hc⟩ <;> rw [hc] at hh <;> cases hh

/-- The consumer is about to commit the offset of the message in hand. -/
theorem HandSound.of_handled (hraw : s.raw ≠ []) (hc : s.consumer = .handled)
    (hd : ∀ tx, InHand env s tx → s.Durable tx ∨ tx ∈ s.queue .consumer) : HandSound env s := by
  refine ⟨fun _ => hraw, fun tx h => ?_, fun tx h => ?_, fun _ => hd⟩
  · rcases h with h | ⟨b, h | h⟩ <;> rw [hc] at h <;> cases h
  · rw [hc] at h
    cases h

/-- Routing is over, and its event, the one in hand, is durable or enqueued. -/
theorem HandSound.of_routed (h : HandSound env s)
    (hr : s.consumer = .routing tx ∨ ∃ b, s.consumer = .checked tx b ∨ s.consumer = .written tx b)
    (hc : s'.consumer = .handled) (hraw : s'.raw = s.raw)
    (hd : s'.Durable tx ∨ tx ∈ s'.queue .consumer) : HandSound env s' := by
  have hrouting := h.routing tx hr
  apply HandSound.of_handled (hraw ▸ h.raw hrouting.1) hc
  intro tx' htx'
  have hhand : s.raw.head?.bind (normalizeMessage env) = some tx' := hraw ▸ htx'.2
  obtain rfl : tx = tx' := Option.some.inj (hrouting.2.symm.trans hhand)
  exact hd

theorem HandSound.step (h : HandSound env s) (hC : Prompt env s l)
    (hs : step env s l = some s') : HandSound env s' := by
  -- what became of the event in hand survives a step that takes nothing out of the queue
  have hkeep : ∀ tx, InHand env s tx → (tx ∈ s.queue .consumer → tx ∈ s'.queue .consumer) →
      s.Durable tx ∨ tx ∈ s.queue .consumer → s'.Durable tx ∨ tx ∈ s'.queue .consumer :=
    fun tx hh hq hd => hd.imp (fun hd => hd.step (hC.spared tx hh) hs) hq
  cases step_cases hs with
  | arrive msg =>
    refine h.of_frame rfl (fun hne => ⟨List.append_ne_nil_of_left_ne_nil hne _, ?_⟩)
      fun tx hh => hkeep tx hh id
    exact List.head?_append_of_ne_nil _ hne
  | poll i msg hc hm =>
    refine ⟨fun _ => List.cons_ne_nil _ _, fun tx htx => ?_, fun tx htx => ?_, fun hh => ?_⟩
    · rcases htx with htx | ⟨b, htx | htx⟩ <;> cases htx
    · cases htx
    · cases hh
  | normalize rowId msg raw tx hc hr hn =>
    have hraw : s.raw ≠ [] := hr ▸ List.cons_ne_nil _ _
    refine HandSound.of_routing hraw ⟨fun hx => (by cases hx), ?_⟩ (Or.inl rfl)
      fun hw => by cases hw
    rw [hr]
    exact hn
  | skip rowId msg raw hc hr hn =>
    apply HandSound.of_handled (hr ▸ List.cons_ne_nil _ _) rfl
    intro tx htx
    have hhead : s.raw.head?.bind (normalizeMessage env) = some tx := htx.2
    rw [hr] at hhead
    exact absurd (hn.symm.trans hhead) (by simp)
  | checkLock rowId tx hc =>
    have hrouting := h.routing tx (Or.inl hc)
    exact HandSound.of_routing (h.raw hrouting.1) ⟨fun hx => (by cases hx), hrouting.2⟩
      (Or.inr ⟨_, Or.inl rfl⟩) fun hw => by cases hw
  | insert rowId tx hc =>
    have hrouting := h.routing tx (Or.inr ⟨_, Or.inl hc⟩)
    exact HandSound.of_routing (h.raw hrouting.1) ⟨fun hx => (by cases hx), hrouting.2⟩
      (Or.inr ⟨_, Or.inr rfl⟩) fun hw => by cases hw
  | produce rowId tx hc =>
    have hrouting := h.routing tx (Or.inr ⟨_, Or.inl hc⟩)
    refine HandSound.of_routing (h.raw hrouting.1) ⟨fun hx => (by cases hx), hrouting.2⟩
      (Or.inr ⟨_, Or.inr rfl⟩) fun _ => Or.inr ?_
    simp [StagingState.produce]
  | commitStaged rowId tx hc hk =>
    have hrow : (⟨rowId, tx.userId, tx⟩ : StagedRow) ∈
        s.staging.insertIgnore ⟨rowId, tx.userId, tx⟩ :=
      (KeyedTable.mem_insertIgnore_of_not_hasKey hk).mpr (Or.inr rfl)
    exact h.of_routed (Or.inr ⟨_, Or.inr hc⟩) rfl rfl (Or.inl (Or.inl ⟨_, hrow, rfl⟩))
  | commitProduced rowId tx hc =>
    exact h.of_routed (Or.inr ⟨_, Or.inr hc⟩) rfl rfl (h.produced tx hc)
  | commitOffset => exact handSound_of_polling rfl
  | routeFails tx hc => exact h.of_routed hc rfl rfl (hC.routed rfl tx (h.routing tx hc))
  | crash => exact handSound_of_polling rfl
  | acknowledge p i tx hq =>
    refine h.of_frame rfl (fun hne => ⟨hne, rfl⟩) fun tx' hh hd => ?_
    rcases hd with hd | hd
    · exact Or.inl (hd.step (hC.spared tx' hh) hs)
    · rcases eq_or_mem_queue hq hd with ⟨-, rfl⟩ | hd
      · exact Or.inl (Or.inr (List.mem_cons_self ..))
      · exact Or.inr hd
  | deliveryFails p i tx hq =>
    refine h.of_frame rfl (fun hne => ⟨hne, rfl⟩) fun tx' hh hd => ?_
    rcases hd with hd | hd
    · exact Or.inl (hd.step (hC.spared tx' hh) hs)
    · rcases eq_or_mem_queue hq hd with ⟨rfl, rfl⟩ | hd
      · refine (hC.delivered i _ rfl hq hh).imp (fun hd => ?_) fun hd => by simpa using hd
        exact hd.step (hC.spared _ hh) hs
      · exact Or.inr hd
  | publish i t u row rest ht hp =>
    refine h.of_frame rfl (fun hne => ⟨hne, rfl⟩) fun tx' hh => hkeep tx' hh fun hx => ?_
    simpa [StagingState.produce] using hx
  | _ => exact h.of_frame rfl (fun hne => ⟨hne, rfl⟩) fun tx' hh => hkeep tx' hh id

/-- **The consumer is at-least-once, when the broker is prompt**: no step of the run commits the
offset of an event that is neither staged nor acknowledged. Without the condition either of two
things goes wrong, a routing that raises or a crash before the broker has answered. -/
theorem offsetSafe_of_prompt (hconsumer : s.consumer = .polling)
    (hC : Along (step env) (Prompt env) s labels) :
    Along (step env) (OffsetSafe env) s labels := by
  have hsafe : ∀ (s : StagingState) (l : StagingLabel), HandSound env s → Prompt env s l →
      OffsetSafe env s l := by
    intro s l h hC rowId hl hh tx htx
    rcases h.handled hh tx htx with hd | hq
    · exact hd
    · exact hC.awaited rowId hl hh tx htx hq
  exact along_of_along (fun _ _ _ h hC hs => HandSound.step h hC hs) hsafe
    (handSound_of_polling hconsumer) hC

instance (c : ConsumerState) : Decidable (c = .handled) :=
  match c with
  | .handled => .isTrue rfl
  | .polling | .fetched | .routing _ | .checked _ _ | .written _ _ => .isFalse fun h => by cases h

/-- Nothing fails or is drained, and an offset is committed with the queue empty. It can be decided,
and on the sample run it is enough for the condition. -/
def Quiet (s : StagingState) : StagingLabel → Prop
  | .routeFails => False
  | .deliveryFails _ _ => False
  | .drain _ => False
  | .consume _ => s.consumer = .handled → (s.queue .consumer).isEmpty
  | _ => True

instance : DecidablePred s.Quiet
  | .routeFails => .isFalse id
  | .deliveryFails _ _ => .isFalse id
  | .drain _ => .isFalse id
  | .consume _ =>
    inferInstanceAs (Decidable (s.consumer = .handled → (s.queue .consumer).isEmpty))
  | .arrive _ | .poll _ | .crash | .acknowledge _ _ | .commitLock _ | .releaseLock _ | .notify
  | .missNotify | .sweep _ | .drainFails _ => .isTrue trivial

theorem prompt_of_quiet (h : s.Quiet l) : Prompt env s l := by
  refine ⟨fun hl => ?_, fun i tx hl => ?_, fun rowId hl hh tx _ htx => ?_, fun tx _ id hid => ?_⟩
  · subst hl
    exact h.elim
  · subst hl
    exact h.elim
  · subst hl
    rw [List.isEmpty_iff.mp (h hh)] at htx
    cases htx
  · cases l with
    | drain => exact h.elim
    | _ => cases hid

/-- The broker acknowledges the event before the consumer commits its offset. -/
theorem offsetSafe_of_prompt_acknowledged :
    (exec (step sampleNormalizer) (start [sampleMessage])
        [.poll 0, .consume 1, .consume 1, .consume 1, .acknowledge .consumer 0, .consume 1,
          .consume 1]).isSome ∧
      Along (step sampleNormalizer) (OffsetSafe sampleNormalizer) (start [sampleMessage])
        [.poll 0, .consume 1, .consume 1, .consume 1, .acknowledge .consumer 0, .consume 1,
          .consume 1] := by
  have hquiet : Along (step sampleNormalizer) Quiet (start [sampleMessage])
      [.poll 0, .consume 1, .consume 1, .consume 1, .acknowledge .consumer 0, .consume 1,
        .consume 1] := by decide
  refine ⟨by decide, offsetSafe_of_prompt rfl ?_⟩
  exact along_of_along (I := fun _ => True) (fun _ _ _ _ _ _ => trivial)
    (fun _ _ _ h => prompt_of_quiet h) trivial hquiet

theorem not_offsetSafe {rowId : UUID} (hc : s.consumer = .handled)
    (hhand : (s.raw.head?.bind (normalizeMessage env)).isSome) (hstaged : s.staging.rows.isEmpty)
    (hacked : s.acked.isEmpty) : ¬ OffsetSafe env s (.consume rowId) := by
  obtain ⟨tx, htx⟩ := Option.isSome_iff_exists.mp hhand
  intro hsafe
  rcases hsafe rowId rfl hc tx ⟨by rw [hc]; exact fun h => (by cases h), htx⟩ with
    ⟨r, hr, -⟩ | h
  · rw [KeyedTable.mem_def, List.isEmpty_iff.mp hstaged] at hr
    cases hr
  · rw [List.isEmpty_iff.mp hacked] at h
    cases h

/-- Of a run of the sample it is enough to compute that it ends before an offset commit with
an event in hand and nothing staged or acknowledged. -/
theorem exists_not_offsetSafe {labels : List StagingLabel}
    (hrun : (exec (step sampleNormalizer) (start [sampleMessage]) labels).map (fun s =>
      decide ((step sampleNormalizer s (.consume 1)).isSome ∧ s.consumer = .handled ∧
        (s.raw.head?.bind (normalizeMessage sampleNormalizer)).isSome ∧
        s.staging.rows.isEmpty ∧ s.acked.isEmpty)) = some true) :
    ∃ s, exec (step sampleNormalizer) (start [sampleMessage]) labels = some s ∧
      (step sampleNormalizer s (.consume 1)).isSome ∧
      ¬ OffsetSafe sampleNormalizer s (.consume 1) := by
  obtain ⟨s, hs, h⟩ := Option.map_eq_some_iff.mp hrun
  obtain ⟨hstep, hc, hhand, hstaged, hacked⟩ := of_decide_eq_true h
  exact ⟨s, hs, hstep, not_offsetSafe hc hhand hstaged hacked⟩

/-- Routing raises, or the broker has not answered: the offset is committed all the same, with the
event neither staged nor acknowledged. -/
theorem offset_committed_undelivered :
    (∃ s, exec (step sampleNormalizer) (start [sampleMessage])
        [.poll 0, .consume 1, .routeFails] = some s ∧
      (step sampleNormalizer s (.consume 1)).isSome ∧
      ¬ OffsetSafe sampleNormalizer s (.consume 1)) ∧
    (∃ s, exec (step sampleNormalizer) (start [sampleMessage])
        [.poll 0, .consume 1, .consume 1, .consume 1, .consume 1] = some s ∧
      (step sampleNormalizer s (.consume 1)).isSome ∧
      ¬ OffsetSafe sampleNormalizer s (.consume 1)) := by
  refine ⟨exists_not_offsetSafe ?_, exists_not_offsetSafe ?_⟩
  · decide
  · decide

end StagingState

end Grosh
