import Grosh.Lib.Transition
import Mathlib.Data.List.Nodup
import Mathlib.Data.List.Range
import Mathlib.Logic.Function.Basic

/-!
# At-least-once consumers with an idempotent handler

A consumer group reads a partitioned log. A message is handled, which may change the store, and
its offset is committed some time later or not at all; a partition whose consumer dies, or that is
given to another one, is read again from its committed offset. So a message may be handled any
number of times.

Where the handler is idempotent (`Idempotent`: what it has stored once it does not store again),
the store does not show it. A run has a `History`, which lists a message the first time it is
stored:

* `Sound` — the store is the history replayed, no message is in the history twice, and every
  message below a committed offset is in it or was skipped;
* `InOrder` — where only junk is skipped, the history has the messages of each partition in the
  order of the partition.
-/

universe u v w x

namespace AtLeastOnce

/-! ## The system

A consumer keeps its position in memory and commits it now and then. Whoever takes over starts from
what was committed, and so handles some messages again. -/

/-- How the handling of a message ends. An exception leaves the position where it was, so that the
message comes again. -/
inductive Outcome (δ : Type u) : Type u where
  /-- the store is written, the offset may be committed -/
  | done (store : δ)
  /-- nothing is written, the offset may be committed -/
  | skipped
  /-- nothing is written, the consumer dies -/
  | raised

/-- The store a message leaves when it is written, and none otherwise. -/
def Outcome.store? {δ : Type u} : Outcome δ → Option δ
  | .done store => some store
  | .skipped => none
  | .raised => none

/-- The log, where each partition stands and the store. -/
structure State (π : Type u) (μ : Type v) (δ : Type w) : Type (max u v w) where
  /-- the messages of each partition -/
  log : π → List μ
  /-- the offset of the next message a consumer is given -/
  position : π → ℕ
  /-- the offset a consumer starts from -/
  committed : π → ℕ
  store : δ

/-- What can happen: to the log, to the consumer of a partition, or to the offset it has
committed. -/
inductive Label (π : Type u) (μ : Type v) (ε : Type w) : Type (max u v w) where
  /-- a message reaches a partition -/
  | append (p : π) (m : μ)
  /-- the next message of a partition is handled, the handler reading this environment -/
  | handle (p : π) (env : ε)
  /-- an offset commit reaches the broker -/
  | commit (p : π) (offset : ℕ)
  /-- the partition is taken over from its committed offset: its consumer died, or lost it -/
  | rewind (p : π)

variable {π : Type u} {μ : Type v} {δ : Type w} {ε : Type x} [DecidableEq π]

namespace State

/-- An empty log over a store, with every partition at its beginning. -/
def start (store : δ) : State π μ δ := ⟨fun _ => [], fun _ => 0, fun _ => 0, store⟩

/-- The partition is read from its committed offset, as after a crash or a takeover. -/
def rewind (s : State π μ δ) (p : π) : State π μ δ :=
  { s with position := Function.update s.position p (s.committed p) }

/-- The state after the next message of a partition, by how its handling has ended. -/
def settle (s : State π μ δ) (p : π) : Outcome δ → State π μ δ
  | .done store =>
    { s with store := store, position := Function.update s.position p (s.position p + 1) }
  | .skipped => { s with position := Function.update s.position p (s.position p + 1) }
  | .raised => s.rewind p

/-- **One step.** A message can be handled where there is one, in any environment, and an offset be
committed that the consumer has passed. -/
def step (handler : ε → δ → μ → Outcome δ) (s : State π μ δ) :
    Label π μ ε → Option (State π μ δ)
  | .append p m => some { s with log := Function.update s.log p (s.log p ++ [m]) }
  | .handle p env => (s.log p)[s.position p]?.map fun m => s.settle p (handler env s.store m)
  | .commit p offset =>
    if s.committed p ≤ offset ∧ offset ≤ s.position p then
      some { s with committed := Function.update s.committed p offset }
    else none
  | .rewind p => some (s.rewind p)

end State

/-! ## The history

A history variable says which messages have been stored, in the order of the first time. It is
written beside the system and never read by it. -/

/-- A message as it was stored the first time: where it lies, and what its handler read beside
it. -/
structure Entry (π : Type u) (μ : Type v) (ε : Type x) : Type (max u v x) where
  partition : π
  offset : ℕ
  message : μ
  env : ε

/-- Where a message is: its partition and its offset. No two messages share a place. -/
def Entry.place (e : Entry π μ ε) : π × ℕ := (e.partition, e.offset)

/-- What has come of the messages: those stored, and those skipped. -/
structure History (π : Type u) (μ : Type v) (ε : Type x) : Type (max u v x) where
  /-- the messages stored, in the order in which each was stored the first time -/
  stored : List (Entry π μ ε)
  /-- the places of the messages skipped -/
  skipped : List (π × ℕ)

namespace History

/-- Nothing has been handled, and so nothing has been stored or skipped. -/
def empty : History π μ ε := ⟨[], []⟩

/-- An entry, unless its message is listed: a message that is stored again is no second entry. -/
def add (g : History π μ ε) (e : Entry π μ ε) : History π μ ε :=
  if e.place ∈ g.stored.map Entry.place then g else { g with stored := g.stored ++ [e] }

/-- What a step adds to the history: a message at most, and only by handling it. -/
def record (handler : ε → δ → μ → Outcome δ) (s : State π μ δ) (g : History π μ ε) :
    Label π μ ε → History π μ ε
  | .handle p env =>
    match (s.log p)[s.position p]? with
    | none => g
    | some m =>
      match handler env s.store m with
      | .done _ => g.add ⟨p, s.position p, m, env⟩
      | .skipped => { g with skipped := (p, s.position p) :: g.skipped }
      | .raised => g
  | _ => g

end History

/-- The messages of a history handled one after another, each stored. It is what a system would do
that never handles a message twice. -/
def replay (handler : ε → δ → μ → Outcome δ) (store : δ) (entries : List (Entry π μ ε)) :
    Option δ :=
  entries.foldlM (fun store e => (handler e.env store e.message).store?) store

/-- The system beside its history, which follows the state and never holds it back. -/
abbrev tracedStep (handler : ε → δ → μ → Outcome δ) :
    State π μ δ × History π μ ε → Label π μ ε → Option (State π μ δ × History π μ ε) :=
  Transition.traced (State.step handler) (History.record handler)

omit [DecidableEq π] in
theorem replay_concat {handler : ε → δ → μ → Outcome δ} {store store' store'' : δ}
    {entries : List (Entry π μ ε)} {e : Entry π μ ε}
    (h : replay handler store entries = some store')
    (he : handler e.env store' e.message = .done store'') :
    replay handler store (entries ++ [e]) = some store'' := by
  rw [replay, List.foldlM_append]
  change (replay handler store entries).bind _ = some store''
  rw [h, Option.bind_some, List.foldlM_cons, he]
  rfl

/-! ## What one step does

The inversion of a step, with what it adds to the history. The invariants are read off it. -/

variable {handler : ε → δ → μ → Outcome δ} {s s' : State π μ δ} {g g' : History π μ ε}
  {l : Label π μ ε}

/-- What one step does to the state and to the history, one constructor for each way it may go. -/
inductive Move (handler : ε → δ → μ → Outcome δ) (s : State π μ δ) (g : History π μ ε) :
    Label π μ ε → State π μ δ → History π μ ε → Prop
  | append (p : π) (m : μ) :
      Move handler s g (.append p m) { s with log := Function.update s.log p (s.log p ++ [m]) } g
  | done (p : π) (env : ε) (m : μ) (store : δ) (hm : (s.log p)[s.position p]? = some m)
      (ho : handler env s.store m = .done store) :
      Move handler s g (.handle p env) (s.settle p (.done store)) (g.add ⟨p, s.position p, m, env⟩)
  | skipped (p : π) (env : ε) (m : μ) (hm : (s.log p)[s.position p]? = some m)
      (ho : handler env s.store m = .skipped) :
      Move handler s g (.handle p env) (s.settle p .skipped)
        { g with skipped := (p, s.position p) :: g.skipped }
  | raised (p : π) (env : ε) (m : μ) (hm : (s.log p)[s.position p]? = some m)
      (ho : handler env s.store m = .raised) : Move handler s g (.handle p env) (s.rewind p) g
  | commit (p : π) (offset : ℕ) (hlow : s.committed p ≤ offset) (hhigh : offset ≤ s.position p) :
      Move handler s g (.commit p offset)
        { s with committed := Function.update s.committed p offset } g
  | rewind (p : π) : Move handler s g (.rewind p) (s.rewind p) g

theorem step_cases (h : tracedStep handler (s, g) l = some (s', g')) :
    Move handler s g l s' g' := by
  obtain ⟨hs, hg⟩ := Transition.traced_eq_some h
  simp only at hs hg
  cases l with
  | append p m =>
    obtain rfl := Option.some.inj hs
    exact hg ▸ .append p m
  | handle p env =>
    obtain ⟨m, hm, rfl⟩ := Option.map_eq_some_iff.mp hs
    simp only [History.record, hm] at hg
    rcases ho : handler env s.store m with store | _ | _ <;> rw [ho] at hg <;> subst hg
    · exact .done p env m store hm ho
    · exact .skipped p env m hm ho
    · exact .raised p env m hm ho
  | commit p offset =>
    rw [State.step] at hs
    split at hs
    · next hle =>
      obtain rfl := Option.some.inj hs
      exact hg ▸ .commit p offset hle.1 hle.2
    · cases hs
  | rewind p =>
    obtain rfl := Option.some.inj hs
    exact hg ▸ .rewind p

/-- A message of the log was there before the step, or is the one appended. -/
theorem mem_log_of_step (h : s.step handler l = some s') {p : π} {m : μ} (hm : m ∈ s'.log p) :
    m ∈ s.log p ∨ l = .append p m := by
  obtain ⟨g', hmove⟩ : ∃ g', Move handler s History.empty l s' g' :=
    ⟨_, step_cases (by rw [tracedStep, Transition.traced, h]; rfl)⟩
  cases hmove with
  | append q m' =>
    by_cases hq : p = q
    · subst hq
      simp only [Function.update_self, List.mem_append, List.mem_singleton] at hm
      exact hm.imp_right fun h => by rw [h]
    · simp only [Function.update_of_ne hq] at hm
      exact Or.inl hm
  | _ => exact Or.inl hm

/-! ## Exactly once

At-least-once delivery and an idempotent handler come to exactly once: the store is what the history
leaves when it is replayed, in which no message is there twice. -/

/-- The handler is idempotent: what it has stored stays stored, whatever is handled in between,
and is not stored again, whatever the environment has become. -/
structure Idempotent (handler : ε → δ → μ → Outcome δ) (Absorbed : δ → μ → Prop) : Prop where
  absorbs : ∀ env store m store', handler env store m = .done store' → Absorbed store' m
  keeps : ∀ env store m m' store', Absorbed store m → handler env store m' = .done store' →
    Absorbed store' m
  unchanged : ∀ env store m store', Absorbed store m → handler env store m = .done store' →
    store' = store

/-- **Exactly once**: the history accounts for the store and for every offset passed. -/
structure Sound (handler : ε → δ → μ → Outcome δ) (Absorbed : δ → μ → Prop) (store : δ)
    (s : State π μ δ) (g : History π μ ε) : Prop where
  /-- the store is the one the history leaves -/
  replayed : replay handler store g.stored = some s.store
  /-- no message is in it twice -/
  once : (g.stored.map Entry.place).Nodup
  /-- its messages are those of the log -/
  message : ∀ e ∈ g.stored, (s.log e.partition)[e.offset]? = some e.message
  absorbed : ∀ e ∈ g.stored, Absorbed s.store e.message
  /-- a message skipped was one the handler skips -/
  skips : ∀ k ∈ g.skipped, ∃ m env store', (s.log k.1)[k.2]? = some m ∧
    handler env store' m = .skipped
  behind : ∀ p, s.committed p ≤ s.position p
  /-- no message is passed over -/
  covered : ∀ p i, i < s.position p → (p, i) ∈ g.stored.map Entry.place ∨ (p, i) ∈ g.skipped

section Rewind

@[simp] theorem State.rewind_log (p : π) : (s.rewind p).log = s.log := rfl
@[simp] theorem State.rewind_store (p : π) : (s.rewind p).store = s.store := rfl
@[simp] theorem State.rewind_committed (p : π) : (s.rewind p).committed = s.committed := rfl

theorem State.rewind_position_le (hbehind : ∀ p, s.committed p ≤ s.position p) (p q : π) :
    (s.rewind p).position q ≤ s.position q := by
  by_cases hq : q = p
  · subst hq
    simp only [State.rewind, Function.update_self]
    exact hbehind q
  · simp only [State.rewind, Function.update_of_ne hq]
    exact le_refl _

theorem State.committed_le_rewind (hbehind : ∀ p, s.committed p ≤ s.position p) (p q : π) :
    (s.rewind p).committed q ≤ (s.rewind p).position q := by
  by_cases hq : q = p
  · subst hq
    simp [State.rewind]
  · simp only [State.rewind, Function.update_of_ne hq]
    exact hbehind q

end Rewind

/-- A message stays where it is when the log grows: offsets are never given again. -/
theorem log_append {p q : π} {m m' : μ} {i : ℕ} (h : (s.log q)[i]? = some m') :
    (Function.update s.log p (s.log p ++ [m]) q)[i]? = some m' := by
  by_cases hq : q = p
  · subst hq
    rw [Function.update_self, List.getElem?_append_left (List.getElem?_eq_some_iff.mp h).1]
    exact h
  · rw [Function.update_of_ne hq]
    exact h

/-- The offset before the one a partition has moved to is the one just handled or an older one. -/
theorem lt_position_succ {p q : π} {i : ℕ}
    (h : i < Function.update s.position p (s.position p + 1) q) :
    i < s.position q ∨ (q, i) = (p, s.position p) := by
  by_cases hq : q = p
  · subst hq
    rw [Function.update_self] at h
    rcases Nat.lt_succ_iff_lt_or_eq.mp h with h | rfl
    · exact Or.inl h
    · exact Or.inr rfl
  · rw [Function.update_of_ne hq] at h
    exact Or.inl h

theorem position_le_update (p q : π) :
    s.position q ≤ Function.update s.position p (s.position p + 1) q := by
  by_cases hq : q = p
  · subst hq
    simp
  · simp [Function.update_of_ne hq]

omit [DecidableEq π] in
theorem sound_start {Absorbed : δ → μ → Prop} (store : δ) :
    Sound handler Absorbed store (State.start store : State π μ δ) History.empty where
  replayed := rfl
  once := List.nodup_nil
  message := fun _ h => absurd h List.not_mem_nil
  absorbed := fun _ h => absurd h List.not_mem_nil
  skips := fun _ h => absurd h List.not_mem_nil
  behind := fun _ => le_refl 0
  covered := fun _ _ h => absurd h (Nat.not_lt_zero _)

section Preserved

variable {Absorbed : δ → μ → Prop} {store : δ}

/-- A message stored: for the first time it is a new entry, any other time nothing happens. -/
theorem Sound.done (hid : Idempotent handler Absorbed) (h : Sound handler Absorbed store s g)
    {p : π} {env : ε} {m : μ} {store' : δ} (hm : (s.log p)[s.position p]? = some m)
    (ho : handler env s.store m = .done store') :
    Sound handler Absorbed store (s.settle p (.done store'))
      (g.add ⟨p, s.position p, m, env⟩) := by
  have hbehind : ∀ q, s.committed q ≤ (s.settle p (.done store')).position q := fun q =>
    le_trans (h.behind q) (position_le_update p q)
  by_cases hold : (p, s.position p) ∈ g.stored.map Entry.place
  · -- a redelivery: the message is absorbed
    have hadd : g.add ⟨p, s.position p, m, env⟩ = g := if_pos hold
    obtain ⟨e, he, hplace⟩ := List.mem_map.mp hold
    have hp : e.partition = p := congrArg Prod.fst hplace
    have hi : e.offset = s.position p := congrArg Prod.snd hplace
    have hmsg : e.message = m := by
      have := h.message e he
      rw [hp, hi, hm] at this
      exact (Option.some.inj this).symm
    obtain rfl : store' = s.store := hid.unchanged env _ m _ (hmsg ▸ h.absorbed e he) ho
    rw [hadd]
    refine ⟨h.replayed, h.once, h.message, h.absorbed, h.skips, hbehind, fun q i hlt => ?_⟩
    rcases lt_position_succ hlt with hlt | heq
    · exact h.covered q i hlt
    · exact Or.inl (heq ▸ hold)
  -- a first delivery: the history grows by the message
  · have hadd : (g.add ⟨p, s.position p, m, env⟩ : History π μ ε) =
        { g with stored := g.stored ++ [⟨p, s.position p, m, env⟩] } := if_neg hold
    rw [hadd]
    refine ⟨replay_concat h.replayed ho, ?_, ?_, ?_, h.skips, hbehind, fun q i hlt => ?_⟩
    · rw [List.map_append]
      refine List.nodup_append.mpr ⟨h.once, List.nodup_singleton _, fun x hx y hy hxy => ?_⟩
      rw [List.map_singleton, List.mem_singleton] at hy
      rw [hxy, hy] at hx
      exact hold hx
    · intro e he
      rcases List.mem_append.mp he with he | he
      · exact h.message e he
      · rw [List.mem_singleton.mp he]
        exact hm
    · intro e he
      rcases List.mem_append.mp he with he | he
      · exact hid.keeps env _ _ m _ (h.absorbed e he) ho
      · rw [List.mem_singleton.mp he]
        exact hid.absorbs env _ m _ ho
    · rw [List.map_append]
      rcases lt_position_succ hlt with hlt | heq
      · exact (h.covered q i hlt).imp (List.mem_append_left _) id
      · exact Or.inl (List.mem_append_right _ (List.mem_singleton.mpr heq))

/-- A partition read again from its committed offset changes neither the store nor the history. -/
theorem Sound.rewind (h : Sound handler Absorbed store s g) (p : π) :
    Sound handler Absorbed store (s.rewind p) g :=
  { h with
    behind := State.committed_le_rewind h.behind p
    covered := fun q i hlt =>
      h.covered q i (lt_of_lt_of_le hlt (State.rewind_position_le h.behind p q)) }

/-- **A step** keeps the history sound: only a message that is new to the history can change the
store. -/
theorem Sound.move (hid : Idempotent handler Absorbed) (h : Sound handler Absorbed store s g)
    (hmove : Move handler s g l s' g') : Sound handler Absorbed store s' g' := by
  cases hmove with
  | append p m =>
    refine { h with message := fun e he => log_append (h.message e he), skips := fun k hk => ?_ }
    obtain ⟨m', env, store', hm, ho⟩ := h.skips k hk
    exact ⟨m', env, store', log_append hm, ho⟩
  | done p env m store' hm ho => exact h.done hid hm ho
  | skipped p env m hm ho =>
    refine { h with
      skips := fun k hk => ?_
      behind := fun q => le_trans (h.behind q) (position_le_update p q)
      covered := fun q i hlt => ?_ }
    · rcases List.mem_cons.mp hk with rfl | hk
      · exact ⟨m, env, s.store, hm, ho⟩
      · exact h.skips k hk
    · rcases lt_position_succ hlt with hlt | heq
      · exact (h.covered q i hlt).imp id (List.mem_cons_of_mem _)
      · exact Or.inr (heq ▸ List.mem_cons_self ..)
  | commit p offset hlow hhigh =>
    refine { h with behind := fun q => ?_ }
    by_cases hq : q = p
    · subst hq
      simpa using hhigh
    · simpa [Function.update_of_ne hq] using h.behind q
  | raised p env m hm ho => exact h.rewind p
  | rewind p => exact h.rewind p

/-- **The run lemma**: every run from an empty log has a sound history. -/
theorem sound_of_exec (hid : Idempotent handler Absorbed) {labels : List (Label π μ ε)}
    (h : Transition.exec (tracedStep handler) (State.start store, History.empty) labels =
      some (s, g)) : Sound handler Absorbed store s g :=
  Transition.exec_invariant (I := fun x => Sound handler Absorbed store x.1 x.2)
    (fun _ _ _ hx hstep => hx.move hid (step_cases hstep)) (sound_start store) h

end Preserved

/-! ## In order

Within a partition the history keeps the order of the log. Redeliveries do not disturb it, as they
add nothing. -/

/-- The offsets of a partition in the history, in the order of the history. Other partitions may
come in between. -/
def History.offsets (g : History π μ ε) (p : π) : List ℕ :=
  (g.stored.filter fun e => decide (e.partition = p)).map Entry.offset

/-- The offsets below `n` of the messages that are not junk: those the history has to list. -/
def properOffsets (junk : μ → Bool) (messages : List μ) (n : ℕ) : List ℕ :=
  (List.range n).filter fun i => messages[i]?.any fun m => !junk m

/-- Only junk is skipped in this step: a message that is skipped will not be stored later either. -/
def SkipsJunk (handler : ε → δ → μ → Outcome δ) (junk : μ → Bool)
    (x : State π μ δ × History π μ ε) : Label π μ ε → Prop
  | .handle p env => ∀ m, (x.1.log p)[x.1.position p]? = some m →
      handler env x.1.store m = .skipped → junk m = true
  | _ => True

/-- **In order**: the history has, of each partition, the messages up to some offset that are not
junk, in the order of the partition. -/
def InOrder (junk : μ → Bool) (s : State π μ δ) (g : History π μ ε) : Prop :=
  ∀ p, ∃ n, s.position p ≤ n ∧ n ≤ (s.log p).length ∧
    g.offsets p = properOffsets junk (s.log p) n

theorem mem_properOffsets {junk : μ → Bool} {messages : List μ} {n i : ℕ} :
    i ∈ properOffsets junk messages n ↔
      i < n ∧ ∃ m, messages[i]? = some m ∧ junk m = false := by
  simp [properOffsets, Option.any_eq_true]

theorem properOffsets_succ {junk : μ → Bool} {messages : List μ} {n : ℕ} {m : μ}
    (hm : messages[n]? = some m) :
    properOffsets junk messages (n + 1) =
      properOffsets junk messages n ++ if junk m then [] else [n] := by
  rw [properOffsets, List.range_succ, List.filter_append, ← properOffsets]
  cases hj : junk m <;> simp [hm, hj]

theorem properOffsets_append {junk : μ → Bool} {messages : List μ} {m : μ} {n : ℕ}
    (hn : n ≤ messages.length) :
    properOffsets junk (messages ++ [m]) n = properOffsets junk messages n := by
  apply List.filter_congr
  intro i hi
  rw [List.getElem?_append_left (lt_of_lt_of_le (List.mem_range.mp hi) hn)]

theorem mem_offsets {p : π} {i : ℕ} :
    i ∈ g.offsets p ↔ (p, i) ∈ g.stored.map Entry.place := by
  simp only [History.offsets, List.mem_map, List.mem_filter, decide_eq_true_eq, Entry.place,
    Prod.mk.injEq]
  exact ⟨fun ⟨e, ⟨he, hp⟩, hi⟩ => ⟨e, he, hp, hi⟩, fun ⟨e, he, hp, hi⟩ => ⟨e, ⟨he, hp⟩, hi⟩⟩

theorem offsets_add_of_mem {p : π} {i : ℕ} {m : μ} {env : ε}
    (h : (p, i) ∈ g.stored.map Entry.place) : g.add ⟨p, i, m, env⟩ = g := if_pos h

theorem offsets_add {p q : π} {i : ℕ} {m : μ} {env : ε}
    (h : (p, i) ∉ g.stored.map Entry.place) :
    (g.add ⟨p, i, m, env⟩).offsets q = g.offsets q ++ if p = q then [i] else [] := by
  have hadd : (g.add ⟨p, i, m, env⟩ : History π μ ε) =
      { g with stored := g.stored ++ [⟨p, i, m, env⟩] } := if_neg h
  rw [hadd, History.offsets, List.filter_append, List.map_append, ← History.offsets]
  by_cases hq : p = q <;> simp [hq]

theorem inOrder_start {junk : μ → Bool} (store : δ) :
    InOrder junk (State.start store : State π μ δ) (History.empty : History π μ ε) :=
  fun _ => ⟨0, le_refl 0, le_refl 0, rfl⟩

section Preserved

variable {junk : μ → Bool}

/-- The next message of a partition, stored or skipped as junk, is the next of the history or one
passed before. -/
theorem InOrder.pass (h : InOrder junk s g) {p : π} {m : μ}
    (hm : (s.log p)[s.position p]? = some m) {t : State π μ δ} (hlog : t.log = s.log)
    (hpos : t.position = Function.update s.position p (s.position p + 1)) {g' : History π μ ε}
    (hother : ∀ q, q ≠ p → g'.offsets q = g.offsets q)
    (hself : g'.offsets p = g.offsets p ++
      if junk m ∨ s.position p ∈ g.offsets p then [] else [s.position p]) :
    InOrder junk t g' := by
  intro q
  obtain ⟨n, hle, hlen, hoff⟩ := h q
  rw [hlog, hpos]
  by_cases hq : q = p
  · subst hq
    rw [Function.update_self, hself]
    rcases Nat.lt_or_eq_of_le hle with hlt | rfl
    · refine ⟨n, hlt, hlen, ?_⟩
      have hpassed : junk m = true ∨ s.position q ∈ g.offsets q := by
        by_cases hj : junk m = true
        · exact Or.inl hj
        · rw [hoff]
          exact Or.inr (mem_properOffsets.mpr ⟨hlt, m, hm, by simpa using hj⟩)
      rw [if_pos hpassed, List.append_nil, hoff]
    · refine ⟨s.position q + 1, le_refl _, (List.getElem?_eq_some_iff.mp hm).1, ?_⟩
      have hnew : s.position q ∉ g.offsets q := by
        rw [hoff]
        exact fun hmem => lt_irrefl _ (mem_properOffsets.mp hmem).1
      rw [properOffsets_succ hm, hoff]
      simp only [hoff ▸ hnew, or_false]
  · rw [Function.update_of_ne hq, hother q hq]
    exact ⟨n, hle, hlen, hoff⟩

/-- A partition read again from its committed offset: what is passed again is in the history
already. -/
theorem InOrder.rewind (h : InOrder junk s g) (hbehind : ∀ p, s.committed p ≤ s.position p)
    (p : π) : InOrder junk (s.rewind p) g := by
  intro q
  obtain ⟨n, hle, hlen, hoff⟩ := h q
  exact ⟨n, le_trans (State.rewind_position_le hbehind p q) hle, hlen, hoff⟩

/-- **A step that skips nothing but junk** keeps the history in order: the next new message is the
next one of its partition. -/
theorem InOrder.move (hjunk : ∀ env store m, junk m = true → handler env store m = .skipped)
    (h : InOrder junk s g) (hbehind : ∀ p, s.committed p ≤ s.position p)
    (hC : SkipsJunk handler junk (s, g) l) (hmove : Move handler s g l s' g') :
    InOrder junk s' g' := by
  cases hmove with
  | append p m =>
    intro q
    obtain ⟨n, hle, hlen, hoff⟩ := h q
    refine ⟨n, hle, ?_, ?_⟩
    · by_cases hq : q = p
      · subst hq
        simpa using Nat.le_succ_of_le hlen
      · simpa [Function.update_of_ne hq] using hlen
    · by_cases hq : q = p
      · subst hq
        simp only [Function.update_self, properOffsets_append hlen]
        exact hoff
      · simpa [Function.update_of_ne hq] using hoff
  | done p env m store hm ho =>
    have hproper : junk m = false := by
      by_contra hj
      rw [hjunk env s.store m (by simpa using hj)] at ho
      cases ho
    by_cases hold : (p, s.position p) ∈ g.stored.map Entry.place
    · rw [offsets_add_of_mem hold]
      exact h.pass hm (t := s.settle p (.done store)) rfl rfl (fun _ _ => rfl)
        (by simp [mem_offsets.mpr hold])
    · refine h.pass hm (t := s.settle p (.done store)) rfl rfl (fun q hq => ?_) ?_
      · simp [offsets_add hold, Ne.symm hq]
      · simp [offsets_add hold, hproper, mem_offsets, hold]
  | skipped p env m hm ho =>
    exact h.pass hm (t := s.settle p .skipped) rfl rfl (fun _ _ => rfl)
      (by simp [History.offsets, hC m hm ho])
  | raised p env m hm ho => exact h.rewind hbehind p
  | commit p offset hlow hhigh => exact h
  | rewind p => exact h.rewind hbehind p

/-- The run lemma: the history is sound and in order. -/
theorem inOrder_of_exec {Absorbed : δ → μ → Prop} {store : δ} (hid : Idempotent handler Absorbed)
    (hjunk : ∀ env store m, junk m = true → handler env store m = .skipped)
    {labels : List (Label π μ ε)}
    (hC : Transition.Along (tracedStep handler) (SkipsJunk handler junk)
      (State.start store, History.empty) labels)
    (h : Transition.exec (tracedStep handler) (State.start store, History.empty) labels =
      some (s, g)) : InOrder junk s g :=
  (Transition.exec_invariant_along
    (I := fun x => Sound handler Absorbed store x.1 x.2 ∧ InOrder junk x.1 x.2)
    (fun _ _ _ hx hC hstep => ⟨hx.1.move hid (step_cases hstep),
      hx.2.move hjunk hx.1.behind hC (step_cases hstep)⟩)
    ⟨sound_start store, inOrder_start store⟩ hC h).2

/-- The messages at the offsets below `n` that are not junk. -/
theorem filterMap_properOffsets (messages : List μ) :
    ∀ n, n ≤ messages.length → (properOffsets junk messages n).filterMap (messages[·]?) =
      (messages.take n).filter fun m => !junk m := by
  intro n
  induction n with
  | zero => exact fun _ => by simp [properOffsets]
  | succ n ih =>
    intro hn
    have hm : messages[n]? = some messages[n] := List.getElem?_eq_getElem hn
    rw [properOffsets_succ hm, List.filterMap_append, ih (Nat.le_of_succ_le hn),
      List.take_add_one, hm, List.filter_append]
    cases hj : junk messages[n] <;> simp [hm, hj]

/-- A partition passed to its end is in the history message by message. -/
theorem InOrder.messages {Absorbed : δ → μ → Prop} {store : δ} (h : InOrder junk s g)
    (hsound : Sound handler Absorbed store s g) {p : π} (hp : s.position p = (s.log p).length) :
    (g.stored.filter fun e => decide (e.partition = p)).map Entry.message =
      (s.log p).filter fun m => !junk m := by
  obtain ⟨n, hle, hlen, hoff⟩ := h p
  obtain rfl : n = (s.log p).length := le_antisymm hlen (hp ▸ hle)
  have hread : ∀ {entries : List (Entry π μ ε)},
      (∀ e ∈ entries, (s.log p)[e.offset]? = some e.message) →
      entries.map Entry.message = (entries.map Entry.offset).filterMap ((s.log p)[·]?) := by
    intro entries hentries
    induction entries with
    | nil => rfl
    | cons e entries ih =>
      rw [List.map_cons, List.map_cons,
        List.filterMap_cons_some (hentries e (List.mem_cons_self ..)),
        ih fun e' he' => hentries e' (List.mem_cons_of_mem _ he')]
  have hmsg : ∀ e ∈ g.stored.filter (fun e => decide (e.partition = p)),
      (s.log p)[e.offset]? = some e.message := by
    intro e he
    obtain ⟨he, hep⟩ := List.mem_filter.mp he
    exact of_decide_eq_true hep ▸ hsound.message e he
  rw [hread hmsg]
  change (g.offsets p).filterMap _ = _
  rw [hoff, filterMap_properOffsets _ _ (le_refl _), List.take_length]

end Preserved

end AtLeastOnce
