import Grosh.Lib.Stopwatch
import Mathlib.Algebra.Order.Group.Unbundled.Basic
import Mathlib.Data.Rat.Defs
import Mathlib.Algebra.Order.Ring.Rat

/-!
# A missing topic

The consumers of both services poll through `poll_message`, which tolerates an unknown topic for
a while: a budget notes the first of these errors, and once the tolerance has passed since then
the error is raised. A message and the end of a partition reset the budget. So does a poll that
gives nothing, although nothing was polled successfully.

* `raisesAt_unknownTopic_iff` — an unknown topic is raised exactly if a burst of such errors,
  without an empty poll in between, is as long as the tolerance;
* `escalates_iff_burst` — a missing topic is escalated exactly if its errors come in such a burst.
-/

namespace Grosh

open Stopwatch

/-! ## The budget

The budget is meant to measure how long an error has lasted: it notes the first of a series and
compares later ones with it. -/

/-- `TransientErrorBudget`, with the times of `time.monotonic()` in seconds. `firstSeen` is empty
between two series of errors. -/
structure TransientErrorBudget : Type where
  tolerance : ℚ
  firstSeen : Option ℚ

/-- `TransientErrorBudget(tolerance_seconds)`, which has seen no error. -/
def TransientErrorBudget.init (toleranceSeconds : ℚ) : TransientErrorBudget :=
  ⟨toleranceSeconds, none⟩

/-- `TransientErrorBudget.record`: whether `now` is still within the budget. -/
def TransientErrorBudget.record (budget : TransientErrorBudget) (now : ℚ) :
    Bool × TransientErrorBudget :=
  let firstSeen := budget.firstSeen.getD now
  (decide (now - firstSeen < budget.tolerance), { budget with firstSeen := some firstSeen })

/-- `TransientErrorBudget.reset`: the series is over. -/
def TransientErrorBudget.reset (budget : TransientErrorBudget) : TransientErrorBudget :=
  { budget with firstSeen := none }

/-! ## The poll

One function reads the consumer for both services. It tells four kinds of answers apart: nothing, an
error that is tolerated, any other error, and a message. -/

/-- The codes `poll_message` tells apart; all others are raised at once. -/
inductive KafkaErrorCode : Type where
  | partitionEof
  | unknownTopicOrPart
  | other (code : ℤ)
  deriving DecidableEq

/-- What `consumer.poll` returns, if anything: an error or a value. -/
structure KafkaMessage : Type where
  error : Option KafkaErrorCode
  value : Option (List UInt8)
  deriving DecidableEq

/-- What `poll_message` can raise. The caller does not catch it, and the process ends. -/
inductive PollError : Type where
  | kafkaException (code : KafkaErrorCode)
  /-- `assert raw_value is not None` -/
  | assertion
  deriving DecidableEq

/-- `poll_message` at the time `now`: an empty poll resets the budget just as a message does. -/
def pollMessage (budget : TransientErrorBudget) (now : ℚ) (msg : Option KafkaMessage) :
    Except PollError (Option (List UInt8 × KafkaMessage)) × TransientErrorBudget :=
  match msg with
  | none => (.ok none, budget.reset)
  | some msg =>
    match msg.error with
    | some .partitionEof => (.ok none, budget.reset)
    | some .unknownTopicOrPart =>
      let (withinBudget, budget) := budget.record now
      (if withinBudget then .ok none else .error (.kafkaException .unknownTopicOrPart), budget)
    | some (.other code) => (.error (.kafkaException (.other code)), budget)
    | none =>
      match msg.value with
      | none => (.error .assertion, budget.reset)
      | some rawValue => (.ok (some (rawValue, msg)), budget.reset)

/-- `UNKNOWN_TOPIC_TOLERANCE_SECONDS`. -/
def unknownTopicToleranceSeconds : ℚ := 30

/-- A call of `poll_message`: its time, and what the consumer returned. A process is a sequence of
them. -/
structure Poll : Type where
  time : ℚ
  msg : Option KafkaMessage

/-- An unknown topic: the error that is tolerated for a while. -/
def Poll.UnknownTopic (p : Poll) : Prop :=
  ∃ msg, p.msg = some msg ∧ msg.error = some .unknownTopicOrPart

/-- No message within the time-out of the poll, which says nothing about the topic. -/
def Poll.Empty (p : Poll) : Prop := p.msg = none

/-- A message, or the end of a partition: the topic is there. -/
def Poll.Successful (p : Poll) : Prop :=
  ∃ msg, p.msg = some msg ∧ (msg.error = none ∨ msg.error = some .partitionEof)

variable {tolerance : ℚ} {polls : ℕ → Poll} {i k n : ℕ}

/-- The budget before the `n`-th of the polls of a process. -/
def budgetAt (tolerance : ℚ) (polls : ℕ → Poll) : ℕ → TransientErrorBudget
  | 0 => .init tolerance
  | n + 1 => (pollMessage (budgetAt tolerance polls n) (polls n).time (polls n).msg).2

/-- The `n`-th poll raises, given all those before it. -/
def RaisesAt (tolerance : ℚ) (polls : ℕ → Poll) (n : ℕ) : Prop :=
  ∃ e, (pollMessage (budgetAt tolerance polls n) (polls n).time (polls n).msg).1 = .error e

/-! ## The budget is a stopwatch

What the budget does is what a stopwatch does that is started by one kind of poll and cleared by
others. -/

/-- What a poll does to the budget: start it, clear it, or leave it as it is. -/
def Poll.effect (p : Poll) : Effect :=
  match p.msg with
  | none => .clear
  | some msg =>
    match msg.error with
    | some .partitionEof => .clear
    | some .unknownTopicOrPart => .start
    | some (.other _) => .keep
    | none => .clear

/-- The unknown topics start the stopwatch. -/
theorem Poll.effect_eq_start {p : Poll} : p.effect = .start ↔ p.UnknownTopic := by
  obtain ⟨time, _ | ⟨_ | _ | _ | code, value⟩⟩ := p <;> simp [Poll.effect, Poll.UnknownTopic]

/-- The successful polls and the empty ones clear it. -/
theorem Poll.effect_eq_clear {p : Poll} : p.effect = .clear ↔ p.Successful ∨ p.Empty := by
  obtain ⟨time, _ | ⟨_ | _ | _ | code, value⟩⟩ := p <;>
    simp [Poll.effect, Poll.Successful, Poll.Empty]

/-- One poll presses the stopwatch, and changes nothing else of the budget. -/
theorem firstSeen_pollMessage (budget : TransientErrorBudget) (p : Poll) :
    (pollMessage budget p.time p.msg).2 =
      { budget with firstSeen := press budget.firstSeen p.time p.effect } := by
  obtain ⟨time, _ | ⟨_ | _ | _ | code, _ | rawValue⟩⟩ := p <;> rfl

/-- **The budget** of a run of polls notes what the stopwatch shows. -/
theorem budgetAt_eq (tolerance : ℚ) (polls : ℕ → Poll) (n : ℕ) :
    budgetAt tolerance polls n =
      ⟨tolerance, reading (fun n => (polls n).effect) (fun n => (polls n).time) n⟩ := by
  induction n with
  | zero => rfl
  | succ n ih =>
    rw [budgetAt, firstSeen_pollMessage, ih]
    rfl

/-! ## Bursts of errors

When exactly an unknown topic is raised: after as long a time of nothing but errors as the
tolerance. -/

/-- A burst of unknown topics ends with the `k`-th poll, as long as the tolerance: since an
unknown topic of that long ago nothing was received, and no poll was empty. -/
def BurstEndsAt (tolerance : ℚ) (polls : ℕ → Poll) (k : ℕ) : Prop :=
  (polls k).UnknownTopic ∧ ∃ i ≤ k, (polls i).UnknownTopic ∧
    tolerance ≤ (polls k).time - (polls i).time ∧
    ∀ j, i < j → j < k → ¬ (polls j).Successful ∧ ¬ (polls j).Empty

/-- An unknown topic is raised once the tolerance has passed since the first of them. -/
theorem raisesAt_iff_firstSeen (hunknown : (polls k).UnknownTopic) :
    RaisesAt tolerance polls k ↔
      ∃ s, (budgetAt tolerance polls (k + 1)).firstSeen = some s ∧
        s ≤ (polls k).time - tolerance := by
  obtain ⟨msg, hmsg, herror⟩ := hunknown
  have hbudget : (budgetAt tolerance polls k).tolerance = tolerance := by rw [budgetAt_eq]
  rw [RaisesAt, budgetAt]
  simp only [hmsg, pollMessage, herror, TransientErrorBudget.record, hbudget]
  generalize (budgetAt tolerance polls k).firstSeen.getD (polls k).time = s
  by_cases hwithin : (polls k).time - s < tolerance
  · have hlate : ¬ s ≤ (polls k).time - tolerance := by
      rw [not_le, sub_lt_comm]
      exact hwithin
    simp [hwithin, hlate]
  · have hearly : s ≤ (polls k).time - tolerance := by
      rw [le_sub_comm]
      exact not_lt.mp hwithin
    simp [hwithin, hearly]

/-- **An unknown topic is raised** exactly at the end of a burst. -/
theorem raisesAt_unknownTopic_iff (hclock : Monotone fun n => (polls n).time)
    (hunknown : (polls k).UnknownTopic) :
    RaisesAt tolerance polls k ↔ BurstEndsAt tolerance polls k := by
  have huncleared : ∀ i, Uncleared (fun n => (polls n).effect) i (k + 1) ↔
      ∀ j, i < j → j < k → ¬ (polls j).Successful ∧ ¬ (polls j).Empty := by
    intro i
    have hk : (polls k).effect ≠ .clear := by
      rw [Poll.effect_eq_start.mpr hunknown]
      decide
    refine ⟨fun h j hij hjk => ?_, fun h => Uncleared.succ (fun j hij hjk => ?_) hk⟩
    · exact not_or.mp fun hclear =>
        h j hij (hjk.trans (Nat.lt_succ_self k)) (Poll.effect_eq_clear.mpr hclear)
    · exact fun hclear => not_or.mpr (h j hij hjk) (Poll.effect_eq_clear.mp hclear)
  rw [raisesAt_iff_firstSeen hunknown, budgetAt_eq, BurstEndsAt, and_iff_right hunknown,
    reading_le_iff hclock]
  simp only [Poll.effect_eq_start, huncleared, Nat.lt_succ_iff, le_sub_comm]

/-! ## Escalation

What the tolerance promises, and the condition under which it is kept: an empty poll in between
starts the measurement anew. -/

/-- The topic is missing from the `i`-th poll to the `k`-th, for the tolerance at least: no
message and no end of a partition is received in between. -/
structure MissingTopic (tolerance : ℚ) (polls : ℕ → Poll) (i k : ℕ) : Prop where
  lt : i < k
  first : (polls i).UnknownTopic
  last : (polls k).UnknownTopic
  between : ∀ j, i < j → j < k → (polls j).UnknownTopic ∨ (polls j).Empty
  long : tolerance ≤ (polls k).time - (polls i).time

/-- Among `n` polls, a missing topic is escalated before the tolerance has passed or then. -/
def Escalates (tolerance : ℚ) (polls : ℕ → Poll) (n : ℕ) : Prop :=
  ∀ i k, k < n → MissingTopic tolerance polls i k →
    ∃ j, i ≤ j ∧ j ≤ k ∧ RaisesAt tolerance polls j

/-- Among `n` polls, none raises an unknown topic less than the tolerance after a message or the
end of a partition. -/
def NoFalseAlarm (tolerance : ℚ) (polls : ℕ → Poll) (n : ℕ) : Prop :=
  ∀ i k, i < k → k < n → (polls i).Successful → (polls k).UnknownTopic →
    (polls k).time - (polls i).time < tolerance → ¬ RaisesAt tolerance polls k

/-- Among `n` polls, every missing topic shows in a burst of errors. -/
def ShowsInBursts (tolerance : ℚ) (polls : ℕ → Poll) (n : ℕ) : Prop :=
  ∀ i k, k < n → MissingTopic tolerance polls i k →
    ∃ j, i ≤ j ∧ j ≤ k ∧ BurstEndsAt tolerance polls j

theorem noFalseAlarm (hclock : Monotone fun n => (polls n).time) :
    NoFalseAlarm tolerance polls n := by
  intro i k hik _ hsuccess hunknown hsoon hraises
  obtain ⟨s, hs, hle⟩ := (raisesAt_iff_firstSeen hunknown).mp hraises
  rw [budgetAt_eq] at hs
  have hclear : (polls i).effect = .clear := Poll.effect_eq_clear.mpr (Or.inl hsuccess)
  have hreading : reading (fun n => (polls n).effect) (fun n => (polls n).time) (k + 1) = some s :=
    hs
  have hcleared := le_reading_of_clear hclock (hik.trans (Nat.lt_succ_self k)) hclear hreading
  have hlong : tolerance ≤ (polls k).time - (polls i).time := by
    rw [le_sub_comm]
    exact hcleared.trans hle
  exact absurd hsoon (not_lt.mpr hlong)

/-- In a missing topic only the unknown topics can raise. -/
theorem MissingTopic.raisesAt_iff (h : MissingTopic tolerance polls i k)
    (hclock : Monotone fun n => (polls n).time) {j : ℕ} (hij : i ≤ j) (hjk : j ≤ k) :
    RaisesAt tolerance polls j ↔ BurstEndsAt tolerance polls j := by
  have hcases : (polls j).UnknownTopic ∨ (polls j).Empty := by
    rcases hij.eq_or_lt with rfl | hij
    · exact Or.inl h.first
    rcases hjk.eq_or_lt with rfl | hjk
    · exact Or.inl h.last
    · exact h.between j hij hjk
  rcases hcases with hunknown | hempty
  · exact raisesAt_unknownTopic_iff hclock hunknown
  · refine iff_of_false ?_ ?_
    · rintro ⟨e, he⟩
      rw [hempty] at he
      cases he
    · rintro ⟨⟨msg, hmsg, -⟩, -⟩
      rw [hempty] at hmsg
      cases hmsg

/-- **A missing topic is escalated, exactly where it shows in bursts**: however messages, errors
and empty polls are mixed, and never too early. -/
theorem escalates_iff_burst (hclock : Monotone fun n => (polls n).time) (tolerance : ℚ) (n : ℕ) :
    (Escalates tolerance polls n ∧ NoFalseAlarm tolerance polls n) ↔
      ShowsInBursts tolerance polls n := by
  rw [and_iff_left (noFalseAlarm hclock)]
  refine forall₄_congr fun i k _ hmissing => exists_congr fun j => ?_
  exact and_congr_right fun hij => and_congr_right fun hjk =>
    hmissing.raisesAt_iff hclock hij hjk

/-- A poll every fifteen seconds: an unknown topic, nothing, an unknown topic, nothing, and so on
without end. -/
def sampleMissing (n : ℕ) : Poll :=
  ⟨15 * n, if n % 2 = 0 then some ⟨some .unknownTopicOrPart, none⟩ else none⟩

theorem monotone_sampleMissing : Monotone fun n => (sampleMissing n).time := by
  intro m n hmn
  have hcast : (m : ℚ) ≤ n := by exact_mod_cast hmn
  exact mul_le_mul_of_nonneg_left hcast (by decide)

theorem sampleMissing_cases (n : ℕ) :
    n % 2 = 0 ∧ (sampleMissing n).UnknownTopic ∨
      n % 2 = 1 ∧ ¬ (sampleMissing n).UnknownTopic ∧ (sampleMissing n).Empty := by
  rcases Nat.mod_two_eq_zero_or_one n with heven | hodd
  · exact Or.inl ⟨heven, _, if_pos heven, rfl⟩
  · have hempty : (sampleMissing n).msg = none := if_neg (by omega)
    refine Or.inr ⟨hodd, ?_, hempty⟩
    rintro ⟨msg, hmsg, -⟩
    rw [hempty] at hmsg
    cases hmsg

theorem escalates_iff_burst_sample :
    (Escalates unknownTopicToleranceSeconds sampleMissing 3 ∧
      NoFalseAlarm unknownTopicToleranceSeconds sampleMissing 3) ↔
        ShowsInBursts unknownTopicToleranceSeconds sampleMissing 3 :=
  escalates_iff_burst monotone_sampleMissing _ _

/-- With an empty poll between any two errors a missing topic is not raised after half a minute,
nor ever. -/
theorem not_escalates_of_empty_polls :
    ¬ Escalates unknownTopicToleranceSeconds sampleMissing 3 ∧
      ∀ n, ¬ RaisesAt unknownTopicToleranceSeconds sampleMissing n := by
  have hnever : ∀ n, ¬ RaisesAt unknownTopicToleranceSeconds sampleMissing n := by
    intro n
    rcases sampleMissing_cases n with ⟨heven, hunknown⟩ | ⟨-, -, hempty⟩
    · rw [raisesAt_unknownTopic_iff monotone_sampleMissing hunknown]
      rintro ⟨-, i, hin, hfirst, hlong, hbetween⟩
      rcases hin.eq_or_lt with rfl | hlt
      · rw [sub_self] at hlong
        exact absurd hlong (by decide)
      -- the poll after the first error is empty
      · rcases sampleMissing_cases i with ⟨hi, -⟩ | ⟨-, hno, -⟩
        · rcases sampleMissing_cases (i + 1) with ⟨hi', -⟩ | ⟨-, -, hempty⟩
          · omega
          · exact (hbetween (i + 1) (by omega) (by omega)).2 hempty
        · exact hno hfirst
    · rintro ⟨e, he⟩
      rw [hempty] at he
      cases he
  refine ⟨fun h => ?_, hnever⟩
  have hmissing : MissingTopic unknownTopicToleranceSeconds sampleMissing 0 2 := by
    refine ⟨by decide, ⟨_, rfl, rfl⟩, ⟨_, rfl, rfl⟩, fun j h0 h2 => ?_, by decide +kernel⟩
    obtain rfl : j = 1 := by omega
    exact Or.inr rfl
  obtain ⟨j, -, -, hraises⟩ := h 0 2 (by decide) hmissing
  exact hnever j hraises

end Grosh
