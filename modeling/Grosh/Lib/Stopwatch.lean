import Mathlib.Order.Monotone.Basic

/-!
# A stopwatch

Events happen one after another at the times of a clock. Some start a stopwatch, which keeps the
time of the first of them, some clear it, and the others leave it.

A program that gives something up after it has failed for so long keeps such a watch. When it gives
up is then a question about the past: was there a first failure long enough ago, with no success
since?

* `reading` — what it shows before the `n`-th event;
* `reading_le_iff` — it shows `t` or earlier, exactly if there was a starting event at `t` or
  earlier that nothing cleared since;
* `le_reading_of_clear` — it shows nothing from before it was cleared.
-/

universe u

namespace Stopwatch

/-- What an event does to the stopwatch. Most events leave it as it is. -/
inductive Effect : Type where
  | start
  | clear
  | keep
  deriving DecidableEq

variable {τ : Type u}

/-- The stopwatch after an event. A running one is not started again. -/
def press (watch : Option τ) (now : τ) : Effect → Option τ
  | .start => some (watch.getD now)
  | .clear => none
  | .keep => watch

/-- The stopwatch before the `n`-th event, after all that came earlier. -/
def reading (effect : ℕ → Effect) (clock : ℕ → τ) : ℕ → Option τ
  | 0 => none
  | n + 1 => press (reading effect clock n) (clock n) (effect n)

/-- Nothing after the `i`-th event and before the `n`-th clears it; what happens at the two does not
matter. -/
def Uncleared (effect : ℕ → Effect) (i n : ℕ) : Prop :=
  ∀ j, i < j → j < n → effect j ≠ .clear

variable {effect : ℕ → Effect} {clock : ℕ → τ} {i n : ℕ} {s t : τ}

theorem reading_succ :
    reading effect clock (n + 1) = press (reading effect clock n) (clock n) (effect n) := rfl

theorem Uncleared.succ (h : Uncleared effect i n) (hn : effect n ≠ .clear) :
    Uncleared effect i (n + 1) := by
  intro j hij hjn
  rcases Nat.lt_succ_iff_lt_or_eq.mp hjn with hlt | rfl
  · exact h j hij hlt
  · exact hn

theorem Uncleared.of_succ (h : Uncleared effect i (n + 1)) : Uncleared effect i n :=
  fun j hij hjn => h j hij (hjn.trans (Nat.lt_succ_self n))

/-- It shows the time of an event that started it, and has not been cleared since. -/
theorem exists_start_of_reading (h : reading effect clock n = some s) :
    ∃ i < n, effect i = .start ∧ clock i = s ∧ Uncleared effect i n := by
  induction n with
  | zero => cases h
  | succ n ih =>
    have hearlier : reading effect clock n = some s → effect n ≠ .clear →
        ∃ i < n + 1, effect i = .start ∧ clock i = s ∧ Uncleared effect i (n + 1) := by
      intro hs hn
      obtain ⟨i, hi, hstart, hclock, hunc⟩ := ih hs
      exact ⟨i, hi.trans (Nat.lt_succ_self n), hstart, hclock, hunc.succ hn⟩
    rw [reading_succ] at h
    rcases heffect : effect n with _ | _ | _
    · rw [heffect] at h
      rcases hwatch : reading effect clock n with _ | s'
      · rw [hwatch] at h
        refine ⟨n, Nat.lt_succ_self n, heffect, Option.some.inj h, fun j hnj hjn => ?_⟩
        exact absurd hjn (Nat.not_lt.mpr hnj)
      · rw [hwatch] at h
        obtain rfl := Option.some.inj h
        exact hearlier hwatch (by simp [heffect])
    · rw [heffect] at h
      cases h
    · rw [heffect] at h
      exact hearlier h (by simp [heffect])

section Clock

variable [Preorder τ]

/-- Once it was started, it shows that time or an earlier one until it is cleared. -/
theorem reading_le_of_start (hclock : Monotone clock) (hi : i < n) (hstart : effect i = .start)
    (hunc : Uncleared effect i n) : ∃ s, reading effect clock n = some s ∧ s ≤ clock i := by
  induction n with
  | zero => exact absurd hi (Nat.not_lt_zero i)
  | succ n ih =>
    rw [reading_succ]
    rcases Nat.lt_succ_iff_lt_or_eq.mp hi with hlt | rfl
    · obtain ⟨s, hs, hle⟩ := ih hlt hunc.of_succ
      rw [hs]
      rcases heffect : effect n with _ | _ | _
      · exact ⟨s, rfl, hle⟩
      · exact absurd heffect (hunc n hlt (Nat.lt_succ_self n))
      · exact ⟨s, rfl, hle⟩
    · rw [hstart]
      rcases hwatch : reading effect clock i with _ | s
      · exact ⟨clock i, rfl, le_rfl⟩
      · obtain ⟨j, hj, -, rfl, -⟩ := exists_start_of_reading hwatch
        exact ⟨clock j, rfl, hclock hj.le⟩

/-- **What it shows**: a time not after `t`, exactly if it was started by then and not cleared
since. -/
theorem reading_le_iff (hclock : Monotone clock) :
    (∃ s, reading effect clock n = some s ∧ s ≤ t) ↔
      ∃ i < n, effect i = .start ∧ clock i ≤ t ∧ Uncleared effect i n := by
  refine ⟨?_, ?_⟩
  · rintro ⟨s, hs, hle⟩
    obtain ⟨i, hi, hstart, rfl, hunc⟩ := exists_start_of_reading hs
    exact ⟨i, hi, hstart, hle, hunc⟩
  · rintro ⟨i, hi, hstart, hle, hunc⟩
    obtain ⟨s, hs, hsi⟩ := reading_le_of_start hclock hi hstart hunc
    exact ⟨s, hs, hsi.trans hle⟩

/-- What it shows is not from before it was cleared: a start has to follow the clearing. -/
theorem le_reading_of_clear (hclock : Monotone clock) (hi : i < n) (hclear : effect i = .clear)
    (hs : reading effect clock n = some s) : clock i ≤ s := by
  obtain ⟨j, hj, hstart, rfl, hunc⟩ := exists_start_of_reading hs
  apply hclock
  by_contra hlt
  exact hunc i (not_le.mp hlt) hi hclear

end Clock

end Stopwatch
