import Mathlib.Data.Nat.Notation
import Mathlib.Logic.Function.Basic

/-!
# Locks of sessions

Locks that belong to a session, not to a transaction: a session may take a lock it holds again,
has to release it as often, and loses all its locks when it ends. Another session waits.

`Holds` says who holds a lock. At most one session does (`Holds.eq`); a session keeps what it
holds until it releases it or ends (`Holds.acquire`, `Holds.release_of_ne`,
`Holds.endSession_of_ne`). Keys and sessions are arbitrary types.

It is what `pg_advisory_lock` does. A lock of this kind outlives the transactions of its session, so
it has to be looked at together with what the session does in between, which is for the user of
these lemmas to say.
-/

universe u v

/-- For each key its session, and how often it took the lock beyond the first time. A key that
nobody holds has none. -/
abbrev SessionLocks (κ : Type u) (σ : Type v) : Type (max u v) := κ → Option (σ × ℕ)

namespace SessionLocks

variable {κ : Type u} {σ : Type v} {l l' : SessionLocks κ σ} {k k' : κ} {p q : σ}

/-- No lock is held, as before the first session. -/
def free : SessionLocks κ σ := fun _ => none

/-- The session holds the lock, once or more often. -/
def Holds (l : SessionLocks κ σ) (k : κ) (p : σ) : Prop := ∃ n, l k = some (p, n)

/-- **Mutual exclusion**: two sessions that hold one lock are the same. -/
theorem Holds.eq (hp : l.Holds k p) (hq : l.Holds k q) : p = q := by
  obtain ⟨n, hn⟩ := hp
  obtain ⟨m, hm⟩ := hq
  exact congrArg Prod.fst (Option.some.inj (hn.symm.trans hm))

section Steps

variable [DecidableEq κ] [DecidableEq σ]

/-- The session takes the lock, if no other one holds it; `none` says that it has to wait. -/
def acquire (l : SessionLocks κ σ) (k : κ) (p : σ) : Option (SessionLocks κ σ) :=
  match l k with
  | none => some (Function.update l k (some (p, 0)))
  | some (q, n) => if q = p then some (Function.update l k (some (p, n + 1))) else none

/-- The session gives the lock back once. It still holds a lock that it took more often than that,
and a lock of another session is left alone. -/
def release (l : SessionLocks κ σ) (k : κ) (p : σ) : SessionLocks κ σ :=
  match l k with
  | none => l
  | some (q, n) =>
    if q = p then Function.update l k (if n = 0 then none else some (p, n - 1)) else l

/-- The session ends, and all of its locks are free, however often it took them. -/
def endSession (l : SessionLocks κ σ) (p : σ) : SessionLocks κ σ := fun k =>
  (l k).filter fun h => decide (h.1 ≠ p)

/-- Only what nobody else holds can be taken: afterwards it is the session's. -/
theorem holds_of_acquire (h : l.acquire k p = some l') : l'.Holds k p := by
  simp only [acquire] at h
  split at h
  · obtain rfl := Option.some.inj h
    exact ⟨0, Function.update_self ..⟩
  · split at h
    · obtain rfl := Option.some.inj h
      exact ⟨_, Function.update_self ..⟩
    · cases h

omit [DecidableEq κ] [DecidableEq σ] in
/-- Whoever holds a lock nobody holds is nobody. -/
theorem not_holds_of_none (h : l k = none) : ¬ l.Holds k p := by
  rintro ⟨n, hn⟩
  cases h.symm.trans hn

/-- Nobody loses a lock because another session takes one: the key that is taken was free, or its
own already. -/
theorem Holds.acquire (h : l.acquire k p = some l') (hq : l.Holds k' q) : l'.Holds k' q := by
  by_cases hk : k' = k
  · subst hk
    have hpq : q = p := by
      simp only [SessionLocks.acquire] at h
      split at h
      · next hnone => exact absurd hq (not_holds_of_none hnone)
      · next q' n hsome =>
        split at h
        · next hp => exact hq.eq ⟨n, hp ▸ hsome⟩
        · cases h
    exact hpq ▸ holds_of_acquire h
  · obtain ⟨n, hn⟩ := hq
    refine ⟨n, ?_⟩
    simp only [SessionLocks.acquire] at h
    split at h
    · obtain rfl := Option.some.inj h
      rw [Function.update_of_ne hk, hn]
    · split at h
      · obtain rfl := Option.some.inj h
        rw [Function.update_of_ne hk, hn]
      · cases h

/-- Nobody loses a lock because another session releases one. -/
theorem Holds.release_of_ne (hq : l.Holds k' q) (hpq : q ≠ p) : (l.release k p).Holds k' q := by
  obtain ⟨n, hn⟩ := hq
  refine ⟨n, ?_⟩
  simp only [release]
  cases hlk : l k with
  | none => exact hn
  | some h =>
    simp only
    split
    · next hq' =>
      have hk : k' ≠ k := by
        rintro rfl
        exact hpq ((congrArg Prod.fst (Option.some.inj (hn.symm.trans hlk))).trans hq')
      rw [Function.update_of_ne hk, hn]
    · exact hn

omit [DecidableEq κ] in
/-- Nobody loses a lock because another session ends. -/
theorem Holds.endSession_of_ne (hq : l.Holds k q) (hpq : q ≠ p) : (l.endSession p).Holds k q := by
  obtain ⟨n, hn⟩ := hq
  refine ⟨n, ?_⟩
  rw [endSession, hn, Option.filter_some, if_pos (decide_eq_true hpq)]

end Steps

end SessionLocks
