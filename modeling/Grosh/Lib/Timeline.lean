import Mathlib.Data.Finset.Max

/-!
# Timelines

A timeline gives a value to finitely many instants; the value of an instant is in force until
the next one. Cut into periods it is what a slowly changing dimension stores: rows
`[start, stop)`, where `stop` is the next instant at which the value changes, or open.

* `Timeline.set` — give an instant a value;
* `Timeline.next` — the next instant after a given one;
* `Timeline.IsPeriod` — the periods of a timeline.

The rules say what `set` does to the periods: a new instant splits the period that covers it
(`isPeriod_set_of_covers`), or comes before all others (`isPeriod_set_of_first`); an old one
replaces its own (`isPeriod_set_of_mem`). There is at most one covering period
(`covers_unique`), and there is one as soon as some instant is earlier (`exists_covers`). The
period in force starts at the last instant with a value (`IsPeriod.inForce_iff`).
-/

universe u v

/-- Finitely many instants and their values. The domain is carried along, so that the next instant
can be looked for. -/
structure Timeline (τ : Type u) (β : Type v) where
  /-- the instants that have a value -/
  dom : Finset τ
  value : τ → Option β
  mem_dom : ∀ t, t ∈ dom ↔ (value t).isSome

/-- A half-open period; `none` is an open end. It has one value throughout. -/
structure Period (τ : Type u) (β : Type v) where
  start : τ
  stop : Option τ
  value : β

namespace Timeline

variable {τ : Type u} {β : Type v}

@[ext] theorem ext {T T' : Timeline τ β} (h : ∀ t, T.value t = T'.value t) : T = T' := by
  obtain ⟨dom, value, hdom⟩ := T
  obtain ⟨dom', value', hdom'⟩ := T'
  obtain rfl : value = value' := funext h
  obtain rfl : dom = dom' := Finset.ext fun t => (hdom t).trans (hdom' t).symm
  rfl

theorem mem_dom_of_value {T : Timeline τ β} {t : τ} {v : β} (h : T.value t = some v) :
    t ∈ T.dom :=
  (T.mem_dom t).mpr (h ▸ rfl)

/-- No instant has a value. -/
def empty : Timeline τ β := ⟨∅, fun _ => none, fun _ => by simp⟩

section Set

variable [DecidableEq τ]

/-- Give the instant `t` the value `v`, whether it had one or not. -/
def set (T : Timeline τ β) (t : τ) (v : β) : Timeline τ β where
  dom := insert t T.dom
  value := Function.update T.value t (some v)
  mem_dom := fun t' => by
    rcases eq_or_ne t' t with rfl | h
    · simp
    · rw [Finset.mem_insert, Function.update_of_ne h, T.mem_dom]
      exact or_iff_right h

@[simp] theorem set_dom (T : Timeline τ β) (t : τ) (v : β) : (T.set t v).dom = insert t T.dom := rfl

@[simp] theorem set_value_self (T : Timeline τ β) (t : τ) (v : β) :
    (T.set t v).value t = some v := by simp [set]

@[simp] theorem set_value_of_ne (T : Timeline τ β) {t t' : τ} (v : β) (h : t' ≠ t) :
    (T.set t v).value t' = T.value t' := by simp [set, h]

/-- An instant that has the value already: nothing changes. -/
theorem set_eq_self {T : Timeline τ β} {t : τ} {v : β} (h : T.value t = some v) :
    T.set t v = T := by
  ext1 t'
  rcases eq_or_ne t' t with rfl | hne
  · rw [set_value_self, h]
  · rw [set_value_of_ne T v hne]

end Set

/-! ## The next instant

Where a period ends is not stored. It is the next instant with a value, which any new instant in
between becomes. -/

variable [LinearOrder τ] {T : Timeline τ β} {p q : Period τ β} {s t u : τ} {v : β}

/-- The next instant after `t` that has a value, if there is one. -/
def next (T : Timeline τ β) (t : τ) : Option τ := (T.dom.filter (t < ·)).min

theorem next_eq_some :
    T.next t = some u ↔ u ∈ T.dom ∧ t < u ∧ ∀ u' ∈ T.dom, t < u' → u ≤ u' := by
  refine ⟨?_, ?_⟩
  · intro h
    obtain ⟨hu, htu⟩ := Finset.mem_filter.mp (Finset.mem_of_min h)
    exact ⟨hu, htu, fun u' hu' htu' => Finset.min_le_of_eq (Finset.mem_filter.mpr ⟨hu', htu'⟩) h⟩
  · rintro ⟨hu, htu, hmin⟩
    obtain ⟨m, hm⟩ := Finset.min_of_mem (Finset.mem_filter.mpr ⟨hu, htu⟩)
    obtain ⟨hmd, htm⟩ := Finset.mem_filter.mp (Finset.mem_of_min hm)
    have hmu : m ≤ u := Finset.min_le_of_eq (Finset.mem_filter.mpr ⟨hu, htu⟩) hm
    obtain rfl := le_antisymm hmu (hmin m hmd htm)
    exact hm

theorem next_eq_none : T.next t = none ↔ ∀ u ∈ T.dom, u ≤ t := by
  apply (Finset.min_eq_top).trans
  rw [Finset.filter_eq_empty_iff]
  exact forall₂_congr fun u _ => not_lt

/-- Two instants with the same later ones have the same next one. -/
theorem next_congr {T' : Timeline τ β} (h : ∀ u, (u ∈ T.dom ∧ s < u) ↔ (u ∈ T'.dom ∧ t < u)) :
    T.next s = T'.next t := by
  have hfilter : T.dom.filter (s < ·) = T'.dom.filter (t < ·) := by
    ext u
    rw [Finset.mem_filter, Finset.mem_filter]
    exact h u
  rw [next, next, hfilter]

/-! ## Periods

A timeline falls into periods, one for each instant with a value. They do not overlap, and after the
first instant they leave no gap. -/

/-- The periods of a timeline: each starts at an instant with a value and lasts until the next. -/
def IsPeriod (T : Timeline τ β) (p : Period τ β) : Prop :=
  T.value p.start = some p.value ∧ p.stop = T.next p.start

theorem IsPeriod.start_mem (hp : T.IsPeriod p) : p.start ∈ T.dom := mem_dom_of_value hp.1

/-- Every instant with a value starts a period. -/
theorem exists_isPeriod (h : t ∈ T.dom) : ∃ p, T.IsPeriod p ∧ p.start = t := by
  obtain ⟨v, hv⟩ := Option.isSome_iff_exists.mp ((T.mem_dom t).mp h)
  exact ⟨⟨t, T.next t, v⟩, ⟨hv, rfl⟩, rfl⟩

/-- The start determines the period, with its end and its value. -/
theorem IsPeriod.eq_of_start (hp : T.IsPeriod p) (hq : T.IsPeriod q) (h : p.start = q.start) :
    p = q := by
  obtain ⟨a, o, v⟩ := p
  obtain ⟨b, o', w⟩ := q
  obtain rfl : a = b := h
  obtain rfl : v = w := Option.some.inj (hp.1.symm.trans hq.1)
  obtain rfl : o = o' := hp.2.trans hq.2.symm
  rfl

/-- The period is in force at `t`: from its start on, and before its end. -/
def InForce (p : Period τ β) (t : τ) : Prop := p.start ≤ t ∧ ∀ u, p.stop = some u → t < u

/-- `t` is inside the period and not its start: a new instant there would split it. -/
def Covers (p : Period τ β) (t : τ) : Prop := p.start < t ∧ ∀ u, p.stop = some u → t < u

theorem Covers.inForce (h : Covers p t) : InForce p t := ⟨le_of_lt h.1, h.2⟩

/-- A period ends at or before every later instant with a value, and so it does end where there is
one. -/
theorem IsPeriod.stop_le (hp : T.IsPeriod p) (hu : u ∈ T.dom) (h : p.start < u) :
    ∃ e, p.stop = some e ∧ e ≤ u := by
  rcases hn : T.next p.start with _ | e
  · exact absurd h (not_lt.mpr (next_eq_none.mp hn u hu))
  · exact ⟨e, hp.2.trans hn, (next_eq_some.mp hn).2.2 u hu h⟩

/-- An instant inside a period has no value. -/
theorem Covers.not_mem (h : Covers p t) (hp : T.IsPeriod p) : t ∉ T.dom := by
  intro ht
  obtain ⟨e, he, hle⟩ := hp.stop_le ht h.1
  exact absurd (h.2 e he) (not_lt.mpr hle)

/-- **At most one period is in force at an instant.** -/
theorem inForce_unique (hp : T.IsPeriod p) (hq : T.IsPeriod q) (hpt : InForce p t)
    (hqt : InForce q t) : p = q := by
  have hno : ∀ {p q : Period τ β}, T.IsPeriod p → T.IsPeriod q → InForce p t → InForce q t →
      ¬ p.start < q.start := by
    intro p q hp hq hpt hqt hlt
    obtain ⟨e, he, hle⟩ := hp.stop_le hq.start_mem hlt
    exact absurd (hpt.2 e he) (not_lt.mpr (hle.trans hqt.1))
  exact hp.eq_of_start hq (le_antisymm (not_lt.mp (hno hq hp hqt hpt))
    (not_lt.mp (hno hp hq hpt hqt)))

/-- The period in force starts at the last instant with a value, and no other does. -/
theorem IsPeriod.inForce_iff (hp : T.IsPeriod p) :
    InForce p t ↔ IsGreatest {u | u ∈ T.dom ∧ u ≤ t} p.start := by
  refine ⟨fun h => ⟨⟨hp.start_mem, h.1⟩, fun u ⟨hu, hut⟩ => ?_⟩, fun h => ⟨h.1.2, fun u hu => ?_⟩⟩
  · by_contra hlt
    obtain ⟨e, he, hle⟩ := hp.stop_le hu (not_le.mp hlt)
    exact absurd (h.2 e he) (not_lt.mpr (hle.trans hut))
  · obtain ⟨hud, hlt, -⟩ := next_eq_some.mp (hp.2.symm.trans hu)
    by_contra hut
    exact absurd hlt (not_lt.mpr (h.2 ⟨hud, not_lt.mp hut⟩))

theorem covers_unique (hp : T.IsPeriod p) (hq : T.IsPeriod q) (hpt : Covers p t)
    (hqt : Covers q t) : p = q :=
  inForce_unique hp hq hpt.inForce hqt.inForce

/-- After some instant, an instant without a value is inside a period. -/
theorem exists_covers (hs : s ∈ T.dom) (hst : s < t) (ht : t ∉ T.dom) :
    ∃ p, T.IsPeriod p ∧ Covers p t := by
  obtain ⟨m, hm⟩ := Finset.max_of_mem (Finset.mem_filter.mpr ⟨hs, hst⟩ : s ∈ T.dom.filter (· < t))
  obtain ⟨hmd, hmt⟩ := Finset.mem_filter.mp (Finset.mem_of_max hm)
  obtain ⟨p, hp, rfl⟩ := exists_isPeriod hmd
  refine ⟨p, hp, hmt, fun u hu => ?_⟩
  obtain ⟨hud, hmu, -⟩ := next_eq_some.mp (hp.2.symm.trans hu)
  -- an end before `t` would be a later instant than the last one before `t`
  by_contra hut
  have hlt : u < t := lt_of_le_of_ne (not_lt.mp hut) fun h => ht (h ▸ hud)
  exact absurd hmu (not_lt.mpr (Finset.le_max_of_eq (Finset.mem_filter.mpr ⟨hud, hlt⟩) hm))

/-! ## What `set` does to the periods

Three cases, by where the instant lies: at the start of a period, inside one, or before all of them.
Every other period is left as it is. -/

theorem next_set_of_le (h : t ≤ s) : (T.set t v).next s = T.next s := by
  refine next_congr fun u => and_congr_left fun hsu => ?_
  rw [set_dom, Finset.mem_insert]
  exact or_iff_right (ne_of_gt (lt_of_le_of_lt h hsu))

/-- A new instant leaves a period that does not cover it as it is. -/
theorem next_set_of_not_covers (hp : T.IsPeriod p) (h : ¬ Covers p t) :
    (T.set t v).next p.start = T.next p.start := by
  rcases le_or_gt t p.start with hle | hlt
  · exact next_set_of_le hle
  -- the period has ended at `t`
  have hstop : ∃ e, T.next p.start = some e ∧ e ≤ t := by
    by_contra hno
    refine h ⟨hlt, fun u hu => ?_⟩
    by_contra hut
    exact hno ⟨u, hp.2.symm.trans hu, not_lt.mp hut⟩
  obtain ⟨e, he, het⟩ := hstop
  obtain ⟨hed, hpe, hmin⟩ := next_eq_some.mp he
  rw [he]
  refine next_eq_some.mpr ⟨Finset.mem_insert_of_mem hed, hpe, fun u hu hpu => ?_⟩
  rcases Finset.mem_insert.mp hu with rfl | hu
  · exact het
  · exact hmin u hu hpu

/-- **A value for an old instant** replaces that of its period, and moves no end. -/
theorem isPeriod_set_of_mem (ht : t ∈ T.dom) :
    (T.set t v).IsPeriod p ↔ p = ⟨t, T.next t, v⟩ ∨ (T.IsPeriod p ∧ p.start ≠ t) := by
  have hnext : ∀ s, (T.set t v).next s = T.next s := by
    intro s
    apply next_congr
    intro u
    rw [set_dom, Finset.insert_eq_of_mem ht]
  obtain ⟨a, o, w⟩ := p
  rcases eq_or_ne a t with rfl | hne
  · simp only [IsPeriod, set_value_self, hnext, Option.some.injEq, Period.mk.injEq, true_and,
      ne_eq, not_true_eq_false, and_false, or_false]
    exact ⟨fun h => ⟨h.2, h.1.symm⟩, fun h => ⟨h.2.symm, h.1⟩⟩
  · simp [IsPeriod, hnext, hne]

/-- **A new instant inside a period** splits it: the first part keeps the value, the second has the
new one. -/
theorem isPeriod_set_of_covers (hq : T.IsPeriod q) (hcov : Covers q t) :
    (T.set t v).IsPeriod p ↔
      p = ⟨q.start, some t, q.value⟩ ∨ p = ⟨t, q.stop, v⟩ ∨
        (T.IsPeriod p ∧ p.start ≠ q.start) := by
  have ht : t ∉ T.dom := hcov.not_mem hq
  -- the covering period is cut at `t`: what follows its start is `t`, what follows `t` its end
  have hqn : (T.set t v).next q.start = some t := by
    refine next_eq_some.mpr ⟨Finset.mem_insert_self .., hcov.1, fun u hu hqu => ?_⟩
    rcases Finset.mem_insert.mp hu with rfl | hu
    · exact le_rfl
    · obtain ⟨e, he, hle⟩ := hq.stop_le hu hqu
      exact le_of_lt (lt_of_lt_of_le (hcov.2 e he) hle)
  have htn : (T.set t v).next t = q.stop := by
    rw [next_set_of_le le_rfl, hq.2]
    refine next_congr fun u => and_congr_right fun hu => ?_
    refine ⟨fun htu => lt_trans hcov.1 htu, fun hqu => ?_⟩
    obtain ⟨e, he, hle⟩ := hq.stop_le hu hqu
    exact lt_of_lt_of_le (hcov.2 e he) hle
  refine ⟨?_, ?_⟩
  · rintro ⟨hv, hn⟩
    obtain ⟨a, o, w⟩ := p
    rcases eq_or_ne a t with rfl | hat
    · obtain rfl := Option.some.inj ((set_value_self T a v).symm.trans hv)
      obtain rfl : o = q.stop := hn.trans htn
      exact Or.inr (Or.inl rfl)
    rw [set_value_of_ne T v hat] at hv
    rcases eq_or_ne a q.start with rfl | haq
    · obtain rfl := Option.some.inj (hq.1.symm.trans hv)
      obtain rfl : o = some t := hn.trans hqn
      exact Or.inl rfl
    · have hp : T.IsPeriod ⟨a, T.next a, w⟩ := ⟨hv, rfl⟩
      have hnc : ¬ Covers ⟨a, T.next a, w⟩ t := fun hc =>
        haq (congrArg Period.start (covers_unique hp hq hc hcov))
      have hnext : (T.set t v).next a = T.next a := next_set_of_not_covers hp hnc
      exact Or.inr (Or.inr ⟨⟨hv, hn.trans hnext⟩, haq⟩)
  · rintro (rfl | rfl | ⟨hp, hne⟩)
    · refine ⟨?_, hqn.symm⟩
      rw [set_value_of_ne T v (ne_of_lt hcov.1)]
      exact hq.1
    · exact ⟨set_value_self T t v, htn.symm⟩
    · have hnc : ¬ Covers p t := fun hc =>
        hne (congrArg Period.start (covers_unique hp hq hc hcov))
      have hpt : p.start ≠ t := fun h => ht (h ▸ hp.start_mem)
      refine ⟨?_, hp.2.trans (next_set_of_not_covers hp hnc).symm⟩
      rw [set_value_of_ne T v hpt]
      exact hp.1

/-- **A new instant before all others** starts a period of its own, which lasts until the first of
them. -/
theorem isPeriod_set_of_first (h : ∀ u ∈ T.dom, t < u) :
    (T.set t v).IsPeriod p ↔ p = ⟨t, T.next t, v⟩ ∨ T.IsPeriod p := by
  have hnext : ∀ s, t ≤ s → (T.set t v).next s = T.next s := fun s hs => next_set_of_le hs
  have ht : ∀ p : Period τ β, T.IsPeriod p → t < p.start := fun p hp => h _ hp.start_mem
  refine ⟨?_, ?_⟩
  · rintro ⟨hv, hn⟩
    obtain ⟨a, o, w⟩ := p
    rcases eq_or_ne a t with rfl | hat
    · obtain rfl := Option.some.inj ((set_value_self T a v).symm.trans hv)
      obtain rfl : o = T.next a := hn.trans (hnext a le_rfl)
      exact Or.inl rfl
    · rw [set_value_of_ne T v hat] at hv
      have hta : t < a := h a (mem_dom_of_value hv)
      exact Or.inr ⟨hv, hn.trans (hnext a (le_of_lt hta))⟩
  · rintro (rfl | hp)
    · exact ⟨set_value_self T t v, (hnext t le_rfl).symm⟩
    · refine ⟨?_, hp.2.trans (hnext _ (le_of_lt (ht p hp))).symm⟩
      rw [set_value_of_ne T v (ne_of_gt (ht p hp))]
      exact hp.1

end Timeline
