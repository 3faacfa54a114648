import Mathlib
import ZeroSearch.Proofs.Binary64.Comparison
import ZeroSearch.Proofs.Midpoint
import ZeroSearch.Proofs.Solving

/-!
# Containment

A bracketing method never leaves its bracket. Its rule chooses points of the enclosure
(`Rule.Inside`): the middle rounds to a point between the ends, also where the width overflows, and
a secant point is taken only if it lies between them. So every enclosure is part of the one before,
and everything that a run evaluates, compares or reports lies in the bracket.
-/

namespace ZeroSearch

open Binary64

/-! ## Intervals -/

namespace Interval

variable {i j k : Interval} {x : Float}

structure Ordered (i : Interval) : Prop where
  lo_finite : i.lo.isFinite = true
  hi_finite : i.hi.isFinite = true
  lo_le_hi : i.lo ≤ i.hi

/-- `i` is part of `j`. -/
structure Within (i j : Interval) : Prop where
  lo : j.lo ≤ i.lo
  hi : i.hi ≤ j.hi

theorem Ordered.contains_lo (h : i.Ordered) : i.contains i.lo = true :=
  contains_eq_true.2 ⟨Binary64.le_refl h.lo_finite, h.lo_le_hi⟩

theorem Ordered.contains_hi (h : i.Ordered) : i.contains i.hi = true :=
  contains_eq_true.2 ⟨h.lo_le_hi, Binary64.le_refl h.hi_finite⟩

theorem Ordered.isFinite (h : i.Ordered) (hx : i.contains x = true) : x.isFinite = true :=
  have ⟨hlo, hhi⟩ := contains_eq_true.1 hx
  isFinite_of_le_of_le h.lo_finite h.hi_finite hlo hhi

theorem Ordered.within_self (h : i.Ordered) : i.Within i :=
  ⟨Binary64.le_refl h.lo_finite, Binary64.le_refl h.hi_finite⟩

theorem Within.trans (hij : i.Within j) (hjk : j.Within k) : i.Within k :=
  ⟨Binary64.le_trans hjk.lo hij.lo, Binary64.le_trans hij.hi hjk.hi⟩

theorem Within.contains (h : i.Within j) (hx : i.contains x = true) : j.contains x = true := by
  obtain ⟨hlo, hhi⟩ := contains_eq_true.1 hx
  exact contains_eq_true.2 ⟨Binary64.le_trans h.lo hlo, Binary64.le_trans hhi h.hi⟩

theorem Ordered.contains_middle (h : i.Ordered) : i.contains i.middle = true :=
  contains_eq_true.2 ⟨le_midpoint h.lo_finite h.hi_finite h.lo_le_hi,
    midpoint_le h.lo_finite h.hi_finite h.lo_le_hi⟩

end Interval

theorem Bracket.ordered (b : Bracket) : b.Ordered := ⟨b.lo_finite, b.hi_finite, b.lo_le_hi⟩

/-- The ends are all that there is to a bracket. -/
theorem Bracket.eq_of_toInterval {b c : Bracket} (h : b.toInterval = c.toInterval) : b = c := by
  obtain ⟨i, hlo, hhi, hle⟩ := b
  obtain ⟨j, hlo', hhi', hle'⟩ := c
  obtain rfl : i = j := h
  rfl

theorem Enclosure.within_narrow {e : Enclosure} {x : Float} (he : e.Ordered)
    (hx : e.contains x = true) (y : Float) :
    (e.narrow x y).Ordered ∧ (e.narrow x y).Within e.toInterval := by
  have hfin := he.isFinite hx
  obtain ⟨hlo, hhi⟩ := Interval.contains_eq_true.1 hx
  cases hr : e.replaced y with
  | lower =>
    rw [narrow_lower hr]
    exact ⟨⟨hfin, he.hi_finite, hhi⟩, hlo, Binary64.le_refl he.hi_finite⟩
  | upper =>
    rw [narrow_upper hr]
    exact ⟨⟨he.lo_finite, hfin, hlo⟩, Binary64.le_refl he.lo_finite, hhi⟩

/-! ## Rules -/

/-- A rule that chooses points of the enclosure, whatever it remembers, and compares with the latest
point or an end. -/
structure Rule.Inside {μ : Type} (rule : Rule μ) : Prop where
  choose : ∀ (e : Enclosure) (m : μ), e.Ordered → e.contains (rule.choose e m) = true
  previous : ∀ (i : UInt64) (e : Enclosure) (latest x : Float),
    rule.previous i e latest x ∈ [latest, e.lo, e.hi]

theorem bisectionRule_inside : bisectionRule.Inside where
  choose _ _ he := he.contains_middle
  previous _ _ _ _ := List.mem_cons_self

theorem falsePositionRule_inside (damped : Bool) : (falsePositionRule damped).Inside where
  choose e d he := by
    show e.contains (e.secantInside d) = true
    unfold Enclosure.secantInside
    dsimp only
    split
    · rename_i h
      exact Interval.contains_eq_true.2 ⟨Binary64.le_of_lt h.2.1, Binary64.le_of_lt h.2.2⟩
    · exact he.contains_middle
  previous i e latest x := by
    show (if i = 1 then e.farEnd x else latest) ∈ [latest, e.lo, e.hi]
    unfold Enclosure.farEnd
    split
    · split <;> simp
    · exact List.mem_cons_self

theorem Method.rule_inside (method : Method) : method.rule.Inside := by
  cases method with
  | bisection => exact bisectionRule_inside
  | falsePosition => exact falsePositionRule_inside false
  | illinois => exact falsePositionRule_inside true

/-! ## Runs -/

/-- The abscissa that an outcome shows: a root, or the last value of a fault. -/
def Outcome.shown : Outcome → Option Float
  | found root => some root.x
  | failed fault => fault.report.lastValue
  | unfinished => none

/-- The point evaluated lies in the enclosure, and the enclosure is not widened. -/
structure Round.Nested (r : Round Enclosure) : Prop where
  iterate : ∀ q ∈ r.queries, ∃ x, q = .value x ∧ r.before.contains x = true
  narrowed : ∀ t ∈ r.after, t.Within r.before.toInterval

/-- Nothing in the run is outside `i`, and its enclosures are nested from `i` on. -/
structure Run.StaysIn (run : Run Enclosure) (i : Interval) : Prop where
  queries : ∀ q ∈ run.queries, ∃ x, q = .value x ∧ i.contains x = true
  observations : ∀ o ∈ run.observations, i.contains o.previous = true ∧ i.contains o.current = true
  outcome : ∀ x ∈ run.outcome.shown, i.contains x = true
  rounds : ∀ r ∈ run.rounds, r.Nested
  linked : ∃ e : Enclosure, e.toInterval = i ∧ run.Linked e

structure Pursuit.Confined {μ : Type} (s : Pursuit μ) (i : Interval) : Prop where
  ordered : s.enclosure.Ordered
  within : s.enclosure.Within i
  latest : i.contains s.latest = true

namespace Rule.Inside

variable {μ : Type} {rule : Rule μ} {f : Float → Float} {p : Policy} {k cap : UInt64}
  {s t : Pursuit μ} {r : Round (Pursuit μ)} {next : Iteration.Next (Pursuit μ)} {i : Interval}
  {o : Outcome} {b : Bracket} {e : Enclosure}

theorem confined_start (h : (Enclosure.ofBracket f b).result = .ok e) :
    (rule.start e).Confined b.toInterval := by
  obtain rfl := Enclosure.eq_of_ofBracket h
  exact ⟨b.ordered, b.ordered.within_self, b.ordered.contains_lo⟩

theorem contains_choose (hrule : rule.Inside) (hs : s.Confined i) :
    i.contains (rule.choose s.enclosure s.memory) = true :=
  hs.within.contains (hrule.choose s.enclosure s.memory hs.ordered)

theorem confined_of_go (hrule : rule.Inside) (hs : s.Confined i)
    (h : rule.iteration.Step f p k s r (.go t)) : t.Confined i := by
  obtain ⟨x, m, -, -, rfl, rfl⟩ := of_go h
  have hx := hrule.choose s.enclosure s.memory hs.ordered
  obtain ⟨hord, hwithin⟩ := Enclosure.within_narrow hs.ordered hx (f _)
  exact ⟨hord, hwithin.trans hs.within, hrule.contains_choose hs⟩

theorem nested_of_step (hrule : rule.Inside) (hs : s.Confined i)
    (h : rule.iteration.Step f p k s r next) : (r.map Pursuit.enclosure).Nested := by
  have hx := hrule.choose s.enclosure s.memory hs.ordered
  rw [Round.map, h.before_eq]
  obtain ⟨x, rfl, hq, hends⟩ := completed_of_step h
  constructor
  · intro q hmem
    rw [hq, List.mem_singleton] at hmem
    exact ⟨_, hmem, hx⟩
  · intro t ht
    obtain ⟨-, -, hafter⟩ | ⟨-, -, -, m, hafter⟩ := hends
    · rw [hafter] at ht
      cases ht
    · rw [hafter] at ht
      cases ht
      exact (Enclosure.within_narrow hs.ordered hx _).2

theorem queries_of_step (hrule : rule.Inside) (hs : s.Confined i)
    (h : rule.iteration.Step f p k s r next) :
    ∀ q ∈ r.queries, ∃ x, q = .value x ∧ i.contains x = true := by
  intro q hmem
  rw [Rule.queries_of_step h, List.mem_singleton] at hmem
  exact ⟨_, hmem, hrule.contains_choose hs⟩

theorem observation_of_step (hrule : rule.Inside) (hs : s.Confined i)
    (h : rule.iteration.Step f p k s r next) :
    ∀ o ∈ r.observation, i.contains o.previous = true ∧ i.contains o.current = true := by
  intro o ho
  obtain ⟨x, rfl, -, ⟨-, hobs, -⟩ | ⟨-, -, hobs, -⟩⟩ := completed_of_step h
  · rw [hobs] at ho
    cases ho
  · rw [hobs] at ho
    cases ho
    refine ⟨?_, hrule.contains_choose hs⟩
    have hmem := hrule.previous k s.enclosure s.latest (rule.choose s.enclosure s.memory)
    simp only [List.mem_cons, List.not_mem_nil, or_false] at hmem
    obtain hprev | hprev | hprev := hmem
    · rw [hprev]
      exact hs.latest
    · rw [hprev]
      exact hs.within.contains hs.ordered.contains_lo
    · rw [hprev]
      exact hs.within.contains hs.ordered.contains_hi

theorem outcome_of_step (hrule : rule.Inside) (hs : s.Confined i)
    (h : rule.iteration.Step f p k s r (.stop o)) : ∀ x ∈ o.shown, i.contains x = true := by
  have hin := hrule.contains_choose hs
  intro x hx
  cases h with
  | refused hp => cases hp
  | nonFinite hp => cases hp; cases hx; exact hin
  | zero hp => cases hp; cases hx; exact hin
  | accepted hp => cases hp; cases hx; exact hin

theorem opening_contains (b : Bracket) :
    ∀ q ∈ [Query.value b.lo, .value b.hi], ∃ x, q = .value x ∧ b.contains x = true := by
  intro q hq
  simp only [List.mem_cons, List.not_mem_nil, or_false] at hq
  obtain rfl | rfl := hq
  · exact ⟨_, rfl, b.ordered.contains_lo⟩
  · exact ⟨_, rfl, b.ordered.contains_hi⟩

/-- A run that ends with the opening of its bracket. -/
theorem opening_staysIn (b : Bracket) (ho : ∀ x ∈ o.shown, b.contains x = true) :
    (⟨[.value b.lo, .value b.hi], [], o⟩ : Run Enclosure).StaysIn b.toInterval where
  queries := by
    intro q hq
    rw [Run.queries, List.flatMap_nil, List.append_nil] at hq
    exact opening_contains b q hq
  observations := by
    intro q hq
    cases hq
  outcome := ho
  rounds := by
    intro r hr
    cases hr
  linked := ⟨⟨b.toInterval, 0, 0⟩, rfl, by simp, .nil⟩

theorem run_staysIn (hrule : rule.Inside) (h : (Enclosure.ofBracket f b).result = .ok e)
    (cap : UInt64)
    (p : Policy) :
    ((rule.iteration.run f p cap [.value b.lo, .value b.hi] (rule.start e)).map
      Pursuit.enclosure).StaysIn b.toInterval := by
  have hstart : (rule.start e).Confined b.toInterval := confined_start h
  have hrun := rule.iteration.run_course f p cap [.value b.lo, .value b.hi] (rule.start e)
  have hrounds := hrun.rounds (P := fun s => s.Confined b.toInterval) hrule.confined_of_go hstart
  constructor
  · intro q hq
    rw [Run.queries_map, Run.queries, List.mem_append, List.mem_flatMap] at hq
    obtain hq | ⟨r, hr, hq⟩ := hq
    · exact opening_contains b q hq
    · obtain ⟨i, s, next, hs, hstep⟩ := hrounds r hr
      exact hrule.queries_of_step hs hstep q hq
  · intro o ho
    rw [Run.observations_map, Run.observations, List.mem_filterMap] at ho
    obtain ⟨r, hr, ho⟩ := ho
    obtain ⟨i, s, next, hs, hstep⟩ := hrounds r hr
    exact hrule.observation_of_step hs hstep o ho
  · intro x hx
    rw [Run.outcome_map] at hx
    obtain hend | ⟨t, ht, hend⟩ | ⟨r, hr, i, s, hs, hstep⟩ :=
      hrun.ending (P := fun s => s.Confined b.toInterval) hrule.confined_of_go hstart
    · rw [hend] at hx
      cases hx
    · rw [hend] at hx
      cases hx
      exact ht.latest
    · exact hrule.outcome_of_step hs hstep x hx
  · intro r hr
    obtain ⟨q, hq, rfl⟩ := List.mem_map.1 hr
    obtain ⟨i, s, next, hs, hstep⟩ := hrounds q hq
    exact hrule.nested_of_step hs hstep
  · have hlinked := rule.iteration.run_linked f p cap [.value b.lo, .value b.hi] (rule.start e)
    refine ⟨e, ?_, hlinked.map Pursuit.enclosure⟩
    rw [Enclosure.eq_of_ofBracket h]

/-- No run of an inside rule leaves its bracket. -/
theorem staysIn (hrule : rule.Inside) (f : Float → Float) (b : Bracket) (cap : UInt64)
    (p : Policy) : ((rule.solve f b cap p).map Pursuit.enclosure).StaysIn b.toInterval := by
  cases h : (Enclosure.ofBracket f b).result with
  | error fault =>
    rw [solve_of_refused h]
    refine opening_staysIn b fun x hx => ?_
    obtain rfl | rfl | rfl := Enclosure.fault_of_ofBracket h
    · cases hx
      exact b.ordered.contains_lo
    · cases hx
      exact b.ordered.contains_hi
    · cases hx
  | ok e =>
    cases hroot : e.endpointRoot with
    | none =>
      rw [solve_of_opened h hroot]
      exact hrule.run_staysIn h cap p
    | some y =>
      rw [solve_of_endpointRoot h hroot]
      refine opening_staysIn b fun x hx => ?_
      cases hx
      obtain rfl := Enclosure.eq_of_ofBracket h
      obtain rfl | rfl := Enclosure.eq_of_endpointRoot hroot
      · exact b.ordered.contains_lo
      · exact b.ordered.contains_hi

/-- Functions that agree on the bracket give the same run. -/
theorem solve_congr (hrule : rule.Inside) {g : Float → Float}
    (hfg : ∀ x, b.contains x = true → f x = g x) :
    rule.solve f b cap p = rule.solve g b cap p := by
  have hopen : (Enclosure.ofBracket f b).result = (Enclosure.ofBracket g b).result := by
    rw [Enclosure.result_ofBracket, Enclosure.result_ofBracket,
      hfg b.lo b.ordered.contains_lo, hfg b.hi b.ordered.contains_hi]
  cases h : (Enclosure.ofBracket f b).result with
  | error fault => rw [solve_of_refused h, solve_of_refused (hopen ▸ h)]
  | ok e =>
    cases hroot : e.endpointRoot with
    | some x => rw [solve_of_endpointRoot h hroot, solve_of_endpointRoot (hopen ▸ h) hroot]
    | none =>
      rw [solve_of_opened h hroot, solve_of_opened (hopen ▸ h) hroot]
      refine Iteration.run_congr (P := fun s => s.Confined b.toInterval) hrule.confined_of_go
        (fun hs hp => ?_) (confined_start h) _
      cases hp
      exact hfg _ (hrule.contains_choose hs)

end Rule.Inside

theorem Method.solve_congr (method : Method) {f g : Float → Float} {b : Bracket}
    (hfg : ∀ x, b.contains x = true → f x = g x) (cap : UInt64) (p : Policy) :
    method.solve f b cap p = method.solve g b cap p := by
  rw [method.solve_eq, method.solve_eq, method.rule_inside.solve_congr hfg]

theorem Method.solve_staysIn (method : Method) (f : Float → Float) (b : Bracket) (cap : UInt64)
    (p : Policy) : (method.solve f b cap p).StaysIn b.toInterval := by
  rw [method.solve_eq]
  exact method.rule_inside.staysIn f b cap p

end ZeroSearch
