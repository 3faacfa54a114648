import Mathlib
import ZeroSearch.OpenMethod
import ZeroSearch.Proofs.Binary64.Arithmetic
import ZeroSearch.Proofs.Course

/-!
# The recurrence of an open method

An open method goes along the points `x (n + 1) = x n - numerator / denominator` and ends at the
first of them where something happens (`Iterates.event`), or at its cap. What it evaluates on the
way is fixed by the points as well (`Iterates.evaluated`). Newton and Halley do so with their own
quotients (`open_methods_follow_recurrence`).

The points may be any sequence that obeys the recurrence where the denominator is a normal number.
Elsewhere it goes on as it likes, so no quotient by another denominator has a part in a run.
-/

namespace ZeroSearch

open Binary64

/-! ## Normal numbers -/

/-- A finite number that is neither zero nor subnormal. -/
structure IsNormal (y : Float) : Prop where
  finite : y.isFinite = true
  le_abs : 2 ^ (-1022 : Int) ≤ |toRat y|

instance (y : Float) : Decidable (IsNormal y) :=
  decidable_of_iff (y.isFinite = true ∧ (2 : ℚ) ^ (-1022 : Int) ≤ |toRat y|)
    ⟨fun h => ⟨h.1, h.2⟩, fun h => ⟨h.1, h.2⟩⟩

theorem toRat_leastNormal : toRat Correction.leastNormal = 2 ^ (-1022 : Int) := by
  have hordinal : ordinal Correction.leastNormal =
      (-1074 + 1074) * 0x10000000000000 + (0x10000000000000 : Nat) := by
    decide +kernel
  have hpower : ((0x10000000000000 : Nat) : ℚ) = 2 ^ (52 : Int) := by norm_num
  rw [toRat, hordinal, level_eq (by norm_num) (by norm_num) fun _ => le_rfl, hpower,
    ← zpow_add₀ (by norm_num)]
  rfl

theorem isUnstable_eq_false {c : Correction} : c.isUnstable = false ↔ IsNormal c.denominator := by
  have hle (hfin : c.denominator.isFinite = true) :
      ¬ c.denominator.abs < Correction.leastNormal ↔ 2 ^ (-1022 : Int) ≤ |toRat c.denominator| := by
    have hleast : Correction.leastNormal.isNaN = false := by decide +kernel
    have hnan := not_isNaN_of_isFinite ((isFinite_abs c.denominator).trans hfin)
    rw [← toRat_abs, ← toRat_leastNormal, lt_iff_ordinal hnan hleast, toRat, toRat, level_le_level,
      not_lt]
  rw [Correction.isUnstable, Bool.or_eq_false_iff, Bool.not_eq_false', decide_eq_false_iff_not]
  exact ⟨fun h => ⟨h.1, (hle h.1).1 h.2⟩, fun h => ⟨h.finite, (hle h.finite).2 h.le_abs⟩⟩

/-! ## Iterates -/

/-- A sequence of points, the denominators of the steps between them and the evaluations that the
steps take besides the values at the points. -/
structure Iterates where
  point : Nat → Float
  denominator : Nat → Float
  derivatives : Nat → List Query

namespace Iterates

variable {w : Iterates} {d : OpenMethod} {f : Float → Float} {p : Policy} {cap : UInt64} {n : Nat}

/-- What ends a run at point number `n`, if it has come there. The step to a point fails for its
denominator before there is a point. -/
def event (w : Iterates) (f : Float → Float) (p : Policy) : Nat → Option Outcome
  | 0 =>
    let x := w.point 0
    if !x.isFinite || !(f x).isFinite then some (.failed (.nonFinite 0 x))
    else if f x == 0 then some (.found ⟨x, 0, 0⟩)
    else none
  | n + 1 =>
    let x := w.point (n + 1)
    let i := UInt64.ofNat (n + 1)
    if ¬ IsNormal (w.denominator n) then
      some (.failed (.derivativeTooSmall (.ofNat n) (w.point n)))
    else if !x.isFinite || !(f x).isFinite then some (.failed (.nonFinite i x))
    else if f x == 0 then some (.found ⟨x, i, 0⟩)
    else if p.accepts ⟨w.point n, x, f x, i⟩ then some (.found ⟨x, i, (f x).abs⟩)
    else none

/-- The evaluations that bring a run to point number `n`, with the value there. -/
def evaluated (w : Iterates) : Nat → List Query
  | 0 => if (w.point 0).isFinite then [.value (w.point 0)] else []
  | n + 1 => w.derivatives n ++
      if IsNormal (w.denominator n) ∧ (w.point (n + 1)).isFinite then [.value (w.point (n + 1))]
      else []

def sample (w : Iterates) (f : Float → Float) (n : Nat) : Sample := ⟨w.point n, f (w.point n)⟩

/-- The points come from one another as the method says. -/
structure Of (w : Iterates) (d : OpenMethod) (f : Float → Float) : Prop where
  denominator : ∀ n, w.denominator n = (d.correction (w.sample f n)).denominator
  derivatives : ∀ n, w.derivatives n = d.queries (w.point n)
  step : ∀ n, IsNormal (w.denominator n) →
    w.point (n + 1) = w.point n - (d.correction (w.sample f n)).quotient

end Iterates

def newtonStep (f d1 : Float → Float) (x : Float) : Float := x - f x / d1 x

def halleyDenominator (f d1 d2 : Float → Float) (x : Float) : Float :=
  2 * d1 x * d1 x - f x * d2 x

def halleyStep (f d1 d2 : Float → Float) (x : Float) : Float :=
  x - 2 * f x * d1 x / halleyDenominator f d1 d2 x

/-- The run ends with the first event along `w`, or at its cap, and evaluates what it takes to come
there, in order. -/
structure Run.EndsAlong (run : Run Sample) (w : Iterates) (f : Float → Float) (p : Policy)
    (cap : UInt64) : Prop where
  ended : ∀ n ≤ cap.toNat, (∀ k < n, w.event f p k = none) → ∀ o, w.event f p n = some o →
    run.outcome = o ∧ run.queries = (List.range (n + 1)).flatMap w.evaluated
  capped : (∀ n ≤ cap.toNat, w.event f p n = none) →
    run.outcome = .failed (.iterationsExceeded cap (w.point cap.toNat)) ∧
      run.queries = (List.range (cap.toNat + 1)).flatMap w.evaluated

namespace Iterates

variable {w : Iterates} {d : OpenMethod} {f : Float → Float} {p : Policy} {cap : UInt64} {n : Nat}

/-! ## Rounds -/

/-- What follows the round that comes to point number `n`. -/
def next (w : Iterates) (f : Float → Float) (p : Policy) (n : Nat) : Iteration.Next Sample :=
  match w.event f p n with
  | some o => .stop o
  | none => .go (w.sample f n)

theorem Of.propose (h : w.Of d f) (n : Nat) :
    d.iteration.propose (.ofNat (n + 1)) (w.sample f n) =
      if ¬ IsNormal (w.denominator n) then .error (.derivativeTooSmall (.ofNat n) (w.point n))
      else if (w.point (n + 1)).isFinite then .ok (w.point (n + 1))
      else .error (.nonFinite (.ofNat (n + 1)) (w.point (n + 1))) := by
  have hpred : UInt64.ofNat (n + 1) - 1 = .ofNat n := by
    rw [UInt64.ofNat_add]
    exact UInt64.add_sub_cancel _ _
  show (if (d.correction (w.sample f n)).isUnstable = true then
    Except.error (Fault.derivativeTooSmall (.ofNat (n + 1) - 1) (w.point n)) else _) = _
  have hiff : (d.correction (w.sample f n)).isUnstable = true ↔ ¬ IsNormal (w.denominator n) := by
    rw [h.denominator, ← isUnstable_eq_false, Bool.not_eq_false]
  rw [if_congr hiff (congrArg _ (congrArg₂ _ hpred rfl)) rfl]
  refine ite_congr rfl (fun _ => rfl) fun hnormal => ?_
  rw [h.step n (not_not.1 hnormal)]
  rfl

theorem Of.propose_ok (h : w.Of d f) {x : Float}
    (hx : d.iteration.propose (.ofNat (n + 1)) (w.sample f n) = .ok x) :
    IsNormal (w.denominator n) ∧ (w.point (n + 1)).isFinite = true ∧ x = w.point (n + 1) := by
  rw [h.propose] at hx
  split at hx
  · cases hx
  split at hx
  · cases hx
    exact ⟨not_not.1 ‹_›, ‹_›, rfl⟩
  · cases hx

/-- A round goes as the next point and its value say. -/
theorem Of.step_eq (h : w.Of d f) {r : Round Sample} {next : Iteration.Next Sample}
    (hstep : d.iteration.Step f p (.ofNat (n + 1)) (w.sample f n) r next) :
    next = w.next f p (n + 1) ∧ r.queries = w.evaluated (n + 1) := by
  have hasked : d.iteration.queries (w.sample f n) = w.derivatives n := (h.derivatives n).symm
  cases hstep with
  | refused hx =>
    rw [h.propose] at hx
    split at hx
    · rename_i hnormal
      cases hx
      simp [Iterates.next, event, evaluated, hnormal, hasked]
    split at hx
    · cases hx
    · rename_i hnormal hfin
      cases hx
      simp [Iterates.next, event, evaluated, not_not.1 hnormal, hfin, hasked]
  | nonFinite hx hfin =>
    obtain ⟨hnormal, hpoint, rfl⟩ := h.propose_ok hx
    simp [Iterates.next, event, evaluated, hnormal, hpoint, hfin, hasked]
  | zero hx hfin hz =>
    obtain ⟨hnormal, hpoint, rfl⟩ := h.propose_ok hx
    simp [Iterates.next, event, evaluated, hnormal, hpoint, hfin, hz, hasked]
  | accepted hx hfin hz ha =>
    obtain ⟨hnormal, hpoint, rfl⟩ := h.propose_ok hx
    change p.accepts ⟨w.point n, _, _, _⟩ = true at ha
    simp [-UInt64.ofNat_add, Iterates.next, event, evaluated, hnormal, hpoint, hfin, hz, ha,
      hasked]
  | rejected hx hfin hz ha =>
    obtain ⟨hnormal, hpoint, rfl⟩ := h.propose_ok hx
    change p.accepts ⟨w.point n, _, _, _⟩ = false at ha
    simp [-UInt64.ofNat_add, Iterates.next, event, evaluated, hnormal, hpoint, hfin, hz, ha,
      hasked]
    rfl

theorem Of.round_eq (h : w.Of d f) (p : Policy) (n : Nat) :
    ∃ r, d.iteration.round f p (.ofNat (n + 1)) (w.sample f n) = (r, w.next f p (n + 1)) ∧
      r.queries = w.evaluated (n + 1) := by
  obtain ⟨hnext, hqueries⟩ := h.step_eq (d.iteration.round_step f p (.ofNat (n + 1)) (w.sample f n))
  exact ⟨_, Prod.ext rfl hnext, hqueries⟩

/-! ## Runs -/

theorem ofNat_le (hn : n ≤ cap.toNat) : UInt64.ofNat n ≤ cap := by
  rw [UInt64.le_iff_toNat_le, UInt64.toNat_ofNat_of_lt' (hn.trans_lt cap.toNat_lt)]
  exact hn

/-- The induction is on the number of rounds without an event, which all leave a budget for what
comes after. -/
theorem Of.loop_along (h : w.Of d f) (hn : n ≤ cap.toNat)
    (hnone : ∀ k < n, w.event f p (k + 1) = none) (budget : Nat) :
    ∃ past : List (Round Sample),
      past.flatMap Round.queries = (List.range n).flatMap (fun k => w.evaluated (k + 1)) ∧
      d.iteration.loop f p cap (budget + n) 1 (w.sample f 0) [] =
        (past ++ (d.iteration.loop f p cap budget (.ofNat (n + 1)) (w.sample f n) []).1,
          (d.iteration.loop f p cap budget (.ofNat (n + 1)) (w.sample f n) []).2) := by
  induction n generalizing budget with
  | zero => exact ⟨[], rfl, rfl⟩
  | succ n ih =>
    obtain ⟨past, hpast, hloop⟩ :=
      ih (by omega) (fun k hk => hnone k (by omega)) (budget + 1)
    obtain ⟨r, hround, hr⟩ := h.round_eq p n
    rw [next, hnone n (by omega)] at hround
    have hsucc : UInt64.ofNat (n + 1) + 1 = .ofNat (n + 1 + 1) := (UInt64.ofNat_add _ _).symm
    refine ⟨past ++ [r], ?_, ?_⟩
    · rw [List.range_succ, List.flatMap_append, List.flatMap_append, hpast, List.flatMap_singleton,
        List.flatMap_singleton, hr]
    · rw [show budget + (n + 1) = budget + 1 + n by omega, hloop,
        Iteration.loop_of_go (ofNat_le hn) hround, hsucc, List.append_assoc]
      rfl

theorem range_flatMap_evaluated (hstart : (w.point 0).isFinite = true) (n : Nat) :
    (List.range (n + 1)).flatMap w.evaluated =
      .value (w.point 0) :: (List.range n).flatMap (fun k => w.evaluated (k + 1)) := by
  rw [List.range_succ_eq_map, List.flatMap_cons, List.flatMap_map, evaluated, if_pos hstart]
  rfl

/-- A run up to point number `n`, and what comes after it. -/
theorem Of.run_along (h : w.Of d f) (hstart : (w.point 0).isFinite = true) (hn : n ≤ cap.toNat)
    (hnone : ∀ k < n, w.event f p (k + 1) = none) {rs : List (Round Sample)} {o : Outcome}
    (hrest : d.iteration.loop f p cap (cap.toNat - n + 1) (.ofNat (n + 1)) (w.sample f n) [] =
      (rs, o)) :
    (d.iteration.run f p cap [.value (w.point 0)] (w.sample f 0)).outcome = o ∧
      (d.iteration.run f p cap [.value (w.point 0)] (w.sample f 0)).queries =
        (List.range (n + 1)).flatMap w.evaluated ++ rs.flatMap Round.queries := by
  obtain ⟨past, hpast, hloop⟩ := h.loop_along hn hnone (cap.toNat - n + 1)
  rw [show cap.toNat - n + 1 + n = cap.toNat + 1 by omega, hrest] at hloop
  rw [range_flatMap_evaluated hstart, Iteration.run, Iteration.runWithin, hloop, ← hpast]
  refine ⟨rfl, ?_⟩
  rw [Run.queries, List.flatMap_append]
  rfl

theorem solve_of_event {o : Outcome} (ho : w.event f p 0 = some o) :
    d.solve f (w.point 0) cap p = ⟨w.evaluated 0, [], o⟩ := by
  unfold event at ho
  dsimp only at ho
  unfold OpenMethod.solve evaluated
  cases hstart : (w.point 0).isFinite with
  | false => simp_all
  | true =>
    cases hfin : (f (w.point 0)).isFinite with
    | false => simp_all
    | true =>
      cases hz : f (w.point 0) == 0 with
      | true => simp_all
      | false => simp_all

theorem solve_of_no_event (d : OpenMethod) (cap : UInt64) (hnone : w.event f p 0 = none) :
    (w.point 0).isFinite = true ∧ d.solve f (w.point 0) cap p =
      d.iteration.run f p cap [.value (w.point 0)] (w.sample f 0) := by
  unfold event at hnone
  dsimp only at hnone
  split at hnone
  · cases hnone
  split at hnone
  · cases hnone
  rename_i hfin hz
  rw [Bool.or_eq_true, not_or, Bool.not_eq_true, Bool.not_eq_true, Bool.not_eq_false',
    Bool.not_eq_false'] at hfin
  refine ⟨hfin.1, ?_⟩
  unfold OpenMethod.solve
  simp only [hfin.1, hfin.2, hz, Bool.not_true, Bool.false_eq_true, if_false]
  rfl

theorem Of.solve_endsAlong (h : w.Of d f) (p : Policy) (hcap : cap.toNat + 1 < 2 ^ 64) :
    (d.solve f (w.point 0) cap p).EndsAlong w f p cap where
  ended n hn hnone o ho := by
    cases n with
    | zero =>
      rw [solve_of_event ho]
      exact ⟨rfl, by simp [Run.queries]⟩
    | succ n =>
      obtain ⟨hstart, hsolve⟩ := solve_of_no_event d cap (hnone 0 (by omega))
      obtain ⟨r, hround, hr⟩ := h.round_eq p n
      rw [next, ho] at hround
      obtain ⟨houtcome, hqueries⟩ := h.run_along hstart (by omega)
        (fun k hk => hnone (k + 1) (by omega)) (Iteration.loop_of_stop (ofNat_le hn) hround _)
      rw [hsolve, hqueries, List.range_succ (n := n + 1), List.flatMap_append,
        List.flatMap_singleton, List.flatMap_singleton, hr]
      exact ⟨houtcome, rfl⟩
  capped hnone := by
    obtain ⟨hstart, hsolve⟩ := solve_of_no_event d cap (hnone 0 (by omega))
    have hpassed : ¬ UInt64.ofNat (cap.toNat + 1) ≤ cap := by
      rw [UInt64.le_iff_toNat_le, UInt64.toNat_ofNat_of_lt' hcap]
      omega
    obtain ⟨houtcome, hqueries⟩ := h.run_along hstart le_rfl
      (fun k hk => hnone (k + 1) (by omega)) (Iteration.loop_of_capped hpassed _)
    rw [hsolve, hqueries, houtcome, List.flatMap_nil, List.append_nil]
    exact ⟨rfl, rfl⟩

end Iterates

section
variable {f d1 d2 : Float → Float} {x : Nat → Float}

theorem newtonMethod_of (hstep : ∀ n, IsNormal (d1 (x n)) → x (n + 1) = newtonStep f d1 (x n)) :
    Iterates.Of ⟨x, fun n => d1 (x n), fun n => [.slope (x n)]⟩ (newtonMethod d1) f where
  denominator _ := rfl
  derivatives _ := rfl
  step := hstep

theorem halleyMethod_of (hstep : ∀ n, IsNormal (halleyDenominator f d1 d2 (x n)) →
      x (n + 1) = halleyStep f d1 d2 (x n)) :
    Iterates.Of ⟨x, fun n => halleyDenominator f d1 d2 (x n),
      fun n => [.slope (x n), .curvature (x n)]⟩ (halleyMethod d1 d2) f where
  denominator _ := rfl
  derivatives _ := rfl
  step := hstep

end

/-- For every sequence that obeys the recurrence of Newton's or Halley's method where the
denominator is a normal number, the run from its first point ends with the first event along it, or
at its cap. -/
theorem open_methods_follow_recurrence (f : Float → Float) (x : Nat → Float) {cap : UInt64}
    (p : Policy) (hcap : cap.toNat + 1 < 2 ^ 64) :
    (∀ d1 : Float → Float,
      (∀ n, IsNormal (d1 (x n)) → x (n + 1) = newtonStep f d1 (x n)) →
      (newton f d1 (x 0) cap p).EndsAlong
        ⟨x, fun n => d1 (x n), fun n => [.slope (x n)]⟩ f p cap) ∧
    ∀ d1 d2 : Float → Float,
      (∀ n, IsNormal (halleyDenominator f d1 d2 (x n)) → x (n + 1) = halleyStep f d1 d2 (x n)) →
      (halley f d1 d2 (x 0) cap p).EndsAlong
        ⟨x, fun n => halleyDenominator f d1 d2 (x n), fun n => [.slope (x n), .curvature (x n)]⟩
        f p cap := by
  constructor
  · intro d1 hstep
    exact (newtonMethod_of hstep).solve_endsAlong p hcap
  · intro d1 d2 hstep
    exact (halleyMethod_of hstep).solve_endsAlong p hcap

/-- Newton's method on `y * y + 1` from 1 comes to 0, where the derivative is of no use. Halley's on
`y * y - 1.25` is stopped by its cap. -/
theorem open_methods_follow_recurrence_of_squares :
    (2 : UInt64).toNat + 1 < 2 ^ 64 ∧
    (∃ x : Nat → Float, x 0 = 1 ∧
      (∀ n, IsNormal (2 * x n) →
        x (n + 1) = newtonStep (fun y => y * y + 1) (fun y => 2 * y) (x n)) ∧
      (newton (fun y => y * y + 1) (fun y => 2 * y) (x 0) 2 (.step 0)).outcome =
        .failed (.derivativeTooSmall 1 0) ∧
      (newton (fun y => y * y + 1) (fun y => 2 * y) (x 0) 2 (.step 0)).queries =
        [.value 1, .slope 1, .value 0, .slope 0]) ∧
    ∃ x : Nat → Float, x 0 = 1 ∧
      (∀ n,
        IsNormal (halleyDenominator (fun y => y * y - 1.25) (fun y => 2 * y) (fun _ => 2) (x n)) →
        x (n + 1) = halleyStep (fun y => y * y - 1.25) (fun y => 2 * y) (fun _ => 2) (x n)) ∧
      (halley (fun y => y * y - 1.25) (fun y => 2 * y) (fun _ => 2) (x 0) 2 (.step 0)).outcome =
        .failed (.iterationsExceeded 2 (x 2)) ∧
      (halley (fun y => y * y - 1.25) (fun y => 2 * y) (fun _ => 2) (x 0) 2 (.step 0)).queries =
        [.value 1, .slope 1, .curvature 1, .value (x 1), .slope (x 1), .curvature (x 1),
          .value (x 2)] := by
  have hcap : (2 : UInt64).toNat + 1 < 2 ^ 64 := by decide
  have hsteps (g : Float → Float) (n : Nat) : g^[n + 1] 1 = g (g^[n] 1) :=
    Function.iterate_succ_apply' g n 1
  refine ⟨hcap, ⟨fun n => (newtonStep (fun y => y * y + 1) fun y => 2 * y)^[n] 1, rfl,
    fun n _ => hsteps _ n, ?_⟩,
    fun n => (halleyStep (fun y => y * y - 1.25) (fun y => 2 * y) fun _ => 2)^[n] 1, rfl,
    fun n _ => hsteps _ n, ?_⟩
  · have hends := (open_methods_follow_recurrence (fun y => y * y + 1)
      (fun n => (newtonStep (fun y => y * y + 1) fun y => 2 * y)^[n] 1) (.step 0) hcap).1 _
      fun n _ => hsteps _ n
    obtain ⟨houtcome, hqueries⟩ :=
      hends.ended 2 le_rfl (by decide +kernel) (.failed (.derivativeTooSmall 1 0))
        (by decide +kernel)
    exact ⟨houtcome, hqueries.trans (by decide +kernel)⟩
  · have hends := (open_methods_follow_recurrence (fun y => y * y - 1.25)
      (fun n => (halleyStep (fun y => y * y - 1.25) (fun y => 2 * y) fun _ => 2)^[n] 1) (.step 0)
      hcap).2 _ _ fun n _ => hsteps _ n
    obtain ⟨houtcome, hqueries⟩ := hends.capped (by decide +kernel)
    exact ⟨houtcome, hqueries.trans (by decide +kernel)⟩

end ZeroSearch
