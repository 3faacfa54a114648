import Mathlib
import ZeroSearch.Proofs.Containment
import ZeroSearch.Proofs.Findings
import ZeroSearch.Survey

/-!
# Surveys

A survey stays in its bounds: its pass evaluates boundaries, its brackets have boundaries for ends,
and a solver stays in its bracket. So it depends on the function within the bounds only.
-/

namespace ZeroSearch

open Binary64

theorem Bounds.ordered (b : Bounds) : b.Ordered :=
  ⟨b.lo_finite, b.hi_finite, Binary64.le_of_lt b.lo_lt_hi⟩

namespace Grid

variable {g : Grid} {f h : Float → Float} {x : Float} {b : Bracket}

theorem contains_of_mem_points (hx : x ∈ g.points) : g.bounds.contains x = true :=
  Interval.contains_eq_true.2 (between_of_mem_points hx)

theorem contains_of_mem_visited (hx : x ∈ (g.scan f).visited) : g.bounds.contains x = true :=
  contains_of_mem_points (g.scan_visited f ▸ hx)

theorem within_of_mem_collect (hb : b ∈ g.collect f) : b.Within g.bounds.toInterval := by
  have hmem : b.toInterval ∈ findings f g.points :=
    g.collect_eq_findings f ▸ List.mem_map_of_mem hb
  obtain ⟨hlo, hhi, -⟩ := endsIn_of_mem_findings hmem
  exact ⟨(between_of_mem_points hlo).1, (between_of_mem_points hhi).2⟩

/-- A survey, leg by leg of its pass. -/
theorem survey_eq (g : Grid) (f : Float → Float) (settings : Settings) (method : Method) :
    g.survey f settings method =
      ⟨(g.scan f).found.map fun leg =>
          ⟨leg.2, (method.solve f leg.2 settings.maxIterations settings.policy).outcome⟩,
        (g.scan f).found.flatMap (fun leg => leg.1.map Query.value ++
            (method.solve f leg.2 settings.maxIterations settings.policy).queries) ++
          (g.scan f).tail.map Query.value⟩ := by
  unfold survey
  dsimp only
  rw [List.map_map, List.flatMap_map]
  rfl

theorem mem_collect_of_mem_found {leg : List Float × Bracket} (h : leg ∈ (g.scan f).found) :
    leg.2 ∈ g.collect f := List.mem_map_of_mem h

theorem survey_contains (g : Grid) (f : Float → Float) (settings : Settings) (method : Method) :
    ∀ q ∈ (g.survey f settings method).queries, ∃ x, q = .value x ∧ g.bounds.contains x = true := by
  intro q hq
  rw [survey_eq, List.mem_append, List.mem_flatMap] at hq
  obtain ⟨leg, hleg, hq⟩ | hq := hq
  · obtain hq | hq := List.mem_append.1 hq
    · obtain ⟨x, hx, rfl⟩ := List.mem_map.1 hq
      refine ⟨x, rfl, contains_of_mem_visited (f := f) ?_⟩
      exact List.mem_append_left _ (List.mem_flatMap.2 ⟨leg, hleg, hx⟩)
    · obtain ⟨x, rfl, hx⟩ := (method.solve_staysIn f leg.2 _ _).queries q hq
      exact ⟨x, rfl, (within_of_mem_collect (mem_collect_of_mem_found hleg)).contains hx⟩
  · obtain ⟨x, hx, rfl⟩ := List.mem_map.1 hq
    exact ⟨x, rfl, contains_of_mem_visited (f := f) (List.mem_append_right _ hx)⟩

theorem survey_congr (g : Grid) (hfh : ∀ x, g.bounds.contains x = true → f x = h x)
    (settings : Settings) (method : Method) :
    g.survey h settings method = g.survey f settings method := by
  have hscan : g.scan h = g.scan f := g.scan_congr fun x hx => hfh x (contains_of_mem_points hx)
  have hsolve : ∀ leg ∈ (g.scan f).found,
      method.solve h leg.2 settings.maxIterations settings.policy =
        method.solve f leg.2 settings.maxIterations settings.policy := fun leg hleg =>
    method.solve_congr (fun x hx =>
      (hfh x ((within_of_mem_collect (mem_collect_of_mem_found hleg)).contains hx)).symm) _ _
  rw [survey_eq, survey_eq, hscan]
  congr 1
  · exact List.map_congr_left fun leg hleg => by rw [hsolve leg hleg]
  · congr 1
    exact List.flatMap_congr fun leg hleg => by rw [hsolve leg hleg]

end Grid

section

variable {f h : Float → Float} {bounds : Bounds} {window : Float} {settings : Settings}
  {method : Method}

theorem Grid.ofSettings_eq (bounds : Bounds) (window : Float) (settings : Settings) :
    ofSettings bounds window settings =
      if 0 < settings.stepTolerance ∧ settings.stepTolerance.isFinite = true then
        if 0 ≤ settings.residualTolerance ∧ settings.residualTolerance.isFinite = true then
          ofWindow bounds window
        else .error (.invalidTolerance settings.residualTolerance)
      else .error (.invalidTolerance settings.stepTolerance) := by
  unfold ofSettings Criterion.stepWithin Criterion.residualWithin
  split
  · split <;> rfl
  · rfl

theorem Grid.bounds_of_ofSettings {g : Grid} (hok : ofSettings bounds window settings = .ok g) :
    g.bounds = bounds := by
  rw [ofSettings_eq] at hok
  split at hok
  · split at hok
    · exact (ofWindow_eq_ok.1 hok).1
    · cases hok
  · cases hok

theorem Grid.ofSettings_self (g : Grid)
    (hstep : 0 < settings.stepTolerance ∧ settings.stepTolerance.isFinite = true)
    (hres : 0 ≤ settings.residualTolerance ∧ settings.residualTolerance.isFinite = true) :
    ofSettings g.bounds g.window settings = .ok g := by
  rw [ofSettings_eq, if_pos hstep, if_pos hres]
  exact ofWindow_eq_ok.2 ⟨rfl, rfl⟩

theorem findRoots_of_refused {fault : Fault}
    (h : Grid.ofSettings bounds window settings = .error fault) :
    findRoots f bounds window settings method = ⟨.error fault, []⟩ := by
  rw [findRoots, h]
  rfl

theorem findRoots_of_admitted {g : Grid} (h : Grid.ofSettings bounds window settings = .ok g) :
    findRoots f bounds window settings method =
      ⟨.ok (g.survey f settings method).result, (g.survey f settings method).queries⟩ := by
  rw [findRoots, h]
  rfl

theorem findRoots_contains (f : Float → Float) (bounds : Bounds) (window : Float)
    (settings : Settings) (method : Method) :
    ∀ q ∈ (findRoots f bounds window settings method).queries,
      ∃ x, q = .value x ∧ bounds.contains x = true := by
  cases hgrid : Grid.ofSettings bounds window settings with
  | error fault =>
    rw [findRoots_of_refused hgrid]
    exact fun q hq => nomatch hq
  | ok g =>
    obtain rfl := Grid.bounds_of_ofSettings hgrid
    rw [findRoots_of_admitted hgrid]
    exact g.survey_contains f settings method

theorem findRoots_congr (hfh : ∀ x, bounds.contains x = true → f x = h x) :
    findRoots h bounds window settings method = findRoots f bounds window settings method := by
  cases hgrid : Grid.ofSettings bounds window settings with
  | error fault => rw [findRoots_of_refused hgrid, findRoots_of_refused hgrid]
  | ok g =>
    obtain rfl := Grid.bounds_of_ofSettings hgrid
    rw [findRoots_of_admitted hgrid, findRoots_of_admitted hgrid, g.survey_congr hfh]

/-- Solvers stay in their brackets, passes and surveys in their bounds, and functions that agree
within the bounds have the same survey. -/
theorem searches_stay_inside :
    (∀ (method : Method) (f : Float → Float) (b : Bracket) (cap : UInt64) (p : Policy),
      (method.solve f b cap p).StaysIn b.toInterval) ∧
    (∀ (g : Grid) (f : Float → Float), ∀ x ∈ (g.scan f).visited, g.bounds.contains x = true) ∧
    ∀ (f : Float → Float) (bounds : Bounds) (window : Float) (settings : Settings)
      (method : Method),
      (∀ q ∈ (findRoots f bounds window settings method).queries,
        ∃ x, q = .value x ∧ bounds.contains x = true) ∧
      ∀ h : Float → Float, (∀ x, bounds.contains x = true → f x = h x) →
        findRoots h bounds window settings method = findRoots f bounds window settings method := by
  refine ⟨fun method f b cap p => method.solve_staysIn f b cap p,
    fun g f x hx => Grid.contains_of_mem_visited hx, fun f bounds window settings method => ⟨?_, ?_⟩⟩
  · exact findRoots_contains f bounds window settings method
  · intro h hfh
    exact findRoots_congr hfh

/-- A survey of `x - 1` between 0 and 2, in windows of 1; beyond 2 the function may be another. -/
theorem searches_stay_inside_of_line :
    (∃ findings queries, findRoots (· - 1) ⟨⟨0, 2⟩, rfl, rfl, by decide⟩ 1 {} .illinois =
        ⟨.ok findings, queries⟩ ∧
      ∀ q ∈ queries, ∃ x, q = .value x ∧ Interval.contains ⟨0, 2⟩ x = true) ∧
    findRoots (fun x => if x ≤ 2 then x - 1 else 0) ⟨⟨0, 2⟩, rfl, rfl, by decide⟩ 1 {} .illinois =
      findRoots (· - 1) ⟨⟨0, 2⟩, rfl, rfl, by decide⟩ 1 {} .illinois := by
  obtain ⟨hinside, hcongr⟩ :=
    searches_stay_inside.2.2 (· - 1) ⟨⟨0, 2⟩, rfl, rfl, by decide⟩ 1 {} .illinois
  constructor
  · have hle : ¬ Interval.width ⟨0, 2⟩ < 1 := by decide +kernel
    let g : Grid := ⟨⟨⟨0, 2⟩, rfl, rfl, by decide⟩, 1, rfl, by decide, hle⟩
    have hgrid : Grid.ofSettings g.bounds 1 {} = .ok g :=
      g.ofSettings_self (by decide +kernel) (by decide +kernel)
    rw [findRoots_of_admitted hgrid] at hinside
    exact ⟨_, _, findRoots_of_admitted hgrid, hinside⟩
  · refine hcongr _ fun x hx => ?_
    rw [if_pos (Interval.contains_eq_true.1 hx).2]

end

end ZeroSearch
