import ZeroSearch.Bracketing.Method
import ZeroSearch.Scan

/-!
# Surveys

Every zero of a function that a scan of the bounds can see: each bracket of one pass is solved on
its own, before the scan goes on to the next. A bracket that cannot be solved is a finding like
the others.
-/

namespace ZeroSearch

structure Finding where
  bracket : Bracket
  outcome : Outcome

/-- The findings in the order of the scan, with all evaluations in the order in which they were
made. -/
abbrev Survey := Traced (List Finding)

namespace Grid

/-- The tolerances are looked at first, then the window. -/
def ofSettings (bounds : Bounds) (window : Float) (settings : Settings) : Except Fault Grid := do
  let _ ← Criterion.stepWithin settings.stepTolerance
  let _ ← Criterion.residualWithin settings.residualTolerance
  ofWindow bounds window

/-- The evaluations of a leg are followed by those of its bracket. -/
def survey (g : Grid) (f : Float → Float) (settings : Settings) (method : Method) : Survey :=
  let pass := g.scan f
  let solved := pass.found.map fun (visited, bracket) =>
    (visited, bracket, method.solve f bracket settings.maxIterations settings.policy)
  { result := solved.map fun (_, bracket, run) => ⟨bracket, run.outcome⟩
    queries :=
      solved.flatMap (fun (visited, _, run) => visited.map .value ++ run.queries)
        ++ pass.tail.map .value }

end Grid

/-- Nothing is evaluated if the arguments are refused. -/
def findRoots (f : Float → Float) (bounds : Bounds) (window : Float) (settings : Settings)
    (method : Method) : Traced (Except Fault (List Finding)) :=
  match Grid.ofSettings bounds window settings with
  | .error fault => pure (.error fault)
  | .ok g => Except.ok <$> g.survey f settings method

end ZeroSearch
