import ZeroSearch.Fault

/-!
# Convergence policies

A solver stops when its policy accepts an observation: the iterate, the one before it, the value
of the function there and the number of the iteration. Policies are trees of tests. The second
operand of `both` and `either` is asked only if the first one leaves the answer open; `asked`
lists the tests that an observation reaches.
-/

namespace ZeroSearch

structure Observation where
  previous : Float
  current : Float
  /-- The value of the function at `current`. -/
  value : Float
  iteration : UInt64

/-! ## Tests -/

inductive Criterion where
  /-- Successive iterates are within `epsilon`. -/
  | step (epsilon : Float)
  /-- The value is within `epsilon` of zero. -/
  | residual (epsilon : Float)
  | custom (label : Option String) (holds : Observation → Bool)

namespace Criterion

def accepts : Criterion → Observation → Bool
  | step epsilon, o => decide ((o.current - o.previous).abs ≤ epsilon)
  | residual epsilon, o => decide (o.value.abs ≤ epsilon)
  | custom _ holds, o => holds o

/-- The tolerance of a search on the steps has to be positive. -/
def stepWithin (epsilon : Float) : Except Fault Criterion :=
  if 0 < epsilon ∧ epsilon.isFinite then .ok (step epsilon)
  else .error (.invalidTolerance epsilon)

/-- A residual of exactly zero may be asked for. -/
def residualWithin (epsilon : Float) : Except Fault Criterion :=
  if 0 ≤ epsilon ∧ epsilon.isFinite then .ok (residual epsilon)
  else .error (.invalidTolerance epsilon)

end Criterion

/-! ## Trees of tests -/

inductive Policy where
  | test (c : Criterion)
  | both (p q : Policy)
  | either (p q : Policy)

namespace Policy

def step (epsilon : Float) : Policy := test (.step epsilon)

def residual (epsilon : Float) : Policy := test (.residual epsilon)

/-- Whichever of the two tolerances is met first. -/
def combined (stepEpsilon residualEpsilon : Float) : Policy :=
  either (step stepEpsilon) (residual residualEpsilon)

def accepts : Policy → Observation → Bool
  | test c, o => c.accepts o
  | both p q, o => p.accepts o && q.accepts o
  | either p q, o => p.accepts o || q.accepts o

/-- The tests that are put to `o`, in order. -/
def asked : Policy → Observation → List Criterion
  | test c, _ => [c]
  | both p q, o => p.asked o ++ if p.accepts o then q.asked o else []
  | either p q, o => p.asked o ++ if p.accepts o then [] else q.asked o

end Policy

/-! ## Settings -/

/-- The tolerance of a test for which none is given. -/
def defaultTolerance : Float := 1e-9

/-- A cap on the iterations and two tolerances that have to be met together. -/
structure Settings where
  maxIterations : UInt64 := 100
  stepTolerance : Float := defaultTolerance
  residualTolerance : Float := defaultTolerance

def Settings.policy (s : Settings) : Policy :=
  .both (.step s.stepTolerance) (.residual s.residualTolerance)

end ZeroSearch
