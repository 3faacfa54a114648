import ZeroSearch.Enclosure
import ZeroSearch.Iteration

/-!
# Bracketing methods

A bracketing method keeps an enclosure of a zero and narrows it by every point it evaluates. Methods
differ in how they choose the point, which is what a `Rule` says; some remember which ends gave way
before.
-/

namespace ZeroSearch

/-- The state of a bracketing method. -/
structure Pursuit (μ : Type) where
  enclosure : Enclosure
  latest : Float
  memory : μ

structure Rule (μ : Type) where
  /-- What is remembered before the first round. -/
  initial : μ
  /-- The point to evaluate next. -/
  choose : Enclosure → μ → Float
  /-- The point before `x`, given the number of the iteration and the latest point, which is the
  lower end before the first round. -/
  previous : (iteration : UInt64) → Enclosure → (latest x : Float) → Float
  /-- What is remembered after an end gave way. -/
  remember : Side → μ → μ

namespace Rule

variable {μ : Type}

def iteration (r : Rule μ) : Iteration (Pursuit μ) where
  queries _ := []
  propose _ s := .ok (r.choose s.enclosure s.memory)
  previous i s x := r.previous i s.enclosure s.latest x
  absorb s x y := ⟨s.enclosure.narrow x y, x, r.remember (s.enclosure.replaced y) s.memory⟩
  latest s := s.latest

def start (r : Rule μ) (e : Enclosure) : Pursuit μ := ⟨e, e.lo, r.initial⟩

/-- Both ends are evaluated before anything else, also those of a bracket that is turned down. -/
def solve (r : Rule μ) (f : Float → Float) (b : Bracket) (cap : UInt64) (p : Policy) :
    Run (Pursuit μ) :=
  let opened := Enclosure.ofBracket f b
  match opened.result with
  | .error fault => ⟨opened.queries, [], .failed fault⟩
  | .ok e =>
    match e.endpointRoot with
    | some x => ⟨opened.queries, [], .found ⟨x, 0, 0⟩⟩
    | none => r.iteration.run f p cap opened.queries (r.start e)

end Rule

end ZeroSearch
