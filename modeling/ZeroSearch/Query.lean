/-!
# Evaluations

A search evaluates the function and its derivatives, and where it does so can be seen from outside.
A `Traced` computation gives its evaluations, in order, together with its result.
-/

namespace ZeroSearch

/-- An evaluation of the function or of one of its derivatives at `x`. -/
inductive Query where
  | value (x : Float)
  | slope (x : Float)
  | curvature (x : Float)
  deriving DecidableEq

structure Traced (α : Type) where
  result : α
  queries : List Query

namespace Traced

instance : Monad Traced where
  pure a := ⟨a, []⟩
  bind t k := ⟨(k t.result).result, t.queries ++ (k t.result).queries⟩
  map g t := ⟨g t.result, t.queries⟩

/-- Evaluates the function at `x`. -/
def value (f : Float → Float) (x : Float) : Traced Float := ⟨f x, [.value x]⟩

end Traced

end ZeroSearch
