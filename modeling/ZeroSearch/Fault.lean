/-!
# Faults

Why a search has no zero to show. A fault carries what is known about the place where the search
stopped: the iterations done and the last abscissa, or the tolerance that was refused. `Report` is
the common form in which all of them are shown.
-/

namespace ZeroSearch

inductive Cause where
  | invalidBounds
  | invalidWindow
  | invalidTolerance
  | notABracket
  | iterationsExceeded
  | derivativeTooSmall
  | nonFinite
  deriving DecidableEq, Repr

namespace Cause

/-- The causes in the order of their numbers, from 0 on. -/
def all : List Cause :=
  [invalidBounds, invalidWindow, invalidTolerance, notABracket, iterationsExceeded,
    derivativeTooSmall, nonFinite]

def ofCode? : Int → Option Cause
  | .ofNat n => all[n]?
  | .negSucc _ => none

def name : Cause → String
  | invalidBounds => "InvalidBounds"
  | invalidWindow => "InvalidWindow"
  | invalidTolerance => "InvalidTolerance"
  | notABracket => "NotABracket"
  | iterationsExceeded => "MaxIterationsExceeded"
  | derivativeTooSmall => "DerivativeTooSmall"
  | nonFinite => "NonFinite"

theorem mem_all (c : Cause) : c ∈ all := by cases c <;> decide

end Cause

inductive Fault where
  /-- The ends of an interval are not finite or not in order. -/
  | invalidBounds
  /-- A scanning window is not positive and finite, or wider than the bounds. -/
  | invalidWindow
  | invalidTolerance (epsilon : Float)
  /-- Neither a sign change nor a zero at the ends. -/
  | notABracket
  | iterationsExceeded (cap : UInt64) (last : Float)
  /-- The denominator of the step from `x` is of no use. -/
  | derivativeTooSmall (iterations : UInt64) (x : Float)
  /-- `x`, or the value of the function at `x`, is not finite. -/
  | nonFinite (iterations : UInt64) (x : Float)
  deriving DecidableEq

/-- What is shown of a fault; a cause that has no name is `none`. -/
structure Report where
  cause : Option Cause
  iterations : UInt64
  lastValue : Option Float

def Fault.report : Fault → Report
  | invalidBounds => ⟨some .invalidBounds, 0, none⟩
  | invalidWindow => ⟨some .invalidWindow, 0, none⟩
  | invalidTolerance epsilon => ⟨some .invalidTolerance, 0, some epsilon⟩
  | notABracket => ⟨some .notABracket, 0, none⟩
  | iterationsExceeded cap last => ⟨some .iterationsExceeded, cap, some last⟩
  | derivativeTooSmall iterations x => ⟨some .derivativeTooSmall, iterations, some x⟩
  | nonFinite iterations x => ⟨some .nonFinite, iterations, some x⟩

end ZeroSearch
