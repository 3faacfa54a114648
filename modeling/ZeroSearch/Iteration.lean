import ZeroSearch.Run

/-!
# Iterations

The loop that all solvers share. A method says which point comes next and what is kept of it; the
loop evaluates the function there, stops at a value that is not finite and at an exact zero, and
otherwise asks the policy.

The number of the iteration is a 64-bit counter that starts at 1 and wraps around. A cap below the
greatest counter value is passed after as many rounds as it says. The greatest value itself is never
passed, so the rounds of a run are also counted by a budget that does not wrap.
-/

namespace ZeroSearch

structure Iteration (σ : Type) where
  /-- The evaluations that choosing the next point takes. -/
  queries : σ → List Query
  /-- The next point, unless the run ends before the function is evaluated again. -/
  propose : UInt64 → σ → Except Fault Float
  /-- The point that the policy is to compare the new one with. -/
  previous : UInt64 → σ → Float → Float
  /-- The state after a point and its value, which is finite and not zero. -/
  absorb : σ → Float → Float → σ
  /-- The point reported when the cap is reached. -/
  latest : σ → Float

namespace Iteration

variable {σ : Type}

/-- What follows a round: the end of the run, or another round from a new state. -/
inductive Next (σ : Type) where
  | stop (outcome : Outcome)
  | go (state : σ)

def round (m : Iteration σ) (f : Float → Float) (p : Policy) (i : UInt64) (s : σ) :
    Round σ × Next σ :=
  match m.propose i s with
  | .error fault => (⟨i, s, m.queries s, none, none⟩, .stop (.failed fault))
  | .ok x =>
    let y := f x
    let asked := m.queries s ++ [.value x]
    if !y.isFinite then (⟨i, s, asked, none, none⟩, .stop (.failed (.nonFinite i x)))
    else if y == 0 then (⟨i, s, asked, none, none⟩, .stop (.found ⟨x, i, 0⟩))
    else
      let t := m.absorb s x y
      let o : Observation := ⟨m.previous i s x, x, y, i⟩
      let r : Round σ := ⟨i, s, asked, some o, some t⟩
      if p.accepts o then (r, .stop (.found ⟨x, i, y.abs⟩)) else (r, .go t)

/-- At most `budget` rounds from iteration `i` on; `past` holds the rounds before, newest first. -/
def loop (m : Iteration σ) (f : Float → Float) (p : Policy) (cap : UInt64) :
    (budget : Nat) → UInt64 → σ → List (Round σ) → List (Round σ) × Outcome
  | 0, _, _, past => (past.reverse, .unfinished)
  | budget + 1, i, s, past =>
    if i ≤ cap then
      match m.round f p i s with
      | (r, .stop outcome) => ((r :: past).reverse, outcome)
      | (r, .go t) => m.loop f p cap budget (i + 1) t (r :: past)
    else (past.reverse, .failed (.iterationsExceeded cap (m.latest s)))

theorem loop_past (m : Iteration σ) (f : Float → Float) (p : Policy) (cap : UInt64) (budget : Nat)
    (i : UInt64) (s : σ) (past : List (Round σ)) :
    m.loop f p cap budget i s past =
      (past.reverse ++ (m.loop f p cap budget i s []).1, (m.loop f p cap budget i s []).2) := by
  induction budget generalizing i s past with
  | zero => simp [loop]
  | succ budget ih =>
    by_cases hi : i ≤ cap
    · rw [loop, loop, if_pos hi, if_pos hi]
      obtain ⟨r, outcome | t⟩ := m.round f p i s
      · simp
      · simp only
        rw [ih (i + 1) t (r :: past), ih (i + 1) t [r]]
        simp
    · rw [loop, loop, if_neg hi, if_neg hi]
      simp

/-- A run within a budget of rounds. -/
def runWithin (m : Iteration σ) (f : Float → Float) (p : Policy) (cap : UInt64) (budget : Nat)
    (opening : List Query) (s : σ) : Run σ :=
  let (rounds, outcome) := m.loop f p cap budget 1 s []
  ⟨opening, rounds, outcome⟩

/-- One round for each iteration up to the cap, and one to see that it is passed. -/
def run (m : Iteration σ) (f : Float → Float) (p : Policy) (cap : UInt64) (opening : List Query)
    (s : σ) : Run σ :=
  m.runWithin f p cap (cap.toNat + 1) opening s

end Iteration

end ZeroSearch
