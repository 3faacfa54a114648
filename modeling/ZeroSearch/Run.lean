import ZeroSearch.Fault
import ZeroSearch.Policy
import ZeroSearch.Query

/-!
# Runs

What a solver did: the evaluations before its first round, its rounds, and how it ended. Each round
keeps the state it began with, the evaluations it made in order, the observation that was put to the
policy (if it came to that) and the state it left.
-/

namespace ZeroSearch

structure Root where
  x : Float
  iterations : UInt64
  residual : Float
  deriving DecidableEq

inductive Outcome where
  | found (root : Root)
  | failed (fault : Fault)
  /-- The budget of rounds was used up and the cap not reached. -/
  | unfinished
  deriving DecidableEq

structure Round (σ : Type) where
  iteration : UInt64
  before : σ
  queries : List Query
  observation : Option Observation
  after : Option σ

structure Run (σ : Type) where
  opening : List Query
  rounds : List (Round σ)
  outcome : Outcome

def Round.map {σ τ : Type} (g : σ → τ) (r : Round σ) : Round τ :=
  ⟨r.iteration, g r.before, r.queries, r.observation, r.after.map g⟩

namespace Run

variable {σ τ : Type}

/-- All evaluations of the run, in order. -/
def queries (r : Run σ) : List Query := r.opening ++ r.rounds.flatMap Round.queries

/-- All calls of the policy, in order. -/
def observations (r : Run σ) : List Observation := r.rounds.filterMap Round.observation

def map (g : σ → τ) (r : Run σ) : Run τ := ⟨r.opening, r.rounds.map (Round.map g), r.outcome⟩

@[simp]
theorem outcome_map (g : σ → τ) (r : Run σ) : (r.map g).outcome = r.outcome := rfl

@[simp]
theorem queries_map (g : σ → τ) (r : Run σ) : (r.map g).queries = r.queries := by
  simp [map, queries, List.flatMap_map, Round.map]

@[simp]
theorem observations_map (g : σ → τ) (r : Run σ) : (r.map g).observations = r.observations := by
  simp [map, observations, List.filterMap_map, Function.comp_def, Round.map]

end Run

end ZeroSearch
