import Mathlib
import ZeroSearch.Bracketing.Method
import ZeroSearch.Proofs.Course

/-!
# Solving a bracket

How a bracketing method starts, and what one round of it does, for every rule. The methods are the
rules `Method.rule`; what holds of the runs of all rules, or of all rules with some property, is
carried over to the methods by `Method.solve_eq`.
-/

namespace ZeroSearch

/-! ## Opening a bracket -/

namespace Enclosure

variable {f : Float → Float} {b : Bracket} {e : Enclosure}

/-- What opening a bracket gives, and what was asked of the values first. -/
theorem ofBracket_eq_ok (h : (ofBracket f b).result = .ok e) :
    e = ⟨b.toInterval, f b.lo, f b.hi⟩ ∧
      ((f b.lo).isFinite = true ∧ (f b.hi).isFinite = true) ∧
      (e.endpointRoot = none → e.signChange = true) := by
  rw [result_ofBracket] at h
  split at h
  · cases h
  · rename_i hfin
    split at h
    · cases h
    · rename_i hsign
      cases h
      rw [Bool.not_eq_true, Bool.not_eq_false', Bool.and_eq_true] at hfin
      refine ⟨rfl, hfin, fun hroot => ?_⟩
      rw [hroot, Option.isNone_none, Bool.true_and, Bool.not_eq_true, Bool.not_eq_false'] at hsign
      exact hsign

/-- What a bracket is turned down for: the value at one of its ends, or two values with no change of
sign between them, neither of them zero. -/
theorem ofBracket_eq_error {fault : Fault} (h : (ofBracket f b).result = .error fault) :
    fault = .nonFinite 0 b.lo ∨ fault = .nonFinite 0 b.hi ∨
      fault = .notABracket ∧ endpointRoot ⟨b.toInterval, f b.lo, f b.hi⟩ = none ∧
        oppositeSigns (f b.lo) (f b.hi) = false := by
  rw [result_ofBracket] at h
  split at h
  · cases h
    split
    · exact .inr (.inl rfl)
    · exact .inl rfl
  · split at h
    · rename_i hbad
      cases h
      rw [Bool.and_eq_true, Bool.not_eq_true', Option.isNone_iff_eq_none] at hbad
      exact .inr (.inr ⟨rfl, hbad⟩)
    · cases h

theorem eq_of_ofBracket (h : (ofBracket f b).result = .ok e) :
    e = ⟨b.toInterval, f b.lo, f b.hi⟩ :=
  (ofBracket_eq_ok h).1

theorem fault_of_ofBracket {fault : Fault} (h : (ofBracket f b).result = .error fault) :
    fault = .nonFinite 0 b.lo ∨ fault = .nonFinite 0 b.hi ∨ fault = .notABracket :=
  (ofBracket_eq_error h).imp_right (Or.imp_right And.left)

theorem zero_of_endpointRoot {x : Float} (h : e.endpointRoot = some x) :
    (e.fLo == 0) = true ∧ x = e.lo ∨ (e.fHi == 0) = true ∧ x = e.hi := by
  unfold endpointRoot at h
  split at h
  · rename_i hlo
    cases h
    exact .inl ⟨hlo, rfl⟩
  · split at h
    · rename_i hhi
      cases h
      exact .inr ⟨hhi, rfl⟩
    · cases h

theorem eq_of_endpointRoot {x : Float} (h : e.endpointRoot = some x) : x = e.lo ∨ x = e.hi :=
  (zero_of_endpointRoot h).imp And.right And.right

theorem ne_zero_of_endpointRoot (h : e.endpointRoot = none) :
    (e.fLo == 0) = false ∧ (e.fHi == 0) = false := by
  unfold endpointRoot at h
  split at h
  · cases h
  · split at h
    · cases h
    · rename_i hlo hhi
      exact ⟨Bool.eq_false_iff.2 hlo, Bool.eq_false_iff.2 hhi⟩

end Enclosure

/-! ## Rules -/

namespace Rule

variable {μ : Type} {rule : Rule μ} {f : Float → Float} {b : Bracket} {e : Enclosure} {cap : UInt64}
  {p : Policy} {i : UInt64} {s : Pursuit μ} {r : Round (Pursuit μ)}
  {next : Iteration.Next (Pursuit μ)}

theorem solve_of_refused {fault : Fault} (h : (Enclosure.ofBracket f b).result = .error fault) :
    rule.solve f b cap p = ⟨[.value b.lo, .value b.hi], [], .failed fault⟩ := by
  simp only [solve, h, Enclosure.queries_ofBracket]

theorem solve_of_endpointRoot {x : Float} (h : (Enclosure.ofBracket f b).result = .ok e)
    (hroot : e.endpointRoot = some x) :
    rule.solve f b cap p = ⟨[.value b.lo, .value b.hi], [], .found ⟨x, 0, 0⟩⟩ := by
  simp only [solve, h, hroot, Enclosure.queries_ofBracket]

theorem solve_of_opened (h : (Enclosure.ofBracket f b).result = .ok e)
    (hroot : e.endpointRoot = none) :
    rule.solve f b cap p =
      rule.iteration.run f p cap [.value b.lo, .value b.hi] (rule.start e) := by
  simp only [solve, h, hroot, Enclosure.queries_ofBracket]

/-- Both ends are evaluated first, the lower one before the upper. -/
theorem opening_solve (rule : Rule μ) (f : Float → Float) (b : Bracket) (cap : UInt64) (p : Policy) :
    (rule.solve f b cap p).opening = [.value b.lo, .value b.hi] := by
  unfold solve
  dsimp only
  split
  · rfl
  · split
    · rfl
    · rfl

/-- A run with rounds has opened its bracket. -/
theorem opened_of_rounds (h : (rule.solve f b cap p).rounds ≠ []) :
    ∃ e, (Enclosure.ofBracket f b).result = .ok e ∧ e.endpointRoot = none ∧ rule.solve f b cap p =
      rule.iteration.run f p cap [.value b.lo, .value b.hi] (rule.start e) := by
  cases hopen : (Enclosure.ofBracket f b).result with
  | error fault =>
    rw [solve_of_refused hopen] at h
    exact absurd rfl h
  | ok e =>
    cases hroot : e.endpointRoot with
    | some x =>
      rw [solve_of_endpointRoot hopen hroot] at h
      exact absurd rfl h
    | none => exact ⟨e, rfl, hroot, solve_of_opened hopen hroot⟩

/-- A round evaluates the point that the rule chooses and nothing else. -/
theorem queries_of_step (h : rule.iteration.Step f p i s r next) :
    r.queries = [.value (rule.choose s.enclosure s.memory)] := by
  cases h with
  | refused hx => cases hx
  | nonFinite hx => cases hx; rfl
  | zero hx => cases hx; rfl
  | accepted hx => cases hx; rfl
  | rejected hx => cases hx; rfl

/-- The enclosure is narrowed by the point evaluated, unless the value there ends the run. -/
theorem completed_of_step (h : rule.iteration.Step f p i s r next) :
    ∃ x, x = rule.choose s.enclosure s.memory ∧ r.queries = [.value x] ∧
      (((f x).isFinite = false ∨ (f x == 0) = true) ∧ r.observation = none ∧ r.after = none ∨
        (f x).isFinite = true ∧ (f x == 0) = false ∧
          r.observation = some ⟨rule.previous i s.enclosure s.latest x, x, f x, i⟩ ∧
          ∃ m, r.after = some ⟨s.enclosure.narrow x (f x), x, m⟩) := by
  refine ⟨_, rfl, queries_of_step h, ?_⟩
  obtain ⟨hends, hobs, hafter⟩ | ⟨x, hx, hfin, hz, hobs, hafter⟩ := h.completed
  · exact .inl ⟨hends _ rfl, hobs, hafter⟩
  · cases hx
    exact .inr ⟨hfin, hz, hobs, _, hafter⟩

theorem of_go (h : rule.iteration.Step f p i s r (.go t)) :
    ∃ x m, (f x).isFinite = true ∧ (f x == 0) = false ∧ x = rule.choose s.enclosure s.memory ∧
      t = ⟨s.enclosure.narrow x (f x), x, m⟩ := by
  cases h with
  | rejected hx hfin hz => cases hx; exact ⟨_, _, hfin, hz, rfl, rfl⟩

theorem solve_finishes (hcap : cap.toNat + 1 < 2 ^ 64) :
    (rule.solve f b cap p).outcome ≠ .unfinished := by
  cases h : (Enclosure.ofBracket f b).result with
  | error fault =>
    rw [solve_of_refused h]
    exact fun h => by cases h
  | ok e =>
    cases hroot : e.endpointRoot with
    | some x =>
      rw [solve_of_endpointRoot h hroot]
      exact fun h => by cases h
    | none =>
      rw [solve_of_opened h hroot]
      exact rule.iteration.run_finishes f p hcap _ _

end Rule

/-! ## Methods -/

namespace Method

/-- What a method remembers of the rounds before. -/
def Memory : Method → Type
  | bisection => Unit
  | falsePosition => Damping
  | illinois => Damping

def rule : (method : Method) → Rule method.Memory
  | bisection => bisectionRule
  | falsePosition => falsePositionRule false
  | illinois => falsePositionRule true

theorem solve_eq (method : Method) (f : Float → Float) (b : Bracket) (cap : UInt64) (p : Policy) :
    method.solve f b cap p = (method.rule.solve f b cap p).map Pursuit.enclosure := by
  cases method <;> rfl

/-- Every run ends with a root or a fault, unless its cap is the greatest count. -/
theorem solve_finishes (method : Method) (f : Float → Float) (b : Bracket) {cap : UInt64}
    (p : Policy) (hcap : cap.toNat + 1 < 2 ^ 64) :
    (method.solve f b cap p).outcome ≠ .unfinished := by
  rw [method.solve_eq, Run.outcome_map]
  exact Rule.solve_finishes hcap

end Method

end ZeroSearch
