import Mathlib
import ZeroSearch.Proofs.Containment
import ZeroSearch.Proofs.Counter
import ZeroSearch.Proofs.Signs

/-!
# How runs on a bracket end

All bracketing methods evaluate the ends of a bracket first, and what they find there decides for all
of them alike whether there is anything to search for (`Run.Classified`). Where there is, a run ends
at the last point that it evaluates: with a root there, with a value that is not finite, or with the
cap passed (`Outcome.EndsAt`).
-/

namespace ZeroSearch

open Binary64

/-- An outcome that iteration `n` ends a run with, `x` being the point evaluated last. -/
inductive Outcome.EndsAt (g : Float → Float) (cap : UInt64) (x : Float) (n : UInt64) :
    Outcome → Prop where
  | found : (g x).isFinite = true → EndsAt g cap x n (.found ⟨x, n, (g x).abs⟩)
  | nonFinite : (g x).isFinite = false → EndsAt g cap x n (.failed (.nonFinite n x))
  | exceeded : n = cap → (g x).isFinite = true → (g x == 0) = false →
      EndsAt g cap x n (.failed (.iterationsExceeded cap x))

variable {σ τ : Type}

/-- The run evaluates the ends of its bracket and nothing else. -/
structure Run.EndsOnOpening (run : Run σ) (b : Bracket) (o : Outcome) : Prop where
  queries : run.queries = [.value b.lo, .value b.hi]
  observations : run.observations = []
  outcome : run.outcome = o

/-- The run evaluates one more point in each of its iterations, `n` of them. -/
def Run.EndsInRound (run : Run σ) (g : Float → Float) (b : Bracket) (cap : UInt64) : Prop :=
  ∃ x n, 1 ≤ n ∧ n ≤ cap ∧ run.queries.length = 2 + n.toNat ∧
    run.queries.getLast? = some (.value x) ∧ b.contains x = true ∧ run.outcome.EndsAt g cap x n

/-- The ends of the bracket have finite values on both sides of zero. -/
structure Bracket.Straddles (b : Bracket) (g : Float → Float) : Prop where
  lo_finite : (g b.lo).isFinite = true
  hi_finite : (g b.hi).isFinite = true
  signs : oppositeSigns (g b.lo) (g b.hi) = true

/-- What the ends of a bracket have a run do. -/
structure Run.Classified (run : Run σ) (g : Float → Float) (b : Bracket) (cap : UInt64) :
    Prop where
  ends_first : [.value b.lo, .value b.hi] <+: run.queries
  inside : ∀ q ∈ run.queries, ∃ x, q = .value x ∧ b.contains x = true
  nonFinite : ¬ ((g b.lo).isFinite = true ∧ (g b.hi).isFinite = true) →
    run.EndsOnOpening b (.failed (.nonFinite 0 (if (g b.lo).isFinite then b.hi else b.lo)))
  zero : (g b.lo).isFinite = true → (g b.hi).isFinite = true →
    (g b.lo == 0) = true ∨ (g b.hi == 0) = true →
      run.EndsOnOpening b (.found ⟨if g b.lo == 0 then b.lo else b.hi, 0, 0⟩)
  sameSide : (g b.lo).isFinite = true → (g b.hi).isFinite = true →
    (g b.lo == 0) = false → (g b.hi == 0) = false → oppositeSigns (g b.lo) (g b.hi) = false →
      run.EndsOnOpening b (.failed .notABracket)
  exhausted : b.Straddles g → cap = 0 → run.EndsOnOpening b (.failed (.iterationsExceeded 0 b.lo))
  searched : b.Straddles g → 0 < cap → run.EndsInRound g b cap

/-! ## Openings -/

theorem abs_of_beq_zero {x : Float} (h : (x == 0) = true) : x.abs = 0 := by
  have hx := not_isNaN_of_isFinite (isFinite_of_beq_zero h)
  obtain rfl | rfl := zero_cases hx ((beq_zero_iff_ordinal hx).1 h) <;> rfl

theorem Bracket.Straddles.ne_zero {b : Bracket} {g : Float → Float} (h : b.Straddles g) :
    (g b.lo == 0) = false ∧ (g b.hi == 0) = false := by
  have hsigns := oppositeSigns_iff_ordinal.1 h.signs
  rw [Bool.eq_false_iff, Bool.eq_false_iff, Ne, Ne,
    beq_zero_iff_ordinal (not_isNaN_of_isFinite h.lo_finite),
    beq_zero_iff_ordinal (not_isNaN_of_isFinite h.hi_finite)]
  omega

namespace Enclosure

variable {g : Float → Float} {b : Bracket}

theorem ofBracket_of_not_isFinite (h : ¬ ((g b.lo).isFinite = true ∧ (g b.hi).isFinite = true)) :
    (ofBracket g b).result = .error (.nonFinite 0 (if (g b.lo).isFinite then b.hi else b.lo)) := by
  have hfin : (!((g b.lo).isFinite && (g b.hi).isFinite)) = true := by
    rwa [Bool.not_eq_true', ← Bool.not_eq_true, Bool.and_eq_true]
  exact if_pos hfin

theorem ofBracket_of_isFinite (hlo : (g b.lo).isFinite = true) (hhi : (g b.hi).isFinite = true) :
    (ofBracket g b).result =
      if (endpointRoot ⟨b.toInterval, g b.lo, g b.hi⟩).isNone && !oppositeSigns (g b.lo) (g b.hi)
      then .error .notABracket else .ok ⟨b.toInterval, g b.lo, g b.hi⟩ := by
  rw [result_ofBracket, hlo, hhi]
  rfl

theorem endpointRoot_of_either_zero {e : Enclosure} (h : (e.fLo == 0) = true ∨ (e.fHi == 0) = true) :
    e.endpointRoot = some (if e.fLo == 0 then e.lo else e.hi) := by
  unfold endpointRoot
  by_cases hlo : (e.fLo == 0) = true
  · rw [if_pos hlo, if_pos hlo]
  · rw [if_neg hlo, if_neg hlo, if_pos (h.resolve_left hlo)]

theorem endpointRoot_of_ne_zero {e : Enclosure} (hlo : (e.fLo == 0) = false)
    (hhi : (e.fHi == 0) = false) : e.endpointRoot = none := by
  unfold endpointRoot
  rw [hlo, hhi]
  rfl

theorem ofBracket_of_straddles (h : b.Straddles g) :
    (ofBracket g b).result = .ok ⟨b.toInterval, g b.lo, g b.hi⟩ := by
  rw [ofBracket_of_isFinite h.lo_finite h.hi_finite, h.signs, Bool.not_true, Bool.and_false]
  rfl

end Enclosure

namespace Run

variable {run : Run σ} {g : Float → Float} {b : Bracket} {cap : UInt64} {o : Outcome}

theorem endsOnOpening (b : Bracket) (o : Outcome) :
    (⟨[.value b.lo, .value b.hi], [], o⟩ : Run σ).EndsOnOpening b o := ⟨rfl, rfl, rfl⟩

theorem EndsOnOpening.map (h : run.EndsOnOpening b o) (f : σ → τ) :
    (run.map f).EndsOnOpening b o where
  queries := (run.queries_map f).trans h.queries
  observations := (run.observations_map f).trans h.observations
  outcome := h.outcome

theorem EndsInRound.map (h : run.EndsInRound g b cap) (f : σ → τ) :
    (run.map f).EndsInRound g b cap := by
  unfold EndsInRound
  rw [queries_map]
  exact h

theorem Classified.map (h : run.Classified g b cap) (f : σ → τ) :
    (run.map f).Classified g b cap where
  ends_first := by
    rw [queries_map]
    exact h.ends_first
  inside := by
    rw [queries_map]
    exact h.inside
  nonFinite hne := (h.nonFinite hne).map f
  zero hlo hhi hz := (h.zero hlo hhi hz).map f
  sameSide hlo hhi hlo₀ hhi₀ hsame := (h.sameSide hlo hhi hlo₀ hhi₀ hsame).map f
  exhausted hb hcap := (h.exhausted hb hcap).map f
  searched hb hcap := (h.searched hb hcap).map f

end Run

/-! ## Rounds -/

namespace Rule

variable {μ : Type} {rule : Rule μ} {g : Float → Float} {p : Policy} {b : Bracket} {i cap : UInt64}
  {s : Pursuit μ} {r : Round (Pursuit μ)} {rs : List (Round (Pursuit μ))} {o : Outcome}

theorem endsAt_of_step (h : rule.iteration.Step g p i s r (.stop o)) :
    ∃ x, r.queries = [.value x] ∧ o.EndsAt g cap x r.iteration := by
  cases h with
  | refused hx => cases hx
  | nonFinite hx hfin => exact ⟨_, rfl, .nonFinite hfin⟩
  | @zero x hx hfin hz =>
    refine ⟨_, rfl, ?_⟩
    have hfound : Outcome.EndsAt g cap x i (.found ⟨x, i, (g x).abs⟩) := .found hfin
    rwa [abs_of_beq_zero hz] at hfound
  | accepted hx hfin => exact ⟨_, rfl, .found hfin⟩

/-- The cap leaves the counter room to pass it. The case that needs this is a round with the cap's
own number that asks for another one. -/
theorem endsAt_of_course (hcap : cap.toNat + 1 < 2 ^ 64)
    (h : rule.iteration.Course g p cap i s rs o) (ho : o ≠ .unfinished) (hi : i ≤ cap) :
    ∃ r x, rs.getLast? = some r ∧ r.queries = [.value x] ∧ o.EndsAt g cap x r.iteration := by
  induction h with
  | cut => exact absurd rfl ho
  | capped hlt => exact absurd hi hlt
  | last hle hstep =>
    obtain ⟨x, hq, hend⟩ := endsAt_of_step hstep
    exact ⟨_, x, rfl, hq, hend⟩
  | @next i s t r rs o hle hstep hrest ih =>
    by_cases hnext : i + 1 ≤ cap
    · obtain ⟨q, x, hlast, hq, hend⟩ := ih ho hnext
      refine ⟨q, x, ?_, hq, hend⟩
      rw [List.getLast?_cons, hlast]
      rfl
    · have hcapped : rs = [] ∧ o = .failed (.iterationsExceeded cap (rule.iteration.latest t)) := by
        cases hrest with
        | cut => exact absurd rfl ho
        | capped => exact ⟨rfl, rfl⟩
        | last hle => exact absurd hle hnext
        | next hle => exact absurd hle hnext
      obtain ⟨rfl, rfl⟩ := hcapped
      have hle' := UInt64.le_iff_toNat_le.1 hle
      have hlt := mt UInt64.le_iff_toNat_le.2 hnext
      have hsucc := Iteration.toNat_succ (i := i) (by omega)
      have heq : i = cap := UInt64.toNat_inj.1 (by omega)
      cases hstep with
      | rejected hx hfin hz => exact ⟨_, _, rfl, rfl, .exceeded heq hfin hz⟩

/-- There is one evaluation for each round. -/
theorem length_queries (h : rule.iteration.Course g p cap i s rs o) :
    (rs.flatMap Round.queries).length = rs.length := by
  induction h with
  | cut => rfl
  | capped => rfl
  | last hi hstep => rw [List.flatMap_singleton, queries_of_step hstep, List.length_singleton,
      List.length_singleton]
  | next hi hstep hrest ih =>
    rw [List.flatMap_cons, List.length_append, ih, queries_of_step hstep, List.length_singleton,
      List.length_cons, Nat.add_comm]

/-- The last round of a run has the number of rounds as its own number. -/
theorem run_ends (hcap : cap.toNat + 1 < 2 ^ 64) (hpos : 0 < cap) (opening : List Query)
    (s : Pursuit μ) :
    ∃ x n, 1 ≤ n ∧ n ≤ cap ∧
      (rule.iteration.run g p cap opening s).queries.length = opening.length + n.toNat ∧
      (rule.iteration.run g p cap opening s).queries.getLast? = some (.value x) ∧
      (rule.iteration.run g p cap opening s).outcome.EndsAt g cap x n := by
  have hrun := rule.iteration.run_course g p cap opening s
  have hfin := rule.iteration.run_finishes g p hcap opening s
  obtain ⟨hlen, hnum⟩ := rule.iteration.run_counted g p hcap opening s
  have hopening : (rule.iteration.run g p cap opening s).opening = opening := rfl
  generalize rule.iteration.run g p cap opening s = run at *
  have hone : 1 ≤ cap := UInt64.le_iff_toNat_le.2 (UInt64.lt_iff_toNat_lt.1 hpos)
  obtain ⟨r, x, hlast, hq, hend⟩ := endsAt_of_course hcap hrun hfin hone
  have hr : run.rounds[run.rounds.length - 1]? = some r := by
    rw [← List.getLast?_eq_getElem?, hlast]
  have hmany : 0 < run.rounds.length := List.length_pos_of_mem (List.mem_of_getLast? hlast)
  have hn : r.iteration.toNat = run.rounds.length := by
    have := hnum _ r hr
    omega
  refine ⟨x, r.iteration, UInt64.le_iff_toNat_le.2 ?_, UInt64.le_iff_toNat_le.2 ?_, ?_, ?_, hend⟩
  · rw [UInt64.toNat_one]
    omega
  · omega
  · rw [Run.queries, List.length_append, length_queries hrun, hopening, hn]
  · rw [Run.queries, ← List.dropLast_append_getLast? r hlast, List.flatMap_append,
      List.flatMap_singleton, hq, ← List.append_assoc, List.getLast?_concat]

theorem solve_classified (hrule : rule.Inside) (b : Bracket) (hcap : cap.toNat + 1 < 2 ^ 64) :
    (rule.solve g b cap p).Classified g b cap where
  ends_first := by
    rw [Run.queries, rule.opening_solve]
    exact List.prefix_append _ _
  inside := by
    have hinside := (hrule.staysIn g b cap p).queries
    rwa [Run.queries_map] at hinside
  nonFinite hne := by
    rw [solve_of_refused (Enclosure.ofBracket_of_not_isFinite hne)]
    exact Run.endsOnOpening b _
  zero hlo hhi hz := by
    have hroot := Enclosure.endpointRoot_of_either_zero (e := ⟨b.toInterval, g b.lo, g b.hi⟩) hz
    have hopen := Enclosure.ofBracket_of_isFinite hlo hhi
    rw [hroot] at hopen
    rw [solve_of_endpointRoot hopen hroot]
    exact Run.endsOnOpening b _
  sameSide hlo hhi hlo₀ hhi₀ hsame := by
    have hroot := Enclosure.endpointRoot_of_ne_zero (e := ⟨b.toInterval, g b.lo, g b.hi⟩) hlo₀ hhi₀
    have hopen := Enclosure.ofBracket_of_isFinite hlo hhi
    rw [hroot, hsame] at hopen
    rw [solve_of_refused hopen]
    exact Run.endsOnOpening b _
  exhausted hb hzero := by
    have hroot := Enclosure.endpointRoot_of_ne_zero (e := ⟨b.toInterval, g b.lo, g b.hi⟩)
      hb.ne_zero.1 hb.ne_zero.2
    subst hzero
    rw [solve_of_opened (Enclosure.ofBracket_of_straddles hb) hroot]
    exact Run.endsOnOpening b _
  searched hb hpos := by
    have hroot := Enclosure.endpointRoot_of_ne_zero (e := ⟨b.toInterval, g b.lo, g b.hi⟩)
      hb.ne_zero.1 hb.ne_zero.2
    have hinside := (hrule.staysIn g b cap p).queries
    rw [Run.queries_map] at hinside
    rw [solve_of_opened (Enclosure.ofBracket_of_straddles hb) hroot] at hinside ⊢
    obtain ⟨x, n, hone, hn, hlen, hlast, hend⟩ := run_ends hcap hpos _ _
    obtain ⟨y, hy, hin⟩ := hinside _ (List.mem_of_getLast? hlast)
    cases hy
    exact ⟨x, n, hone, hn, hlen, hlast, hin, hend⟩

end Rule

theorem Method.solve_classified (method : Method) (g : Float → Float) (b : Bracket) {cap : UInt64}
    (p : Policy) (hcap : cap.toNat + 1 < 2 ^ 64) : (method.solve g b cap p).Classified g b cap := by
  rw [method.solve_eq]
  exact (Rule.solve_classified method.rule_inside b hcap).map _

/-- The values at the ends leave one outcome for all runs, whatever their method, policy and cap. -/
theorem Bracket.decided {b : Bracket} {g : Float → Float} (h : ¬ b.Straddles g) :
    ∃ o, ∀ {run : Run σ} {cap : UInt64}, run.Classified g b cap → run.EndsOnOpening b o := by
  by_cases hfin : (g b.lo).isFinite = true ∧ (g b.hi).isFinite = true
  · obtain ⟨hlo, hhi⟩ := hfin
    by_cases hz : (g b.lo == 0) = true ∨ (g b.hi == 0) = true
    · exact ⟨_, fun hrun => hrun.zero hlo hhi hz⟩
    · rw [not_or, Bool.not_eq_true, Bool.not_eq_true] at hz
      cases hsigns : oppositeSigns (g b.lo) (g b.hi) with
      | true => exact absurd ⟨hlo, hhi, hsigns⟩ h
      | false => exact ⟨_, fun hrun => hrun.sameSide hlo hhi hz.1 hz.2 hsigns⟩
  · exact ⟨_, fun hrun => hrun.nonFinite hfin⟩

/-- The three bracketing methods classify every bracket for every function in the same way, and where
they do not search, any two of them do the same with any policies and caps, unless a cap is the
greatest count. -/
theorem methods_share_endings (g : Float → Float) (b : Bracket) {cap cap' : UInt64}
    (p p' : Policy) (hcap : cap.toNat + 1 < 2 ^ 64) (hcap' : cap'.toNat + 1 < 2 ^ 64) :
    (∀ method : Method, (method.solve g b cap p).Classified g b cap) ∧
    ∀ method method' : Method, ¬ b.Straddles g ∨ cap = 0 ∧ cap' = 0 →
      ∃ o, (method.solve g b cap p).EndsOnOpening b o ∧
        (method'.solve g b cap' p').EndsOnOpening b o := by
  refine ⟨fun method => method.solve_classified g b p hcap, fun method method' h => ?_⟩
  have hrun := method.solve_classified g b p hcap
  have hrun' := method'.solve_classified g b p' hcap'
  by_cases hb : b.Straddles g
  · obtain ⟨hzero, hzero'⟩ := h.resolve_left (not_not.2 hb)
    exact ⟨_, hrun.exhausted hb hzero, hrun'.exhausted hb hzero'⟩
  · obtain ⟨o, ho⟩ := Bracket.decided hb
    exact ⟨o, ho hrun, ho hrun'⟩

/-- The Illinois method searches for the zero of `x * x - 1.25` between 1 and 2. On `1 / x` between 0
and 1 bisection and false position end alike, with different policies and caps. -/
theorem methods_share_endings_of_square :
    (3 : UInt64).toNat + 1 < 2 ^ 64 ∧ (0 : UInt64).toNat + 1 < 2 ^ 64 ∧
    (Method.illinois.solve (fun x => x * x - 1.25) ⟨⟨1, 2⟩, rfl, rfl, by decide⟩ 3
      (.step 0.25)).EndsInRound (fun x => x * x - 1.25) ⟨⟨1, 2⟩, rfl, rfl, by decide⟩ 3 ∧
    ∃ o, (Method.bisection.solve (fun x => 1 / x) ⟨⟨0, 1⟩, rfl, rfl, by decide⟩ 3
        (.step 0.25)).EndsOnOpening ⟨⟨0, 1⟩, rfl, rfl, by decide⟩ o ∧
      (Method.falsePosition.solve (fun x => 1 / x) ⟨⟨0, 1⟩, rfl, rfl, by decide⟩ 0
        (.residual 0)).EndsOnOpening ⟨⟨0, 1⟩, rfl, rfl, by decide⟩ o := by
  have h₃ : (3 : UInt64).toNat + 1 < 2 ^ 64 := by decide
  have h₀ : (0 : UInt64).toNat + 1 < 2 ^ 64 := by decide
  have hsquare := (methods_share_endings (fun x => x * x - 1.25) ⟨⟨1, 2⟩, rfl, rfl, by decide⟩
    (.step 0.25) (.residual 0) h₃ h₀).1 .illinois
  have hpole := (methods_share_endings (fun x => 1 / x) ⟨⟨0, 1⟩, rfl, rfl, by decide⟩
    (.step 0.25) (.residual 0) h₃ h₀).2 .bisection .falsePosition
  refine ⟨h₃, h₀, hsquare.searched ⟨rfl, rfl, by decide +kernel⟩ (by decide), hpole (.inl ?_)⟩
  intro hb
  cases hb.lo_finite

end ZeroSearch
