import Mathlib
import ZeroSearch.Proofs.Calls

/-!
# Runs that differ in the cap

A cap does nothing but end a run. Runs with two caps take the same rounds until the smaller cap is
passed (`Iteration.run_cutShort`), and if that happens, the run with the smaller cap reports the
iterate that it has come to.
-/

namespace ZeroSearch

variable {σ τ : Type}

/-- The run was ended by its cap. -/
def Run.Exceeded (run : Run σ) : Prop :=
  ∃ cap x, run.outcome = .failed (.iterationsExceeded cap x)

/-- The starting point and the points that were put to the policy. -/
def Run.iterates (run : Run σ) (origin : Float) : List Float :=
  origin :: run.observations.map Observation.current

/-- What a run with the cap `cap` has to do with the run that is the same but for a greater cap. -/
structure Run.Truncates (short long : Run σ) (cap : UInt64) (origin : Float) : Prop where
  same : ¬ short.Exceeded → long = short
  queries : short.queries <+: long.queries
  observations : short.observations <+: long.observations
  exceeded : long.Exceeded → ∃ x, short.outcome = .failed (.iterationsExceeded cap x) ∧
    (short.iterates origin)[cap.toNat]? = some x

namespace Run

variable {short long run : Run σ} {f : Float → Float} {p : Policy} {cap c : UInt64} {x : Float}
  {origin : Float} {origins : List Float}

/-- The longer run is the same, or the cap ended the short one within it. -/
def CutShort (short long : Run σ) (cap : UInt64) : Prop :=
  long = short ∨ (short.opening = long.opening ∧ short.rounds <+: long.rounds ∧
    ∃ x, short.outcome = .failed (.iterationsExceeded cap x))

theorem CutShort.map (h : short.CutShort long cap) (g : σ → τ) :
    (short.map g).CutShort (long.map g) cap := by
  obtain rfl | ⟨hopening, hpre, hout⟩ := h
  · exact .inl rfl
  · exact .inr ⟨hopening, hpre.map _, hout⟩

theorem Protocol.refused_of_failed {fault : Fault} (h : run.Protocol f p cap origins)
    (hout : run.outcome = .failed fault) : ∀ o ∈ run.observations.getLast?, p.accepts o = false := by
  intro o ho
  rw [Bool.eq_false_iff]
  intro ha
  obtain ⟨root, hroot, -⟩ := (h.accepted o ho).1 ha
  cases hout.symm.trans hroot

/-- A run that its cap ends has asked the policy in every iteration. -/
theorem Protocol.of_exceeded (h : run.Protocol f p cap origins)
    (hout : run.outcome = .failed (.iterationsExceeded c x)) :
    c = cap ∧ run.observations.length = cap.toNat := by
  have hun := h.otherwise (h.refused_of_failed hout)
  rwa [hout] at hun

/-- The point that is reported with a cap is the last iterate. -/
def ReportsLast (run : Run σ) (origin : Float) : Prop :=
  ∀ c x, run.outcome = .failed (.iterationsExceeded c x) →
    (run.iterates origin).getLast? = some x

theorem ReportsLast.map (h : run.ReportsLast origin) (g : σ → τ) :
    (run.map g).ReportsLast origin := by
  intro c x hout
  rw [iterates, observations_map]
  exact h c x hout

theorem CutShort.truncates (h : short.CutShort long cap) (hlast : short.ReportsLast origin)
    (hshort : short.Protocol f p cap origins) : short.Truncates long cap origin := by
  have hexceeded : short.Exceeded → ∃ x, short.outcome = .failed (.iterationsExceeded cap x) ∧
      (short.iterates origin)[cap.toNat]? = some x := by
    rintro ⟨c, x, hout⟩
    obtain ⟨rfl, hlen⟩ := hshort.of_exceeded hout
    have hx := hlast c x hout
    rw [List.getLast?_eq_getElem?, iterates, List.length_cons, List.length_map, hlen] at hx
    exact ⟨x, hout, hx⟩
  obtain rfl | ⟨hopening, hpre, x, hout⟩ := h
  · exact ⟨fun _ => rfl, List.prefix_rfl, List.prefix_rfl, hexceeded⟩
  · exact ⟨fun hne => absurd ⟨cap, x, hout⟩ hne, queries_mono hopening hpre,
      observations_mono hpre, fun _ => hexceeded ⟨cap, x, hout⟩⟩

end Run

/-! ## Iterations -/

namespace Iteration

variable {m : Iteration σ} {f : Float → Float} {p : Policy} {i cap cap' : UInt64} {s : σ}
  {rs : List (Round σ)} {o : Outcome}

/-- The budgets are what is left of those of two runs. -/
theorem loop_cutShort (m : Iteration σ) (f : Float → Float) (p : Policy) (hcaps : cap ≤ cap')
    (hcap' : cap'.toNat + 1 < 2 ^ 64) {budget budget' : Nat} (hi : i.toNat ≤ cap.toNat + 1)
    (hbudget : i.toNat + budget = cap.toNat + 2) (hbudget' : i.toNat + budget' = cap'.toNat + 2)
    (s : σ) :
    m.loop f p cap' budget' i s [] = m.loop f p cap budget i s [] ∨
      (m.loop f p cap budget i s []).1 <+: (m.loop f p cap' budget' i s []).1 ∧
        ∃ x, (m.loop f p cap budget i s []).2 = .failed (.iterationsExceeded cap x) := by
  have hle := UInt64.le_iff_toNat_le.1 hcaps
  induction budget generalizing i s budget' with
  | zero => omega
  | succ budget ih =>
    by_cases hicap : i ≤ cap
    · have hicap' := UInt64.le_trans hicap hcaps
      obtain ⟨rest, rfl⟩ : ∃ rest, budget' = rest + 1 := ⟨budget' - 1, by omega⟩
      cases hround : m.round f p i s with
      | mk r next =>
        cases next with
        | stop o => exact .inl (by rw [loop_of_stop hicap hround, loop_of_stop hicap' hround])
        | go t =>
          have hi' := UInt64.le_iff_toNat_le.1 hicap
          have hsucc := toNat_succ (i := i) (by omega)
          rw [loop_of_go hicap hround, loop_of_go hicap' hround]
          have hrest : (i + 1).toNat + rest = cap'.toNat + 2 := by omega
          obtain heq | ⟨hpre, hout⟩ := ih (by omega) (by omega) hrest t
          · exact .inl (by rw [heq])
          · exact .inr ⟨List.cons_prefix_cons.2 ⟨rfl, hpre⟩, hout⟩
    · rw [loop_of_capped hicap]
      exact .inr ⟨List.nil_prefix, _, rfl⟩

theorem run_cutShort (m : Iteration σ) (f : Float → Float) (p : Policy) (hcaps : cap ≤ cap')
    (hcap' : cap'.toNat + 1 < 2 ^ 64) (opening : List Query) (s : σ) :
    (m.run f p cap opening s).CutShort (m.run f p cap' opening s) cap := by
  have hbudget (cap : UInt64) : (1 : UInt64).toNat + (cap.toNat + 1) = cap.toNat + 2 := by
    rw [UInt64.toNat_one]
    omega
  have hone : (1 : UInt64).toNat ≤ cap.toNat + 1 := Nat.le_add_left _ _
  obtain heq | ⟨hpre, hout⟩ :=
    m.loop_cutShort f p hcaps hcap' hone (hbudget cap) (hbudget cap') s
  · left
    unfold run runWithin
    rw [heq]
  · exact .inr ⟨rfl, hpre, hout⟩

/-- The induction is on the rounds: each leaves the point that it put to the policy as the latest. -/
theorem Course.getLast?_current (hm : m.Sequential) (h : m.Course f p cap i s rs o) {c : UInt64}
    {x : Float} (ho : o = .failed (.iterationsExceeded c x)) :
    (m.latest s :: (rs.filterMap Round.observation).map Observation.current).getLast? = some x := by
  induction h with
  | cut => cases ho
  | capped =>
    cases ho
    rfl
  | last hi hstep =>
    cases hstep with
    | refused hp =>
      obtain ⟨y, rfl | rfl⟩ := hm.fault _ _ _ hp
      · cases ho
      · cases ho
    | nonFinite => cases ho
    | zero => cases ho
    | accepted => cases ho
  | next hi hstep hrest ih =>
    cases hstep with
    | rejected =>
      have hlast := ih ho
      rw [hm.latest_absorb] at hlast
      exact List.getLast?_cons_cons.trans hlast

theorem run_reportsLast (hm : m.Sequential) (f : Float → Float) (p : Policy) (cap : UInt64)
    (opening : List Query) (s : σ) : (m.run f p cap opening s).ReportsLast (m.latest s) :=
  fun _ _ hout => (m.run_course f p cap opening s).getLast?_current hm hout

end Iteration

/-! ## Solvers -/

section

variable {f : Float → Float} {p : Policy} {cap cap' : UInt64}

namespace Rule

variable {μ : Type} {rule : Rule μ}

theorem solve_cutShort (rule : Rule μ) (f : Float → Float) (p : Policy) (b : Bracket)
    (hcaps : cap ≤ cap') (hcap' : cap'.toNat + 1 < 2 ^ 64) :
    (rule.solve f b cap p).CutShort (rule.solve f b cap' p) cap := by
  cases h : (Enclosure.ofBracket f b).result with
  | error fault =>
    rw [solve_of_refused h, solve_of_refused h]
    exact .inl rfl
  | ok e =>
    cases hroot : e.endpointRoot with
    | some x =>
      rw [solve_of_endpointRoot h hroot, solve_of_endpointRoot h hroot]
      exact .inl rfl
    | none =>
      rw [solve_of_opened h hroot, solve_of_opened h hroot]
      exact rule.iteration.run_cutShort f p hcaps hcap' _ _

theorem solve_reportsLast (hrule : rule.iteration.Sequential) (f : Float → Float) (p : Policy)
    (b : Bracket) (cap : UInt64) : (rule.solve f b cap p).ReportsLast b.lo := by
  cases h : (Enclosure.ofBracket f b).result with
  | error fault =>
    rw [solve_of_refused h]
    obtain rfl | rfl | rfl := Enclosure.fault_of_ofBracket h <;> rintro c x ⟨⟩
  | ok e =>
    cases hroot : e.endpointRoot with
    | some x =>
      rw [solve_of_endpointRoot h hroot]
      rintro c y ⟨⟩
    | none =>
      rw [solve_of_opened h hroot]
      obtain rfl := Enclosure.eq_of_ofBracket h
      exact rule.iteration.run_reportsLast hrule f p cap _ _

end Rule

theorem Method.solve_truncates (method : Method) (f : Float → Float) (p : Policy) (b : Bracket)
    (hcaps : cap ≤ cap') (hcap' : cap'.toNat + 1 < 2 ^ 64) :
    (method.solve f b cap p).Truncates (method.solve f b cap' p) cap b.lo := by
  have hle := UInt64.le_iff_toNat_le.1 hcaps
  refine Run.CutShort.truncates ?_ ?_ (method.solve_protocol b (by omega))
  · rw [method.solve_eq, method.solve_eq]
    exact (method.rule.solve_cutShort f p b hcaps hcap').map _
  · rw [method.solve_eq]
    exact (Rule.solve_reportsLast method.rule_sequential f p b cap).map _

namespace OpenMethod

theorem solve_cutShort (d : OpenMethod) (f : Float → Float) (p : Policy) (start : Float)
    (hcaps : cap ≤ cap') (hcap' : cap'.toNat + 1 < 2 ^ 64) :
    (d.solve f start cap p).CutShort (d.solve f start cap' p) cap := by
  unfold solve
  dsimp only
  split
  · exact .inl rfl
  · split
    · exact .inl rfl
    · split
      · exact .inl rfl
      · exact d.iteration.run_cutShort f p hcaps hcap' _ _

theorem solve_reportsLast (d : OpenMethod) (f : Float → Float) (p : Policy) (start : Float)
    (cap : UInt64) : (d.solve f start cap p).ReportsLast start := by
  unfold solve
  dsimp only
  split
  · rintro c x ⟨⟩
  · split
    · rintro c x ⟨⟩
    · split
      · rintro c x ⟨⟩
      · exact d.iteration.run_reportsLast d.sequential f p cap _ _

theorem solve_truncates (d : OpenMethod) (f : Float → Float) (p : Policy) (start : Float)
    (hcaps : cap ≤ cap') (hcap' : cap'.toNat + 1 < 2 ^ 64) :
    (d.solve f start cap p).Truncates (d.solve f start cap' p) cap start := by
  have hle := UInt64.le_iff_toNat_le.1 hcaps
  exact (d.solve_cutShort f p start hcaps hcap').truncates (d.solve_reportsLast f p start cap)
    (d.solve_protocol start (by omega))

end OpenMethod

end

/-- The smaller cap truncates the runs of all five solvers, with any function, policy and start,
unless the other is the greatest count. -/
theorem solvers_truncated_by_cap (f : Float → Float) (p : Policy) {cap cap' : UInt64}
    (hcaps : cap ≤ cap') (hcap' : cap'.toNat + 1 < 2 ^ 64) :
    (∀ (method : Method) (b : Bracket),
      (method.solve f b cap p).Truncates (method.solve f b cap' p) cap b.lo) ∧
    (∀ (d1 : Float → Float) (start : Float),
      (newton f d1 start cap p).Truncates (newton f d1 start cap' p) cap start) ∧
    ∀ (d1 d2 : Float → Float) (start : Float),
      (halley f d1 d2 start cap p).Truncates (halley f d1 d2 start cap' p) cap start :=
  ⟨fun method b => method.solve_truncates f p b hcaps hcap',
    fun d1 start => (newtonMethod d1).solve_truncates f p start hcaps hcap',
    fun d1 d2 start => (halleyMethod d1 d2).solve_truncates f p start hcaps hcap'⟩

/-- Bisection of the identity between -1 and 2 takes three iterations to a value within 0.2, with a cap
of 3 or of 9. Newton's method with the slope 2 halves its iterates and gets from 1 to 0.5 with a cap
of 1, on the way to 0.25 with a cap of 2. -/
theorem solvers_truncated_by_cap_of_identity :
    ((3 : UInt64) ≤ 9 ∧ (9 : UInt64).toNat + 1 < 2 ^ 64 ∧
      let run := fun cap =>
        Method.bisection.solve (fun x => x) ⟨⟨-1, 2⟩, rfl, rfl, by decide⟩ cap (.residual 0.2);
      (run 3).outcome = .found ⟨0.125, 3, 0.125⟩ ∧ run 9 = run 3) ∧
    (1 : UInt64) ≤ 2 ∧ (2 : UInt64).toNat + 1 < 2 ^ 64 ∧
      let run := fun cap => newton (fun x => x) (fun _ => 2) 1 cap (.residual 0.2);
      (run 2).outcome = .failed (.iterationsExceeded 2 0.25) ∧
        (run 1).queries <+: (run 2).queries ∧
        ∃ x, (run 1).outcome = .failed (.iterationsExceeded 1 x) ∧
          ((run 1).iterates 1)[1]? = some x := by
  have hfound : (Method.bisection.solve (fun x => x) ⟨⟨-1, 2⟩, rfl, rfl, by decide⟩ 3
      (.residual 0.2)).outcome = .found ⟨0.125, 3, 0.125⟩ := by decide +kernel
  have hexceeded : (newton (fun x => x) (fun _ => 2) 1 2 (.residual 0.2)).outcome =
      .failed (.iterationsExceeded 2 0.25) := by decide +kernel
  have h39 : (3 : UInt64) ≤ 9 := by decide
  have h12 : (1 : UInt64) ≤ 2 := by decide
  have hbisection := (solvers_truncated_by_cap (fun x => x) (.residual 0.2) h39 (by decide)).1
    .bisection ⟨⟨-1, 2⟩, rfl, rfl, by decide⟩
  have hnewton := (solvers_truncated_by_cap (fun x => x) (.residual 0.2) h12 (by decide)).2.1
    (fun _ => 2) 1
  refine ⟨⟨h39, by decide, hfound, hbisection.same ?_⟩, h12, by decide, hexceeded,
    hnewton.queries, hnewton.exceeded ⟨2, 0.25, hexceeded⟩⟩
  rintro ⟨c, x, hout⟩
  cases hfound.symm.trans hout

end ZeroSearch
