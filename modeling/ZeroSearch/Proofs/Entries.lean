import Mathlib
import ZeroSearch.Proofs.Calls
import ZeroSearch.Proofs.Signs
import ZeroSearch.Proofs.Survey

/-!
# What a survey reports

A survey is its scan with every bracket solved on the spot. The brackets that a scan finds are
`Interval.Marked` by the function, as a zero or by a sign change, so the solver never turns one down
for want of a sign change. A root lies in its bracket, and the brackets follow each other, so the
roots are in order.
-/

namespace ZeroSearch

open Binary64

/-! ## Marked intervals -/

/-- A zero of `f`, as a single point, or ends where `f` has opposite signs. -/
def Interval.Marked (f : Float → Float) (i : Interval) : Prop :=
  i.lo = i.hi ∧ (f i.lo == 0) = true ∨ i.lo < i.hi ∧ oppositeSigns (f i.lo) (f i.hi) = true

section

variable {f : Float → Float} {a b : Float} {xs : List Float} {i : Interval}

theorem marked_of_mem_findingsAt (hi : i ∈ findingsAt f a) : i.Marked f := by
  obtain ⟨hz, hat⟩ | ⟨-, hat⟩ := findingsAt_cases f a
  · rw [hat, List.mem_singleton] at hi
    subst hi
    exact .inl ⟨rfl, hz⟩
  · rw [hat] at hi
    cases hi

theorem marked_of_mem_findingsBetween (hab : a < b) (hi : i ∈ findingsBetween f a b) :
    i.Marked f := by
  unfold findingsBetween at hi
  split at hi
  · rename_i hz
    rw [List.mem_singleton] at hi
    subst hi
    exact .inl ⟨rfl, hz⟩
  · split at hi
    · rename_i hsign
      rw [List.mem_singleton] at hi
      subst hi
      exact .inr ⟨hab, (Bool.and_eq_true_iff.1 hsign).2⟩
    · cases hi

theorem marked_of_mem_findingsAlong (hxs : (a :: xs).Pairwise (· < ·))
    (hi : i ∈ findingsAlong f (a :: xs)) : i.Marked f := by
  induction xs generalizing a with
  | nil => cases hi
  | cons b xs ih =>
    obtain ⟨hlt, hxs⟩ := List.pairwise_cons.1 hxs
    rw [findingsAlong_cons_cons, List.mem_append] at hi
    obtain hi | hi := hi
    · exact marked_of_mem_findingsBetween (hlt b List.mem_cons_self) hi
    · exact ih hxs hi

theorem Grid.marked_of_mem_collect {g : Grid} {b : Bracket} (hb : b ∈ g.collect f) :
    b.Marked f := by
  have hmem : b.toInterval ∈ findings f g.points :=
    g.collect_eq_findings f ▸ List.mem_map_of_mem hb
  rw [Grid.points, findings_cons, List.mem_append] at hmem
  obtain hi | hi := hmem
  · exact marked_of_mem_findingsAt hi
  · exact marked_of_mem_findingsAlong g.pairwise_points hi

end

/-! ## Legs -/

variable {g : Grid} {f : Float → Float}

section

/-- The last boundary evaluated on a leg is the one that completes its bracket. -/
def Leg.Completes (leg : Leg g) : Prop :=
  ∀ b ∈ leg.cursor.current, leg.visited.getLast? = some b.hi

namespace Cursor

theorem hi_of_step {c : Cursor g} {h : c.x < g.hi} {b : Bracket}
    (hb : (c.step f h).current = some b) : b.hi = (c.step f h).x := by
  unfold step bracketAt at hb
  dsimp only at hb
  split at hb
  · cases hb
    rfl
  · split at hb
    · cases hb
      rfl
    · cases hb

theorem seek_completes (f : Float → Float) (c : Cursor g) : (seek f c []).Completes := by
  refine seek_induction (f := f) (motive := fun _ leg => leg.Completes) ?_ ?_ ?_ c
  · intro c h hfound b hb
    rw [hi_of_step hb]
    rfl
  · intro c h leg hnone ih b hb
    have hlast := ih b hb
    have hne : leg.visited ≠ [] := fun hnil => by
      rw [hnil] at hlast
      cases hlast
    rw [List.getLast?_cons_of_ne_nil hne]
    exact hlast
  · intro c h b hb
    cases hb

theorem start_completes (g : Grid) (f : Float → Float) : (start g f).Completes := by
  unfold start
  dsimp only
  split
  · intro b hb
    cases hb
    rfl
  · intro b hb
    rw [seek_past] at hb ⊢
    have hlast := seek_completes f _ b hb
    rw [List.getLast?_append, hlast]
    rfl

end Cursor

theorem Grid.scanFrom_completes {leg : Leg g} (hleg : leg.Completes) :
    ∀ l ∈ (scanFrom f leg []).found, l.1.getLast? = some l.2.hi := by
  refine scanFrom_induction (f := f) (motive := fun leg pass =>
    leg.Completes → ∀ l ∈ pass.found, l.1.getLast? = some l.2.hi) ?_ ?_ leg hleg
  · intro leg hnone hleg l hl
    cases hl
  · intro leg bracket pass hsome ih hleg
    exact List.forall_mem_cons.2 ⟨hleg bracket hsome, ih (leg.cursor.seek_completes f)⟩

end

/-! ## Solving -/

namespace Enclosure

variable {f : Float → Float} {b : Bracket}

theorem endpointRoot_of_zero {e : Enclosure} (hz : (e.fLo == 0) = true) :
    e.endpointRoot = some e.lo := if_pos hz

theorem ofBracket_of_zero (hlo : b.lo = b.hi) (hz : (f b.lo == 0) = true) :
    (ofBracket f b).result = .ok ⟨b.toInterval, f b.lo, f b.hi⟩ := by
  have hfin : ((f b.lo).isFinite && (f b.hi).isFinite) = true := by
    rw [← hlo, isFinite_of_beq_zero hz]
    rfl
  have hroot := endpointRoot_of_zero (e := ⟨b.toInterval, f b.lo, f b.hi⟩) hz
  rw [result_ofBracket, hfin, hroot]
  exact if_neg Bool.false_ne_true

theorem not_marked_of_ofBracket (h : (ofBracket f b).result = .error .notABracket) :
    ¬ b.Marked f := by
  obtain h | h | ⟨-, hroot, hsign⟩ := ofBracket_eq_error h
  · cases h
  · cases h
  · rintro (⟨-, hz⟩ | ⟨-, hopp⟩)
    · have hlo := (ne_zero_of_endpointRoot hroot).1
      rw [hz] at hlo
      cases hlo
    · rw [hopp] at hsign
      cases hsign

end Enclosure

theorem Rule.fault_of_solve {μ : Type} {rule : Rule μ} {f : Float → Float} {b : Bracket}
    {cap : UInt64} {p : Policy} {fault : Fault}
    (h : (rule.solve f b cap p).outcome = .failed fault) :
    (Enclosure.ofBracket f b).result = .error fault ∨ (∃ x, fault = .iterationsExceeded cap x) ∨
      ∃ i x, fault = .nonFinite i x := by
  cases hopen : (Enclosure.ofBracket f b).result with
  | error refusal =>
    rw [solve_of_refused hopen] at h
    cases h
    exact .inl rfl
  | ok e =>
    cases hroot : e.endpointRoot with
    | some x =>
      rw [solve_of_endpointRoot hopen hroot] at h
      cases h
    | none =>
      rw [solve_of_opened hopen hroot] at h
      have hrun := rule.iteration.run_course f p cap [.value b.lo, .value b.hi] (rule.start e)
      rw [h] at hrun
      obtain hend | ⟨t, -, hend⟩ | ⟨r, -, i, s, -, hstep⟩ :=
        hrun.ending (P := fun _ => True) (fun _ _ => trivial) trivial
      · cases hend
      · cases hend
        exact .inr (.inl ⟨_, rfl⟩)
      · cases hstep with
        | refused hp => cases hp
        | nonFinite => exact .inr (.inr ⟨_, _, rfl⟩)

namespace Method

variable {f : Float → Float} {b : Bracket} {cap : UInt64} {p : Policy}

theorem solve_of_zero (method : Method) (hlo : b.lo = b.hi) (hz : (f b.lo == 0) = true) :
    (method.solve f b cap p).outcome = .found ⟨b.lo, 0, 0⟩ := by
  rw [method.solve_eq, Run.outcome_map, Rule.solve_of_endpointRoot
    (Enclosure.ofBracket_of_zero hlo hz) (Enclosure.endpointRoot_of_zero hz)]

theorem fault_of_solve (method : Method) (hb : b.Marked f) {fault : Fault}
    (h : (method.solve f b cap p).outcome = .failed fault) :
    (∃ x, fault = .iterationsExceeded cap x) ∨ ∃ i x, fault = .nonFinite i x := by
  rw [method.solve_eq, Run.outcome_map] at h
  obtain hopen | hexceeded | hnonFinite := Rule.fault_of_solve h
  · obtain rfl | rfl | rfl := Enclosure.fault_of_ofBracket hopen
    · exact .inr ⟨_, _, rfl⟩
    · exact .inr ⟨_, _, rfl⟩
    · exact absurd hb (Enclosure.not_marked_of_ofBracket hopen)
  · exact .inl hexceeded
  · exact .inr hnonFinite

/-- A root is an exact zero, or the policy accepted it. -/
theorem residual_of_solve (method : Method) (hcap : cap.toNat + 1 < 2 ^ 64) {root : Root}
    (h : (method.solve f b cap p).outcome = .found root) :
    root.residual = 0 ∨ ∃ o : Observation, p.accepts o = true ∧ root.residual = o.value.abs := by
  have hprotocol := method.solve_protocol (f := f) (p := p) b hcap
  by_cases hno : ∀ o ∈ (method.solve f b cap p).observations.getLast?, p.accepts o = false
  · have hun := hprotocol.otherwise hno
    rw [h] at hun
    exact .inl hun.2.1
  · push Not at hno
    obtain ⟨o, ho, ha⟩ := hno
    have ha' : p.accepts o = true := Bool.eq_true_of_not_eq_false ha
    obtain ⟨root', hroot, -, -, hres⟩ := (hprotocol.accepted o ho).1 ha'
    obtain rfl : root = root' := by
      rw [h] at hroot
      cases hroot
      rfl
    have hvalue := (hprotocol.values o (List.mem_of_getLast? ho)).1
    exact .inr ⟨o, ha', by rw [hres, hvalue]⟩

end Method

theorem Settings.residual_le_of_accepts {s : Settings} {o : Observation}
    (h : s.policy.accepts o = true) : o.value.abs ≤ s.residualTolerance :=
  of_decide_eq_true (Bool.and_eq_true_iff.1 h).2

/-! ## Reports -/

def Outcome.root? : Outcome → Option Root
  | found root => some root
  | failed _ => none
  | unfinished => none

theorem Outcome.root?_eq_some {o : Outcome} {root : Root} :
    o.root? = some root ↔ o = .found root := by
  cases o <;> simp [root?]

/-- Every bracket of the scan, solved where the scan completed it: the evaluations of a leg are
followed by those of its bracket. -/
structure Survey.Reports (s : Survey) (g : Grid) (f : Float → Float) (settings : Settings)
    (method : Method) : Prop where
  findings : s.result = (g.collect f).map fun b =>
    ⟨b, (method.solve f b settings.maxIterations settings.policy).outcome⟩
  queries : ∃ (legs : List (List Float × Bracket)) (tail : List Float),
    legs.map Prod.snd = g.collect f ∧ legs.flatMap Prod.fst ++ tail = (g.scan f).visited ∧
    (∀ leg ∈ legs, leg.1.getLast? = some leg.2.hi) ∧
    s.queries = legs.flatMap (fun leg => leg.1.map Query.value ++
      (method.solve f leg.2 settings.maxIterations settings.policy).queries) ++
        tail.map Query.value
  degenerate : ∀ e ∈ s.result, e.bracket.isDegenerate = true →
    ∃ x, e.bracket.toInterval = ⟨x, x⟩ ∧ e.outcome = .found ⟨x, 0, 0⟩
  sound : ∀ e ∈ s.result, ∀ root, e.outcome = .found root →
    e.bracket.contains root.x = true ∧ root.residual ≤ settings.residualTolerance
  ordered : (s.result.filterMap (·.outcome.root?)).Pairwise fun r t => r.x ≤ t.x
  failures : ∀ e ∈ s.result, ∀ fault, e.outcome = .failed fault →
    (∃ x, fault = .iterationsExceeded settings.maxIterations x) ∨ ∃ i x, fault = .nonFinite i x
  finished : ∀ e ∈ s.result, e.outcome ≠ .unfinished

theorem Bracket.pairwise_of_isChain {bs : List Bracket}
    (h : bs.IsChain fun p q => p.hi ≤ q.lo) : bs.Pairwise fun p q => p.hi ≤ q.lo := by
  have : IsTrans Bracket fun p q => p.hi ≤ q.lo :=
    ⟨fun p q r hpq hqr => Binary64.le_trans hpq (Binary64.le_trans q.lo_le_hi hqr)⟩
  exact h.pairwise

namespace Grid

variable {settings : Settings} {method : Method} {e : Finding}

theorem pairwise_collect (g : Grid) (f : Float → Float) :
    (g.collect f).Pairwise fun p q => p.hi ≤ q.lo := by
  have hchain : (findings f g.points).IsChain Follows := isChain_findings g.pairwise_points
  rw [← g.collect_eq_findings f, List.isChain_map] at hchain
  exact Bracket.pairwise_of_isChain (hchain.imp fun _ _ h => h.1)

theorem result_survey (g : Grid) (f : Float → Float) (settings : Settings) (method : Method) :
    (g.survey f settings method).result = (g.collect f).map fun b =>
      ⟨b, (method.solve f b settings.maxIterations settings.policy).outcome⟩ := by
  rw [survey_eq, collect, Pass.brackets, List.map_map]
  rfl

theorem of_mem_survey (he : e ∈ (g.survey f settings method).result) :
    e.bracket ∈ g.collect f ∧ e.bracket.Marked f ∧
      e.outcome = (method.solve f e.bracket settings.maxIterations settings.policy).outcome := by
  rw [result_survey] at he
  obtain ⟨b, hb, rfl⟩ := List.mem_map.1 he
  exact ⟨hb, marked_of_mem_collect hb, rfl⟩

theorem contains_of_found (he : e ∈ (g.survey f settings method).result) {root : Root}
    (h : e.outcome = .found root) : e.bracket.contains root.x = true := by
  obtain ⟨-, -, ho⟩ := of_mem_survey he
  have hstays := method.solve_staysIn f e.bracket settings.maxIterations settings.policy
  refine hstays.outcome root.x ?_
  rw [← ho, h]
  rfl

theorem ordered_roots (g : Grid) (f : Float → Float) (settings : Settings) (method : Method) :
    ((g.survey f settings method).result.filterMap (·.outcome.root?)).Pairwise
      fun r t => r.x ≤ t.x := by
  have hpairs : (g.survey f settings method).result.Pairwise fun e t =>
      e.bracket.hi ≤ t.bracket.lo := by
    rw [result_survey, List.pairwise_map]
    exact g.pairwise_collect f
  refine List.pairwise_filterMap.2 (hpairs.imp_of_mem fun he ht hlt r hr s hs => ?_)
  have hr := Interval.contains_eq_true.1 (contains_of_found he (Outcome.root?_eq_some.1 hr))
  have hs := Interval.contains_eq_true.1 (contains_of_found ht (Outcome.root?_eq_some.1 hs))
  exact Binary64.le_trans hr.2 (Binary64.le_trans hlt hs.1)

theorem survey_reports (g : Grid) (f : Float → Float) (settings : Settings) (method : Method)
    (hcap : settings.maxIterations.toNat + 1 < 2 ^ 64)
    (hres : 0 ≤ settings.residualTolerance) :
    (g.survey f settings method).Reports g f settings method where
  findings := g.result_survey f settings method
  queries := by
    refine ⟨(g.scan f).found, (g.scan f).tail, rfl, rfl,
      scanFrom_completes (Cursor.start_completes g f), ?_⟩
    rw [survey_eq]
  degenerate e he hdeg := by
    obtain ⟨-, hmarked, ho⟩ := of_mem_survey he
    obtain ⟨heq, hz⟩ | ⟨hlt, -⟩ := hmarked
    · exact ⟨e.bracket.lo, congrArg (Interval.mk e.bracket.lo) heq.symm,
        ho.trans (method.solve_of_zero heq hz)⟩
    · rw [Bracket.isDegenerate, not_beq_of_lt hlt] at hdeg
      cases hdeg
  sound e he root hroot := by
    obtain ⟨-, -, ho⟩ := of_mem_survey he
    refine ⟨contains_of_found he hroot, ?_⟩
    obtain hz | ⟨o, ha, hvalue⟩ := method.residual_of_solve hcap (ho.symm.trans hroot)
    · rwa [hz]
    · rw [hvalue]
      exact Settings.residual_le_of_accepts ha
  ordered := g.ordered_roots f settings method
  failures e he fault hfault := by
    obtain ⟨-, hmarked, ho⟩ := of_mem_survey he
    exact method.fault_of_solve hmarked (ho.symm.trans hfault)
  finished e he := by
    obtain ⟨-, -, ho⟩ := of_mem_survey he
    rw [ho]
    exact method.solve_finishes f e.bracket settings.policy hcap

end Grid

/-- What is wrong with the arguments of a survey: the step tolerance is looked at first, then the
residual tolerance, then the window. -/
def objection? (bounds : Bounds) (window : Float) (settings : Settings) : Option Fault :=
  if ¬ (0 < settings.stepTolerance ∧ settings.stepTolerance.isFinite = true) then
    some (.invalidTolerance settings.stepTolerance)
  else if ¬ (0 ≤ settings.residualTolerance ∧ settings.residualTolerance.isFinite = true) then
    some (.invalidTolerance settings.residualTolerance)
  else if ¬ (window.isFinite = true ∧ 0 < window ∧ ¬ bounds.width < window) then
    some .invalidWindow
  else none

section

variable {bounds : Bounds} {window : Float} {settings : Settings}

theorem Grid.ofSettings_of_objection {fault : Fault}
    (h : objection? bounds window settings = some fault) :
    ofSettings bounds window settings = .error fault := by
  rw [ofSettings_eq]
  unfold objection? at h
  split at h
  · rename_i hstep
    cases h
    exact if_neg hstep
  · rename_i hstep
    rw [if_pos (not_not.1 hstep)]
    split at h
    · rename_i hres
      cases h
      exact if_neg hres
    · rename_i hres
      rw [if_pos (not_not.1 hres)]
      split at h
      · rename_i hwindow
        cases h
        exact dif_neg hwindow
      · cases h

theorem admitted_of_objection (h : objection? bounds window settings = none) :
    (0 < settings.stepTolerance ∧ settings.stepTolerance.isFinite = true) ∧
      (0 ≤ settings.residualTolerance ∧ settings.residualTolerance.isFinite = true) ∧
      window.isFinite = true ∧ 0 < window ∧ ¬ bounds.width < window := by
  unfold objection? at h
  split at h
  · cases h
  · split at h
    · cases h
    · split at h
      · cases h
      · rename_i hstep hres hwindow
        exact ⟨not_not.1 hstep, not_not.1 hres, not_not.1 hwindow⟩

/-- Arguments are refused for the first thing that is wrong with them, and then the function is not
evaluated at all. Otherwise the survey reports the brackets of the scan, each with what the method
makes of it. -/
theorem findRoots_reports (f : Float → Float) (bounds : Bounds) (window : Float)
    (settings : Settings) (method : Method) :
    (∀ fault, objection? bounds window settings = some fault →
      findRoots f bounds window settings method = ⟨.error fault, []⟩) ∧
    (objection? bounds window settings = none → settings.maxIterations.toNat + 1 < 2 ^ 64 →
      ∃ (g : Grid) (survey : Survey), g.bounds = bounds ∧ g.window = window ∧
        findRoots f bounds window settings method = ⟨.ok survey.result, survey.queries⟩ ∧
        survey.Reports g f settings method) := by
  refine ⟨fun fault h => findRoots_of_refused (Grid.ofSettings_of_objection h), fun h hcap => ?_⟩
  obtain ⟨hstep, hres, hfin, hpos, hle⟩ := admitted_of_objection h
  let g : Grid := ⟨bounds, window, hfin, hpos, hle⟩
  exact ⟨g, g.survey f settings method, rfl, rfl,
    findRoots_of_admitted (g.ofSettings_self hstep hres),
    g.survey_reports f settings method hcap hres.1⟩

/-- Of three bad arguments the step tolerance is named. With good ones the sign change of `x + 0.5`
in the one window is solved. -/
theorem findRoots_reports_unitBelowZero :
    (objection? Grid.unitBelowZero.bounds 2 ⟨100, 0, -1⟩ = some (.invalidTolerance 0) ∧
      findRoots (· + 0.5) Grid.unitBelowZero.bounds 2 ⟨100, 0, -1⟩ .illinois =
        ⟨.error (.invalidTolerance 0), []⟩) ∧
    objection? Grid.unitBelowZero.bounds 1 {} = none ∧
    ∃ survey : Survey, findRoots (· + 0.5) Grid.unitBelowZero.bounds 1 {} .illinois =
        ⟨.ok survey.result, survey.queries⟩ ∧
      survey.result.map Finding.outcome = [.found ⟨-0.5, 1, 0⟩] := by
  have hbad : objection? Grid.unitBelowZero.bounds 2 ⟨100, 0, -1⟩ =
      some (.invalidTolerance 0) := by decide +kernel
  have hgood : objection? Grid.unitBelowZero.bounds 1 {} = none := by decide +kernel
  refine ⟨⟨hbad, (findRoots_reports _ _ _ _ _).1 _ hbad⟩, hgood, ?_⟩
  obtain ⟨g, survey, hbounds, hwindow, hok, hreports⟩ :=
    (findRoots_reports (· + 0.5) Grid.unitBelowZero.bounds 1 {} .illinois).2 hgood (by decide)
  refine ⟨survey, hok, ?_⟩
  obtain rfl : g = Grid.unitBelowZero := by
    obtain ⟨bounds, window⟩ := g
    cases hbounds
    cases hwindow
    rfl
  have hfind : (Grid.unitBelowZero.collect (· + 0.5)).map Bracket.toInterval = [⟨-1, 0.0⟩] := by
    have hat : findingsAt (· + 0.5) (-1) = [] := if_neg (by decide +kernel)
    have hbetween : findingsBetween (· + 0.5) (-1) 0.0 = [⟨-1, 0.0⟩] := by
      rw [findingsBetween, if_neg (by decide +kernel), if_pos (by decide +kernel)]
    rw [Grid.collect_eq_findings, Grid.points_unitBelowZero, findings_cons,
      findingsAlong_cons_cons, hat, hbetween]
    rfl
  rw [hreports.findings]
  generalize Grid.unitBelowZero.collect (· + 0.5) = bs at hfind
  obtain ⟨b, rfl⟩ : ∃ b : Bracket, bs = [b] := by
    rw [← List.length_eq_one_iff, ← List.length_map, hfind]
    rfl
  obtain rfl : b = ⟨⟨-1, 0.0⟩, rfl, rfl, by decide⟩ := by
    obtain ⟨i, hlo, hhi, hle⟩ := b
    obtain rfl : i = ⟨-1, 0.0⟩ := List.singleton_inj.1 hfind
    rfl
  decide +kernel

end

end ZeroSearch
