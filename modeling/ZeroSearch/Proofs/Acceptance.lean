import Mathlib
import ZeroSearch.Proofs.Calls

/-!
# Runs that differ in the policy

A policy decides where a run stops and nothing else. Every run is the one that the policy which
accepts nothing would have had, up to the first observation that its own policy accepts
(`Iteration.run_stoppedBy`). So runs of one solver are cut from the same rounds, and what a change
of the policy does to a run is read off the place of the cut: a policy that accepts more cuts
sooner, `either` cuts where the first of the two does, and `both` not before either of them.
-/

namespace ZeroSearch

/-- Accepts nothing. -/
def Policy.never : Policy := .test (.custom none fun _ => false)

theorem Policy.never_accepts (o : Observation) : never.accepts o = false := rfl

theorem Policy.accepts_of_both {p q : Policy} {o : Observation}
    (h : (both p q).accepts o = true) : p.accepts o = true ∧ q.accepts o = true := by
  rwa [accepts, Bool.and_eq_true_iff] at h

theorem Policy.accepts_either_comm (p q : Policy) : (either p q).accepts = (either q p).accepts := by
  funext o
  rw [accepts, accepts, Bool.or_comm]

/-- The root that a run returns when the observation is accepted. -/
def Observation.root (o : Observation) : Root := ⟨o.current, o.iteration, o.value.abs⟩

variable {σ τ : Type} {p q : Policy}

/-- The observation of a round, if the policy accepts it. -/
def Round.accepted (r : Round σ) (p : Policy) : Option Observation := r.observation.filter p.accepts

/-- The rounds up to the first that the policy accepts and the outcome there, or all of them and the
outcome `o`. -/
def cut (p : Policy) (o : Outcome) : List (Round σ) → List (Round σ) × Outcome
  | [] => ([], o)
  | r :: rs =>
    match r.accepted p with
    | some obs => ([r], .found obs.root)
    | none => (r :: (cut p o rs).1, (cut p o rs).2)

/-- The run cut off at the first observation that the policy accepts. -/
def Run.stoppedBy (run : Run σ) (p : Policy) : Run σ :=
  ⟨run.opening, (cut p run.outcome run.rounds).1, (cut p run.outcome run.rounds).2⟩

/-! ## Cutting -/

section

variable {r : Round σ} {rs : List (Round σ)} {o : Outcome} {obs : Observation}

theorem Round.accepted_eq_some :
    r.accepted p = some obs ↔ r.observation = some obs ∧ p.accepts obs = true :=
  Option.filter_eq_some_iff

theorem Round.accepted_of_looser (hpq : ∀ o, p.accepts o = true → q.accepts o = true)
    (h : r.accepted p = some obs) : r.accepted q = some obs := by
  rw [accepted_eq_some] at h ⊢
  exact ⟨h.1, hpq obs h.2⟩

theorem cut_of_some (h : r.accepted p = some obs) (o : Outcome) (rs : List (Round σ)) :
    cut p o (r :: rs) = ([r], .found obs.root) := by
  rw [cut, h]

theorem cut_of_none (h : r.accepted p = none) (o : Outcome) (rs : List (Round σ)) :
    cut p o (r :: rs) = (r :: (cut p o rs).1, (cut p o rs).2) := by
  rw [cut, h]

/-- The cut is at the end of the rounds that are left. -/
def CutAt (p : Policy) (rounds : List (Round σ)) (o : Outcome) : Prop :=
  ∃ past r obs, rounds = past ++ [r] ∧ r.accepted p = some obs ∧ o = .found obs.root

theorem Round.accepted_congr (hpq : p.accepts = q.accepts) (r : Round σ) :
    r.accepted p = r.accepted q := by
  rw [accepted, accepted, hpq]

theorem cut_congr (hpq : p.accepts = q.accepts) (o : Outcome) (rs : List (Round σ)) :
    cut p o rs = cut q o rs := by
  induction rs with
  | nil => rfl
  | cons r rs ih => rw [cut, cut, r.accepted_congr hpq, ih]

theorem CutAt.cons (h : CutAt p rs o) (r : Round σ) : CutAt p (r :: rs) o := by
  obtain ⟨past, q, obs, rfl, hq, rfl⟩ := h
  exact ⟨r :: past, q, obs, rfl, hq, rfl⟩

theorem cutAt_singleton (h : r.accepted p = some obs) : CutAt p [r] (.found obs.root) :=
  ⟨[], r, obs, rfl, h, rfl⟩

/-- A policy that accepts more cuts at the same place or sooner. -/
theorem cut_of_looser (hpq : ∀ o, p.accepts o = true → q.accepts o = true) (o : Outcome)
    (rs : List (Round σ)) :
    cut q o rs = cut p o rs ∨
      CutAt q (cut q o rs).1 (cut q o rs).2 ∧ (cut q o rs).1 <+: (cut p o rs).1 := by
  induction rs with
  | nil => exact .inl rfl
  | cons r rs ih =>
    cases hp : r.accepted p with
    | some obs =>
      left
      rw [cut_of_some hp, cut_of_some (Round.accepted_of_looser hpq hp)]
    | none =>
      rw [cut_of_none hp]
      cases hq : r.accepted q with
      | some obs =>
        right
        rw [cut_of_some hq]
        exact ⟨cutAt_singleton hq, List.prefix_append [r] _⟩
      | none =>
        rw [cut_of_none hq]
        obtain heq | ⟨hcut, hpre⟩ := ih
        · left
          rw [heq]
        · right
          exact ⟨hcut.cons r, List.cons_prefix_cons.2 ⟨rfl, hpre⟩⟩

theorem Round.accepted_either (r : Round σ) (p q : Policy) :
    r.accepted (.either p q) = (r.accepted p).or (r.accepted q) := by
  unfold accepted
  cases r.observation with
  | none => rfl
  | some obs =>
    rw [Option.filter_some, Option.filter_some, Option.filter_some, Policy.accepts]
    cases p.accepts obs <;> cases q.accepts obs <;> rfl

/-- How often the policy is asked in some rounds. -/
def asked (rs : List (Round σ)) : Nat := rs.countP fun r => r.observation.isSome

theorem asked_pos (h : ∃ r ∈ rs, r.accepted p ≠ none) : 0 < asked rs := by
  obtain ⟨r, hr, haccepted⟩ := h
  obtain ⟨obs, hobs⟩ := Option.ne_none_iff_exists'.1 haccepted
  refine List.countP_pos_iff.2 ⟨r, hr, ?_⟩
  rw [(Round.accepted_eq_some.1 hobs).1]
  rfl

theorem asked_cons_lt {short long : List (Round σ)} (hr : r.accepted p = none)
    (hlt : (∃ t ∈ long, t.accepted p ≠ none) → asked short < asked long)
    (h : ∃ t ∈ r :: long, t.accepted p ≠ none) : asked (r :: short) < asked (r :: long) := by
  obtain ⟨t, ht, haccepted⟩ := h
  obtain rfl | ht := List.mem_cons.1 ht
  · exact absurd hr haccepted
  · rw [asked, asked, List.countP_cons, List.countP_cons]
    exact Nat.add_lt_add_right (hlt ⟨t, ht, haccepted⟩) _

/-- `either` cuts where one of its operands does, if one does at all. Where it is the second, the first
does not cut before some later call. -/
theorem cut_either (p q : Policy) (o : Outcome) (rs : List (Round σ)) :
    (cut (.either p q) o rs = cut p o rs ∧ CutAt p (cut p o rs).1 (cut p o rs).2) ∨
    (cut (.either p q) o rs = cut q o rs ∧ CutAt q (cut q o rs).1 (cut q o rs).2 ∧
      ((∃ r ∈ (cut p o rs).1, r.accepted p ≠ none) →
        asked (cut q o rs).1 < asked (cut p o rs).1)) ∨
    (cut (.either p q) o rs = cut p o rs ∧ cut q o rs = cut p o rs) := by
  induction rs with
  | nil => exact .inr (.inr ⟨rfl, rfl⟩)
  | cons r rs ih =>
    have heither := r.accepted_either p q
    cases hp : r.accepted p with
    | some obs =>
      rw [hp, Option.some_or] at heither
      rw [cut_of_some hp, cut_of_some heither]
      exact .inl ⟨rfl, cutAt_singleton hp⟩
    | none =>
      rw [hp, Option.none_or] at heither
      cases hq : r.accepted q with
      | some obs =>
        rw [hq] at heither
        rw [cut_of_none hp, cut_of_some hq, cut_of_some heither]
        exact .inr (.inl ⟨rfl, cutAt_singleton hq, asked_cons_lt hp asked_pos⟩)
      | none =>
        rw [hq] at heither
        rw [cut_of_none hp, cut_of_none hq, cut_of_none heither]
        obtain ⟨heq, hcut⟩ | ⟨heq, hcut, hlt⟩ | ⟨heq, hsame⟩ := ih
        · rw [heq]
          exact .inl ⟨rfl, hcut.cons r⟩
        · rw [heq]
          exact .inr (.inl ⟨rfl, hcut.cons r, asked_cons_lt hp hlt⟩)
        · rw [heq, hsame]
          exact .inr (.inr ⟨rfl, rfl⟩)

end

/-! ## Iterations -/

namespace Iteration

/-- The policy has no part in a round but to stop it. -/
theorem round_eq (m : Iteration σ) (f : Float → Float) (p : Policy) (i : UInt64) (s : σ) :
    m.round f p i s = ((m.round f .never i s).1,
      match (m.round f .never i s).1.accepted p with
      | some obs => .stop (.found obs.root)
      | none => (m.round f .never i s).2) := by
  unfold round
  cases m.propose i s with
  | error fault => rfl
  | ok x =>
    dsimp only
    cases (f x).isFinite with
    | false => rfl
    | true =>
      cases f x == 0 with
      | true => rfl
      | false =>
        cases ha : p.accepts ⟨m.previous i s x, x, f x, i⟩ with
        | true => simp [Round.accepted, Option.filter, ha, Policy.never_accepts, Observation.root]
        | false => simp [Round.accepted, Option.filter, ha, Policy.never_accepts]

theorem loop_eq_cut (m : Iteration σ) (f : Float → Float) (p : Policy) (cap : UInt64)
    (budget : Nat) (i : UInt64) (s : σ) :
    m.loop f p cap budget i s [] =
      cut p (m.loop f .never cap budget i s []).2 (m.loop f .never cap budget i s []).1 := by
  induction budget generalizing i s with
  | zero => rfl
  | succ budget ih =>
    by_cases hi : i ≤ cap
    · have hround := m.round_eq f p i s
      cases hnever : m.round f .never i s with
      | mk r next =>
        rw [hnever] at hround
        dsimp only at hround
        cases hr : r.accepted p with
        | some obs =>
          rw [hr] at hround
          rw [loop_of_stop hi hround]
          cases next with
          | stop o => rw [loop_of_stop hi hnever, cut_of_some hr]
          | go t => rw [loop_of_go hi hnever, cut_of_some hr]
        | none =>
          rw [hr] at hround
          cases next with
          | stop o => rw [loop_of_stop hi hround, loop_of_stop hi hnever, cut_of_none hr, cut]
          | go t => rw [loop_of_go hi hround, loop_of_go hi hnever, cut_of_none hr, ih]
    · rw [loop_of_capped hi, loop_of_capped hi, cut]

theorem run_stoppedBy (m : Iteration σ) (f : Float → Float) (p : Policy) (cap : UInt64)
    (opening : List Query) (s : σ) :
    m.run f p cap opening s = (m.run f .never cap opening s).stoppedBy p := by
  unfold run runWithin Run.stoppedBy
  rw [loop_eq_cut]

end Iteration

/-! ## Runs -/

namespace Run

variable {run : Run σ} {root : Root} {f : Float → Float} {cap : UInt64} {origins : List Float}

/-- The policy accepted the last observation of the run, and `root` is what it was accepted for. -/
def EndsAccepted (run : Run σ) (p : Policy) (root : Root) : Prop :=
  ∃ o ∈ run.observations.getLast?, p.accepts o = true ∧ root = o.root ∧ run.outcome = .found root

theorem endsAccepted_of_cutAt (h : CutAt p run.rounds run.outcome) :
    ∃ root, run.EndsAccepted p root := by
  obtain ⟨past, r, obs, hrounds, hr, hout⟩ := h
  obtain ⟨hobs, ha⟩ := Round.accepted_eq_some.1 hr
  refine ⟨obs.root, obs, ?_, ha, rfl, hout⟩
  rw [observations, hrounds, List.filterMap_append, List.filterMap_cons_some hobs,
    List.filterMap_nil, List.getLast?_concat]
  rfl

theorem EndsAccepted.exists_accepted (h : run.EndsAccepted p root) :
    ∃ r ∈ run.rounds, r.accepted p ≠ none := by
  obtain ⟨o, ho, ha, -⟩ := h
  obtain ⟨r, hr, hobs⟩ := List.mem_filterMap.1 (List.mem_of_getLast? ho)
  exact ⟨r, hr, Option.ne_none_iff_exists'.2 ⟨o, Round.accepted_eq_some.2 ⟨hobs, ha⟩⟩⟩

theorem length_observations (run : Run σ) : run.observations.length = asked run.rounds :=
  List.length_filterMap_eq_countP

theorem Protocol.iterations_of_endsAccepted (h : run.Protocol f p cap origins)
    (hends : run.EndsAccepted p root) :
    root.iterations.toNat = run.observations.length := by
  obtain ⟨o, ho, ha, -, hout⟩ := hends
  obtain ⟨root', hout', -, hlen, -⟩ := (h.accepted o ho).1 ha
  obtain rfl := Outcome.found.inj (hout.symm.trans hout')
  exact hlen

/-- The observations of a run that finds a root are not more than its iterations. -/
theorem Protocol.length_le_iterations (h : run.Protocol f p cap origins)
    (hout : run.outcome = .found root) : run.observations.length ≤ root.iterations.toNat := by
  by_cases hno : ∀ o ∈ run.observations.getLast?, p.accepts o = false
  · have hun := h.otherwise hno
    rw [hout] at hun
    have := hun.2.2
    omega
  · push Not at hno
    obtain ⟨o, ho, ha⟩ := hno
    obtain ⟨root', hout', -, hlen, -⟩ := (h.accepted o ho).1 (Bool.eq_true_of_not_eq_false ha)
    obtain rfl := Outcome.found.inj (hout.symm.trans hout')
    exact hlen.ge

end Run

/-- How the runs of a solver hang together when nothing but the policy differs. `looser` takes a policy
that accepts whenever the other does. -/
structure PolicyMonotone (run : Policy → Run σ) : Prop where
  looser : ∀ p q : Policy, (∀ o, p.accepts o = true → q.accepts o = true) →
    run q = run p ∨ (∃ root, (run q).EndsAccepted q root) ∧
      (run q).queries <+: (run p).queries ∧ (run q).observations <+: (run p).observations
  sooner : ∀ p q : Policy, (∀ o, p.accepts o = true → q.accepts o = true) →
    ∀ root, (run p).outcome = .found root →
      ∃ root', (run q).outcome = .found root' ∧ root'.iterations ≤ root.iterations
  either_left : ∀ (p q : Policy) (root : Root), (run p).EndsAccepted p root →
    (∀ root', (run q).EndsAccepted q root' → root.iterations ≤ root'.iterations) →
      run (.either p q) = run p
  either_right : ∀ (p q : Policy) (root : Root), (run q).EndsAccepted q root →
    (∀ root', (run p).EndsAccepted p root' → root.iterations ≤ root'.iterations) →
      run (.either p q) = run q
  either_neither : ∀ p q : Policy, (∀ root, ¬ (run p).EndsAccepted p root) →
    (∀ root, ¬ (run q).EndsAccepted q root) → run (.either p q) = run p ∧ run q = run p
  both : ∀ (p q : Policy) (root : Root), (run (.both p q)).outcome = .found root →
    (∃ root', (run p).outcome = .found root' ∧ root'.iterations ≤ root.iterations) ∧
      ∃ root', (run q).outcome = .found root' ∧ root'.iterations ≤ root.iterations

/-- One run for each policy, all cut from the same rounds. -/
structure CutFromOne (run : Policy → Run σ) (f : Float → Float) (cap : UInt64)
    (origins : List Float) : Prop where
  stopped : ∀ p, run p = (run .never).stoppedBy p
  protocol : ∀ p, (run p).Protocol f p cap origins

namespace CutFromOne

variable {run : Policy → Run σ} {f : Float → Float} {cap : UInt64} {origins : List Float}
  {root : Root}

theorem rounds (h : CutFromOne run f cap origins) (p : Policy) :
    (run p).rounds = (cut p (run .never).outcome (run .never).rounds).1 :=
  congrArg Run.rounds (h.stopped p)

theorem outcome (h : CutFromOne run f cap origins) (p : Policy) :
    (run p).outcome = (cut p (run .never).outcome (run .never).rounds).2 :=
  congrArg Run.outcome (h.stopped p)

theorem opening (h : CutFromOne run f cap origins) (p : Policy) :
    (run p).opening = (run .never).opening := by
  rw [h.stopped p]
  rfl

theorem eq_of_cut (h : CutFromOne run f cap origins)
    (heq : cut q (run .never).outcome (run .never).rounds =
      cut p (run .never).outcome (run .never).rounds) : run q = run p := by
  rw [h.stopped q, h.stopped p, Run.stoppedBy, Run.stoppedBy, heq]

theorem endsAccepted (h : CutFromOne run f cap origins)
    (hcut : CutAt p (cut p (run .never).outcome (run .never).rounds).1
      (cut p (run .never).outcome (run .never).rounds).2) :
    ∃ root, (run p).EndsAccepted p root := by
  rw [← h.rounds, ← h.outcome] at hcut
  exact Run.endsAccepted_of_cutAt hcut

theorem looser (h : CutFromOne run f cap origins)
    (hpq : ∀ o, p.accepts o = true → q.accepts o = true) :
    run q = run p ∨ (∃ root, (run q).EndsAccepted q root) ∧ (run q).rounds <+: (run p).rounds := by
  obtain heq | ⟨hcut, hpre⟩ := cut_of_looser hpq (run .never).outcome (run .never).rounds
  · exact .inl (h.eq_of_cut heq)
  · rw [← h.rounds, ← h.rounds] at hpre
    exact .inr ⟨h.endsAccepted hcut, hpre⟩

theorem sooner (h : CutFromOne run f cap origins)
    (hpq : ∀ o, p.accepts o = true → q.accepts o = true) (hroot : (run p).outcome = .found root) :
    ∃ root', (run q).outcome = .found root' ∧ root'.iterations ≤ root.iterations := by
  obtain heq | ⟨⟨root', hends⟩, hpre⟩ := h.looser hpq
  · exact ⟨root, by rw [heq, hroot], UInt64.le_refl _⟩
  · have hlen := (Run.observations_mono hpre).length_le
    have hq := (h.protocol q).iterations_of_endsAccepted hends
    have hp := (h.protocol p).length_le_iterations hroot
    obtain ⟨o, -, -, -, hout⟩ := hends
    exact ⟨root', hout, UInt64.le_iff_toNat_le.2 (by omega)⟩

theorem either_left (h : CutFromOne run f cap origins) (hp : (run p).EndsAccepted p root)
    (hq : ∀ root', (run q).EndsAccepted q root' → root.iterations ≤ root'.iterations) :
    run (.either p q) = run p := by
  obtain ⟨heq, -⟩ | ⟨-, hcut, hlt⟩ | ⟨heq, -⟩ :=
    cut_either p q (run .never).outcome (run .never).rounds
  · exact h.eq_of_cut heq
  · -- The second operand would have accepted earlier.
    obtain ⟨root', hends⟩ := h.endsAccepted hcut
    rw [← h.rounds, ← h.rounds, ← Run.length_observations, ← Run.length_observations] at hlt
    have hle := UInt64.le_iff_toNat_le.1 (hq root' hends)
    have hlt := hlt hp.exists_accepted
    rw [← (h.protocol p).iterations_of_endsAccepted hp,
      ← (h.protocol q).iterations_of_endsAccepted hends] at hlt
    omega
  · exact h.eq_of_cut heq

theorem either_comm (h : CutFromOne run f cap origins) (p q : Policy) :
    run (.either p q) = run (.either q p) :=
  h.eq_of_cut (cut_congr (Policy.accepts_either_comm p q) _ _)

theorem either_neither (h : CutFromOne run f cap origins)
    (hp : ∀ root, ¬ (run p).EndsAccepted p root) (hq : ∀ root, ¬ (run q).EndsAccepted q root) :
    run (.either p q) = run p ∧ run q = run p := by
  obtain ⟨-, hcut⟩ | ⟨-, hcut, -⟩ | ⟨heither, hsame⟩ :=
    cut_either p q (run .never).outcome (run .never).rounds
  · obtain ⟨root, hends⟩ := h.endsAccepted hcut
    exact absurd hends (hp root)
  · obtain ⟨root, hends⟩ := h.endsAccepted hcut
    exact absurd hends (hq root)
  · exact ⟨h.eq_of_cut heither, h.eq_of_cut hsame⟩

theorem policyMonotone (h : CutFromOne run f cap origins) : PolicyMonotone run where
  looser p q hpq := by
    obtain heq | ⟨hends, hpre⟩ := h.looser hpq
    · exact .inl heq
    · have hopening := (h.opening q).trans (h.opening p).symm
      exact .inr ⟨hends, Run.queries_mono hopening hpre, Run.observations_mono hpre⟩
  sooner _ _ hpq _ hroot := h.sooner hpq hroot
  either_left _ _ _ hp hq := h.either_left hp hq
  either_right p q _ hq hp := (h.either_comm p q).trans (h.either_left hq hp)
  either_neither _ _ hp hq := h.either_neither hp hq
  both _ _ _ hroot :=
    ⟨h.sooner (fun _ ho => (Policy.accepts_of_both ho).1) hroot,
      h.sooner (fun _ ho => (Policy.accepts_of_both ho).2) hroot⟩

end CutFromOne

/-! ## Solvers -/

theorem cut_map (g : σ → τ) (p : Policy) (o : Outcome) (rs : List (Round σ)) :
    cut p o (rs.map (Round.map g)) = ((cut p o rs).1.map (Round.map g), (cut p o rs).2) := by
  induction rs with
  | nil => rfl
  | cons r rs ih =>
    cases hr : r.accepted p with
    | some obs =>
      have hmap : (r.map g).accepted p = some obs := hr
      rw [cut_of_some hr, List.map_cons, cut_of_some hmap]
      rfl
    | none =>
      have hmap : (r.map g).accepted p = none := hr
      rw [cut_of_none hr, List.map_cons, cut_of_none hmap, ih]
      rfl

theorem Run.stoppedBy_map (g : σ → τ) (p : Policy) (run : Run σ) :
    (run.map g).stoppedBy p = (run.stoppedBy p).map g := by
  unfold stoppedBy map
  dsimp only
  rw [cut_map]

section

variable {f : Float → Float} {cap : UInt64}

theorem Rule.solve_stoppedBy {μ : Type} (rule : Rule μ) (f : Float → Float) (b : Bracket)
    (cap : UInt64) (p : Policy) :
    rule.solve f b cap p = (rule.solve f b cap .never).stoppedBy p := by
  cases h : (Enclosure.ofBracket f b).result with
  | error fault =>
    rw [solve_of_refused h, solve_of_refused h]
    rfl
  | ok e =>
    cases hroot : e.endpointRoot with
    | some x =>
      rw [solve_of_endpointRoot h hroot, solve_of_endpointRoot h hroot]
      rfl
    | none =>
      rw [solve_of_opened h hroot, solve_of_opened h hroot]
      exact rule.iteration.run_stoppedBy f p cap _ _

theorem Method.cutFromOne (method : Method) (f : Float → Float) (b : Bracket)
    (hcap : cap.toNat + 1 < 2 ^ 64) :
    CutFromOne (method.solve f b cap) f cap (method.origins b) where
  stopped p := by
    rw [method.solve_eq, method.solve_eq, Run.stoppedBy_map, ← Rule.solve_stoppedBy]
  protocol _ := method.solve_protocol b hcap

theorem OpenMethod.cutFromOne (d : OpenMethod) (f : Float → Float) (start : Float)
    (hcap : cap.toNat + 1 < 2 ^ 64) : CutFromOne (d.solve f start cap) f cap [start] where
  stopped p := by
    unfold solve
    dsimp only
    split
    · rfl
    · split
      · rfl
      · split
        · rfl
        · exact d.iteration.run_stoppedBy f p cap _ _
  protocol _ := d.solve_protocol start hcap

end

/-- All five solvers are monotone in the policy, with any function and start, unless the cap is the
greatest count. -/
theorem solvers_monotone_in_policy (f : Float → Float) {cap : UInt64}
    (hcap : cap.toNat + 1 < 2 ^ 64) :
    (∀ (method : Method) (b : Bracket), PolicyMonotone (method.solve f b cap)) ∧
    (∀ (d1 : Float → Float) (start : Float), PolicyMonotone (newton f d1 start cap)) ∧
    ∀ (d1 d2 : Float → Float) (start : Float), PolicyMonotone (halley f d1 d2 start cap) :=
  ⟨fun method b => (method.cutFromOne f b hcap).policyMonotone,
    fun d1 start => ((newtonMethod d1).cutFromOne f start hcap).policyMonotone,
    fun d1 d2 start => ((halleyMethod d1 d2).cutFromOne f start hcap).policyMonotone⟩

/-- Bisection of `x * x - 1.25` between 1 and 2 makes a step of 0.25 in its second iteration and has
a value within 0.125 in its third. Whichever comes first is the step, and both take the third. -/
theorem solvers_monotone_in_policy_of_square :
    (9 : UInt64).toNat + 1 < 2 ^ 64 ∧
    let run := Method.bisection.solve (fun x => x * x - 1.25) ⟨⟨1, 2⟩, rfl, rfl, by decide⟩ 9;
    run (.combined 0.25 0.125) = run (.step 0.25) ∧
      (run (.step 0.25)).outcome = .found ⟨1.25, 2, 0.3125⟩ ∧
      (run (.both (.step 0.25) (.residual 0.125))).outcome = .found ⟨1.125, 3, 0.015625⟩ ∧
      ∃ root, (run (.residual 0.125)).outcome = .found root ∧ root.iterations ≤ 3 := by
  have hcap : (9 : UInt64).toNat + 1 < 2 ^ 64 := by decide
  have hmono := (solvers_monotone_in_policy (fun x => x * x - 1.25) hcap).1 .bisection
    ⟨⟨1, 2⟩, rfl, rfl, by decide⟩
  have hstep : (Method.bisection.solve (fun x => x * x - 1.25) ⟨⟨1, 2⟩, rfl, rfl, by decide⟩ 9
      (.step 0.25)).outcome = .found ⟨1.25, 2, 0.3125⟩ := by decide +kernel
  have hresidual : (Method.bisection.solve (fun x => x * x - 1.25) ⟨⟨1, 2⟩, rfl, rfl, by decide⟩ 9
      (.residual 0.125)).outcome = .found ⟨1.125, 3, 0.015625⟩ := by decide +kernel
  have hboth : (Method.bisection.solve (fun x => x * x - 1.25) ⟨⟨1, 2⟩, rfl, rfl, by decide⟩ 9
      (.both (.step 0.25) (.residual 0.125))).outcome = .found ⟨1.125, 3, 0.015625⟩ := by
    decide +kernel
  refine ⟨hcap, ?_, hstep, hboth, (hmono.both _ _ _ hboth).2⟩
  refine hmono.either_left _ _ _
    ⟨_, Option.get_mem (by decide +kernel), by decide +kernel, ?_, hstep⟩ ?_
  · decide +kernel
  · rintro root' ⟨-, -, -, -, hout⟩
    obtain rfl := Outcome.found.inj (hresidual.symm.trans hout)
    decide

end ZeroSearch
