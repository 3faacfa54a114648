import Mathlib
import ZeroSearch.Proofs.Caps
import ZeroSearch.Proofs.Containment
import ZeroSearch.Proofs.SignInvariant
import ZeroSearch.Proofs.Validation

/-!
# Resuming a search

Bisection and plain false position carry nothing but their enclosure from one round to the next
(`Rule.Forgetful`). A search that its cap has stopped can be taken up again later: the interval that it
left is a bracket of the function, and the search of that bracket does what the first one would have
gone on to do with a greater cap. A policy has to judge a point by itself, since the new search counts
its iterations afresh and has no point before its first.

The proof has two halves. A run with a greater cap begins with the rounds of the stopped one and goes
on from the state that those left (`Iteration.loop_continues`); and a search from that state and a
fresh one with the same enclosure go side by side (`Rule.Forgetful.loop_repeats`).
-/

namespace ZeroSearch

/-- The answer depends on the point and its value alone. -/
def Policy.Pointwise (p : Policy) : Prop :=
  ∀ o o' : Observation, o.current = o'.current → o.value = o'.value → p.accepts o = p.accepts o'

/-- The state that a run from `s` came to: what each of its rounds left, if it left one. -/
def Run.left {σ : Type} (run : Run σ) (s : σ) : σ :=
  run.rounds.foldl (fun t r => r.after.getD t) s

/-- What is put to a policy that judges points by themselves. -/
def Observation.shown (o : Observation) : Float × Float := (o.current, o.value)

/-- The round `r` does what `q` does `n` iterations later. -/
structure Round.Repeats (n : Nat) (r q : Round Enclosure) : Prop where
  iteration : q.iteration.toNat = r.iteration.toNat + n
  before : r.before = q.before
  queries : r.queries = q.queries
  shown : r.observation.map Observation.shown = q.observation.map Observation.shown
  after : r.after = q.after

/-- The same ending, `n` iterations later. -/
inductive Outcome.Later (n : Nat) : Outcome → Outcome → Prop where
  | found {x residual : Float} {i j : UInt64} : j.toNat = i.toNat + n →
      Later n (.found ⟨x, i, residual⟩) (.found ⟨x, j, residual⟩)
  | nonFinite {x : Float} {i j : UInt64} : j.toNat = i.toNat + n →
      Later n (.failed (.nonFinite i x)) (.failed (.nonFinite j x))
  | exceeded {x : Float} {cap cap' : UInt64} : cap'.toNat = cap.toNat + n →
      Later n (.failed (.iterationsExceeded cap x)) (.failed (.iterationsExceeded cap' x))

/-- The run `rest` does what `long` goes on to do after the rounds of `short`, `n` of them. -/
structure Run.Resumes (rest short long : Run Enclosure) (n : Nat) : Prop where
  length : short.rounds.length = n
  rounds : ∃ later, long.rounds = short.rounds ++ later ∧
    List.Forall₂ (Round.Repeats n) rest.rounds later
  outcome : rest.outcome.Later n long.outcome

theorem Policy.residual_pointwise (epsilon : Float) : (Policy.residual epsilon).Pointwise := by
  intro o o' _ hvalue
  show decide (o.value.abs ≤ epsilon) = decide (o'.value.abs ≤ epsilon)
  rw [hvalue]

theorem Run.left_map {σ τ : Type} (g : σ → τ) (run : Run σ) (s : σ) :
    (run.map g).left (g s) = g (run.left s) := by
  unfold left map
  dsimp only
  induction run.rounds generalizing s with
  | nil => rfl
  | cons r rs ih =>
    rw [List.map_cons, List.foldl_cons, List.foldl_cons, ← ih]
    cases r with
    | mk i before queries observation after => cases after <;> rfl

/-! ## Going on with a greater cap -/

namespace Iteration

variable {σ : Type} {m : Iteration σ} {f : Float → Float} {p : Policy} {i cap cap' c : UInt64}
  {s : σ} {x : Float}

theorem ne_exceeded_of_stop (hm : m.Sequential) {r : Round σ} {o : Outcome}
    (h : m.Step f p i s r (.stop o)) : o ≠ .failed (.iterationsExceeded c x) := by
  rintro rfl
  cases h with
  | refused hp =>
    obtain ⟨y, hy | hy⟩ := hm.fault _ _ _ hp
    · cases hy
    · cases hy

/-- The budgets are what is left of those of two runs, of which the cap stops the first in the state
`t`. -/
theorem loop_continues (hm : m.Sequential) {P : σ → Prop}
    (hP : ∀ {i s r t}, P s → m.Step f p i s r (.go t) → P t) (hcaps : cap ≤ cap')
    (hcap' : cap'.toNat + 1 < 2 ^ 64) {budget budget' : Nat} (hi : i.toNat ≤ cap.toNat + 1)
    (hbudget : i.toNat + budget = cap.toNat + 2) (hbudget' : i.toNat + budget' = cap'.toNat + 2)
    (hs : P s) (hout : (m.loop f p cap budget i s []).2 = .failed (.iterationsExceeded c x)) :
    ∃ t, P t ∧ t = (m.loop f p cap budget i s []).1.foldl (fun t r => r.after.getD t) s ∧
      i.toNat + (m.loop f p cap budget i s []).1.length = cap.toNat + 1 ∧
      m.loop f p cap' budget' i s [] =
        ((m.loop f p cap budget i s []).1 ++
            (m.loop f p cap' (cap'.toNat - cap.toNat + 1) (cap + 1) t []).1,
          (m.loop f p cap' (cap'.toNat - cap.toNat + 1) (cap + 1) t []).2) := by
  have hle := UInt64.le_iff_toNat_le.1 hcaps
  induction budget generalizing i s budget' with
  | zero => omega
  | succ budget ih =>
    by_cases hicap : i ≤ cap
    · obtain ⟨rest, rfl⟩ : ∃ rest, budget' = rest + 1 := ⟨budget' - 1, by omega⟩
      have hi' := UInt64.le_iff_toNat_le.1 hicap
      have hsucc := toNat_succ (i := i) (by omega)
      have hstep := m.round_step f p i s
      cases hround : m.round f p i s with
      | mk r next =>
        rw [hround] at hstep
        cases next with
        | stop o =>
          rw [loop_of_stop hicap hround] at hout
          exact absurd hout (ne_exceeded_of_stop hm hstep)
        | go t =>
          rw [loop_of_go hicap hround] at hout ⊢
          rw [loop_of_go (UInt64.le_trans hicap hcaps) hround]
          obtain ⟨u, hu, hleft, hlen, hloop⟩ := ih (by omega) (by omega)
            (show (i + 1).toNat + rest = cap'.toNat + 2 by omega) (hP hs hstep) hout
          refine ⟨u, hu, ?_, ?_, by rw [hloop]; rfl⟩
          · rw [hleft, List.foldl_cons, hstep.after_of_go, Option.getD_some]
          · rw [List.length_cons]
            omega
    · have hlt := mt UInt64.le_iff_toNat_le.2 hicap
      have hnext : cap + 1 = i := by
        rw [← UInt64.toNat_inj, toNat_succ (by omega)]
        omega
      rw [loop_of_capped hicap, hnext, show cap'.toNat - cap.toNat + 1 = budget' by omega]
      exact ⟨s, hs, rfl, by rw [List.length_nil]; omega, rfl⟩

end Iteration

/-! ## Rules that forget -/

/-- A rule whose points do not depend on the memories that it makes. -/
structure Rule.Forgetful {μ : Type} (rule : Rule μ) (Blank : μ → Prop) : Prop where
  initial : Blank rule.initial
  remember : ∀ side m, Blank m → Blank (rule.remember side m)
  choose : ∀ (e : Enclosure) (m : μ), Blank m → rule.choose e m = rule.choose e rule.initial

theorem bisectionRule_forgetful : bisectionRule.Forgetful fun _ => True where
  initial := trivial
  remember _ _ _ := trivial
  choose _ _ _ := rfl

/-- Without damping the weights stay at 1, and the counts of kept ends are not used. -/
theorem falsePositionRule_forgetful :
    (falsePositionRule false).Forgetful fun d => d.weightLo = 1 ∧ d.weightHi = 1 where
  initial := ⟨rfl, rfl⟩
  remember side d hd := by
    cases side with
    | lower => exact ⟨rfl, hd.2⟩
    | upper => exact ⟨hd.1, rfl⟩
  choose e d hd := by
    show e.secantInside d = e.secantInside .initial
    unfold Enclosure.secantInside Enclosure.secant
    rw [hd.1, hd.2]
    rfl

theorem Method.rule_forgetful {method : Method} (h : method ≠ .illinois) :
    ∃ Blank, method.rule.Forgetful Blank := by
  cases method with
  | bisection => exact ⟨_, bisectionRule_forgetful⟩
  | falsePosition => exact ⟨_, falsePositionRule_forgetful⟩
  | illinois => exact absurd rfl h

/-- Two states with the same enclosure, whose memories do not matter. -/
structure Pursuit.Alike {μ : Type} (Blank : μ → Prop) (s t : Pursuit μ) : Prop where
  enclosure : s.enclosure = t.enclosure
  blank_left : Blank s.memory
  blank_right : Blank t.memory

namespace Rule.Forgetful

variable {μ : Type} {rule : Rule μ} {Blank : μ → Prop} {f : Float → Float} {p : Policy}
  {i j cap cap' : UInt64} {s t : Pursuit μ} {n : Nat}

/-- The runs end alike, or go on from states that are alike and have the same latest point. -/
inductive NextAlike (Blank : μ → Prop) (n : Nat) :
    Iteration.Next (Pursuit μ) → Iteration.Next (Pursuit μ) → Prop where
  | stop {o o' : Outcome} : o.Later n o' → NextAlike Blank n (.stop o) (.stop o')
  | go {s t : Pursuit μ} : s.Alike Blank t → s.latest = t.latest → NextAlike Blank n (.go s) (.go t)

theorem round_repeats (hrule : rule.Forgetful Blank) (hp : p.Pointwise) (hst : s.Alike Blank t)
    (hij : j.toNat = i.toNat + n) :
    ((rule.iteration.round f p i s).1.map Pursuit.enclosure).Repeats n
        ((rule.iteration.round f p j t).1.map Pursuit.enclosure) ∧
      NextAlike Blank n (rule.iteration.round f p i s).2 (rule.iteration.round f p j t).2 := by
  have hx : rule.choose s.enclosure s.memory = rule.choose t.enclosure t.memory := by
    rw [hrule.choose _ _ hst.blank_left, hrule.choose _ _ hst.blank_right, hst.enclosure]
  unfold Iteration.round
  dsimp only [Rule.iteration]
  rw [hx]
  generalize rule.choose t.enclosure t.memory = x
  cases hfin : (f x).isFinite with
  | false => exact ⟨⟨hij, hst.enclosure, rfl, rfl, rfl⟩, .stop (.nonFinite hij)⟩
  | true =>
    cases hz : f x == 0 with
    | true => exact ⟨⟨hij, hst.enclosure, rfl, rfl, rfl⟩, .stop (.found hij)⟩
    | false =>
      have hnarrow : s.enclosure.narrow x (f x) = t.enclosure.narrow x (f x) := by
        rw [hst.enclosure]
      have hanswer : p.accepts ⟨rule.previous i s.enclosure s.latest x, x, f x, i⟩ =
          p.accepts ⟨rule.previous j t.enclosure t.latest x, x, f x, j⟩ := hp _ _ rfl rfl
      simp only [Bool.not_true, Bool.false_eq_true, if_false, hanswer]
      cases p.accepts ⟨rule.previous j t.enclosure t.latest x, x, f x, j⟩ with
      | true => exact ⟨⟨hij, hst.enclosure, rfl, rfl, congrArg some hnarrow⟩, .stop (.found hij)⟩
      | false =>
        exact ⟨⟨hij, hst.enclosure, rfl, rfl, congrArg some hnarrow⟩, .go ⟨hnarrow,
          hrule.remember _ _ hst.blank_left, hrule.remember _ _ hst.blank_right⟩ rfl⟩

/-- The cap does not stop the runs before they have taken a round, or they have the same latest
point. -/
theorem loop_repeats (hrule : rule.Forgetful Blank) (hp : p.Pointwise)
    (hcaps : cap'.toNat = cap.toNat + n) (hcap' : cap'.toNat + 1 < 2 ^ 64) {budget : Nat}
    (hi : i.toNat ≤ cap.toNat + 1) (hbudget : i.toNat + budget = cap.toNat + 2)
    (hij : j.toNat = i.toNat + n) (hst : s.Alike Blank t)
    (hlatest : i ≤ cap ∨ s.latest = t.latest) :
    List.Forall₂ (Round.Repeats n)
        ((rule.iteration.loop f p cap budget i s []).1.map (Round.map Pursuit.enclosure))
        ((rule.iteration.loop f p cap' budget j t []).1.map (Round.map Pursuit.enclosure)) ∧
      (rule.iteration.loop f p cap budget i s []).2.Later n
        (rule.iteration.loop f p cap' budget j t []).2 := by
  induction budget generalizing i j s t with
  | zero => omega
  | succ budget ih =>
    have hle : i ≤ cap ↔ j ≤ cap' := by
      rw [UInt64.le_iff_toNat_le, UInt64.le_iff_toNat_le]
      omega
    by_cases hicap : i ≤ cap
    · have hi' := UInt64.le_iff_toNat_le.1 hicap
      have hisucc := Iteration.toNat_succ (i := i) (by omega)
      have hjsucc := Iteration.toNat_succ (i := j) (by omega)
      obtain ⟨hround, hnext⟩ := hrule.round_repeats (f := f) hp hst hij
      cases hs : rule.iteration.round f p i s with
      | mk r next =>
        cases ht : rule.iteration.round f p j t with
        | mk q next' =>
          rw [hs, ht] at hround hnext
          cases hnext with
          | stop ho =>
            rw [Iteration.loop_of_stop hicap hs, Iteration.loop_of_stop (hle.1 hicap) ht]
            exact ⟨.cons hround .nil, ho⟩
          | go hst' hlatest' =>
            rw [Iteration.loop_of_go hicap hs, Iteration.loop_of_go (hle.1 hicap) ht]
            obtain ⟨hrounds, ho⟩ := ih (i := i + 1) (j := j + 1) (by omega) (by omega) (by omega)
              hst' (.inr hlatest')
            exact ⟨.cons hround hrounds, ho⟩
    · rw [Iteration.loop_of_capped hicap, Iteration.loop_of_capped (mt hle.2 hicap)]
      have hsame : rule.iteration.latest s = rule.iteration.latest t :=
        hlatest.resolve_left hicap
      rw [hsame]
      exact ⟨.nil, .exceeded hcaps⟩

end Rule.Forgetful

/-! ## Resumed runs -/

/-- A state that a search of `b` can be resumed from. -/
structure Pursuit.Resumable {μ : Type} (s : Pursuit μ) (Blank : μ → Prop) (f : Float → Float)
    (opened : Enclosure) (b : Interval) : Prop where
  confined : s.Confined b
  straddles : s.enclosure.Straddles f opened
  blank : Blank s.memory

/-- The enclosure is that of a bracket, which opens with the values that the enclosure has. -/
theorem Pursuit.Resumable.exists_bracket {μ : Type} {s : Pursuit μ} {Blank : μ → Prop}
    {f : Float → Float} {opened : Enclosure} {b : Interval} (hs : s.Resumable Blank f opened b) :
    ∃ c : Bracket, (Bracket.ofEnds f s.enclosure.lo s.enclosure.hi).result = .ok c ∧
      (Enclosure.ofBracket f c).result = .ok s.enclosure ∧ s.enclosure.endpointRoot = none := by
  have hst := hs.straddles
  have hord := hs.confined.ordered
  let c : Bracket := ⟨s.enclosure.toInterval, hord.lo_finite, hord.hi_finite, hord.lo_le_hi⟩
  have hlo : f c.lo = s.enclosure.fLo := hst.value_lo.symm
  have hhi : f c.hi = s.enclosure.fHi := hst.value_hi.symm
  have hc : c.Straddles f := by
    constructor
    · rw [hlo]
      exact hst.lo_finite
    · rw [hhi]
      exact hst.hi_finite
    · rw [hlo, hhi]
      exact hst.signChange
  have hadmitted : (Bracket.ofEnds f c.lo c.hi).result = .ok c :=
    Bracket.ofEnds_eq_ok_iff.2 ⟨hc.lo_finite, hc.hi_finite, .inr (.inr hc.signs)⟩
  refine ⟨c, hadmitted, ?_, Enclosure.endpointRoot_of_ne_zero hst.lo_ne_zero hst.hi_ne_zero⟩
  rw [Enclosure.ofBracket_of_straddles hc, hlo, hhi]

namespace Rule.Forgetful

variable {μ : Type} {rule : Rule μ} {Blank : μ → Prop} {f : Float → Float} {p : Policy}
  {b : Bracket} {s : Pursuit μ} {opened : Enclosure}

theorem opened_of_exceeded {cap : UInt64} (h : (rule.solve f b cap p).Exceeded) :
    (Enclosure.ofBracket f b).result = .ok ⟨b.toInterval, f b.lo, f b.hi⟩ ∧
      Enclosure.endpointRoot ⟨b.toInterval, f b.lo, f b.hi⟩ = none := by
  obtain ⟨c, x, hout⟩ := h
  cases hopen : (Enclosure.ofBracket f b).result with
  | error fault =>
    rw [solve_of_refused hopen] at hout
    obtain rfl | rfl | rfl := Enclosure.fault_of_ofBracket hopen <;> cases hout
  | ok e =>
    cases hroot : e.endpointRoot with
    | some y =>
      rw [solve_of_endpointRoot hopen hroot] at hout
      cases hout
    | none =>
      obtain rfl := Enclosure.eq_of_ofBracket hopen
      exact ⟨rfl, hroot⟩

theorem resumable_of_go (hrule : rule.Forgetful Blank) (hinside : rule.Inside) {i : UInt64}
    {s t : Pursuit μ} {r : Round (Pursuit μ)} {opened : Enclosure} {b : Interval}
    (hs : s.Resumable Blank f opened b) (h : rule.iteration.Step f p i s r (.go t)) :
    t.Resumable Blank f opened b := by
  refine ⟨hinside.confined_of_go hs.confined h, straddles_of_go hs.straddles h, ?_⟩
  cases h with
  | rejected hx => exact hrule.remember _ _ hs.blank

theorem solve_resumes (hrule : rule.Forgetful Blank) (hinside : rule.Inside)
    (hseq : rule.iteration.Sequential) (hp : p.Pointwise) {n m : UInt64} (hm : 0 < m)
    (hroom : n.toNat + m.toNat + 1 < 2 ^ 64) (h : (rule.solve f b n p).Exceeded) :
    ∃ t c, t = (rule.solve f b n p).left (rule.start ⟨b.toInterval, f b.lo, f b.hi⟩) ∧
      (Bracket.ofEnds f t.enclosure.lo t.enclosure.hi).result = .ok c ∧
      ((rule.solve f c m p).map Pursuit.enclosure).Resumes
        ((rule.solve f b n p).map Pursuit.enclosure)
        ((rule.solve f b (n + m) p).map Pursuit.enclosure) n.toNat := by
  obtain ⟨hopen, hroot⟩ := opened_of_exceeded h
  have hsum : (n + m).toNat = n.toNat + m.toNat := by
    rw [UInt64.toNat_add]
    omega
  have hone : (1 : UInt64).toNat = 1 := rfl
  have hstart : (rule.start ⟨b.toInterval, f b.lo, f b.hi⟩).Resumable Blank f
      ⟨b.toInterval, f b.lo, f b.hi⟩ b.toInterval :=
    ⟨Inside.confined_start hopen, Enclosure.straddles_of_ofBracket hopen hroot, hrule.initial⟩
  rw [solve_of_opened hopen hroot] at h ⊢
  rw [solve_of_opened hopen hroot]
  obtain ⟨c, x, hout⟩ := h
  have hle : n ≤ n + m := UInt64.le_iff_toNat_le.2 (by omega)
  have hfirst : (1 : UInt64).toNat + (n.toNat + 1) = n.toNat + 2 := by omega
  have hlong : (1 : UInt64).toNat + ((n + m).toNat + 1) = (n + m).toNat + 2 := by omega
  obtain ⟨t, ht, hleft, hlen, hloop⟩ := Iteration.loop_continues hseq
    (fun hs h => hrule.resumable_of_go hinside hs h) hle (by omega) (by omega) hfirst hlong hstart
    hout
  obtain ⟨d, hd, hopen', hroot'⟩ := ht.exists_bracket
  have halike : (rule.start t.enclosure).Alike Blank t := ⟨rfl, hrule.initial, ht.blank⟩
  have hbudget : (1 : UInt64).toNat + (m.toNat + 1) = m.toNat + 2 := by omega
  have hnext : (n + 1).toNat = (1 : UInt64).toNat + n.toNat := by
    rw [Iteration.toNat_succ (by omega)]
    omega
  obtain ⟨hrounds, houtcome⟩ := hrule.loop_repeats (f := f) hp (hsum.trans (Nat.add_comm _ _))
    (by omega) (by omega) hbudget hnext halike (.inl (UInt64.lt_iff_toNat_lt.1 hm))
  refine ⟨t, d, hleft, hd, ?_⟩
  rw [solve_of_opened hopen' hroot']
  rw [show (n + m).toNat - n.toNat + 1 = m.toNat + 1 by omega] at hloop
  refine ⟨?_, ⟨_, ?_, hrounds⟩, ?_⟩
  · show ((rule.iteration.loop f p n (n.toNat + 1) 1 _ []).1.map _).length = n.toNat
    rw [List.length_map]
    omega
  · show (rule.iteration.loop f p (n + m) ((n + m).toNat + 1) 1 _ []).1.map _ =
      (rule.iteration.loop f p n (n.toNat + 1) 1 _ []).1.map _ ++ _
    rw [hloop, List.map_append]
  · show Outcome.Later _ _ (rule.iteration.loop f p (n + m) ((n + m).toNat + 1) 1 _ []).2
    rw [hloop]
    exact houtcome

end Rule.Forgetful

/-- Where the cap has stopped bisection or plain false position after `n` rounds, the interval that is
left is a bracket of the function, and a search of that bracket with a cap `m` does what the first
search does with the cap `n + m` after those rounds. -/
theorem plain_methods_resume {method : Method} (hplain : method ≠ .illinois) {f : Float → Float}
    {b : Bracket} {p : Policy} (hp : p.Pointwise) {n m : UInt64} (hm : 1 ≤ m)
    (hroom : n.toNat + m.toNat + 1 < 2 ^ 64) {count : UInt64} {last : Float}
    (h : (method.solve f b n p).outcome = .failed (.iterationsExceeded count last)) :
    ∃ narrowed c, narrowed = (method.solve f b n p).left ⟨b.toInterval, f b.lo, f b.hi⟩ ∧
      (Bracket.ofEnds f narrowed.lo narrowed.hi).result = .ok c ∧
      (method.solve f c m p).Resumes (method.solve f b n p) (method.solve f b (n + m) p)
        n.toNat := by
  obtain ⟨Blank, hrule⟩ := method.rule_forgetful hplain
  rw [method.solve_eq, Run.outcome_map] at h
  have hpos : 0 < m := UInt64.lt_iff_toNat_lt.2 (UInt64.le_iff_toNat_le.1 hm)
  obtain ⟨t, c, rfl, hc, hresumes⟩ := hrule.solve_resumes method.rule_inside
    method.rule_sequential hp hpos hroom ⟨count, last, h⟩
  refine ⟨_, c, ?_, hc, ?_⟩
  · rw [method.solve_eq]
    exact (Run.left_map Pursuit.enclosure (method.rule.solve f b n p)
      (method.rule.start ⟨b.toInterval, f b.lo, f b.hi⟩)).symm
  · rw [method.solve_eq, method.solve_eq, method.solve_eq]
    exact hresumes

/-- The search for the zero of `x * x - 1.25` between 1 and 2, stopped after one round and resumed
with a cap of 2. Bisection is left with the interval from 1 to 1.5, and false position with the one
from the point where the line meets zero. -/
theorem plain_methods_resume_of_square :
    let f : Float → Float := fun x => x * x - 1.25
    let b : Bracket := ⟨⟨1, 2⟩, rfl, rfl, by decide⟩
    let p : Policy := .residual 0.05
    p.Pointwise ∧ (1 : UInt64) ≤ 2 ∧ (1 : UInt64).toNat + (2 : UInt64).toNat + 1 < 2 ^ 64 ∧
      ((Method.bisection.solve f b 1 p).outcome = .failed (.iterationsExceeded 1 1.5) ∧
        (Method.bisection.solve f b (1 + 2) p).outcome = .found ⟨1.125, 3, 0.015625⟩ ∧
        ∃ c, (Bracket.ofEnds f 1 1.5).result = .ok c ∧ (Method.bisection.solve f c 2 p).Resumes
          (Method.bisection.solve f b 1 p) (Method.bisection.solve f b (1 + 2) p) 1) ∧
      ∃ x, (Method.falsePosition.solve f b 1 p).outcome = .failed (.iterationsExceeded 1 x) ∧
        ∃ c, (Bracket.ofEnds f x 2).result = .ok c ∧ (Method.falsePosition.solve f c 2 p).Resumes
          (Method.falsePosition.solve f b 1 p) (Method.falsePosition.solve f b (1 + 2) p) 1 := by
  intro f b p
  have hp : p.Pointwise := Policy.residual_pointwise 0.05
  have hroom : (1 : UInt64).toNat + (2 : UInt64).toNat + 1 < 2 ^ 64 := by decide
  have hm : (1 : UInt64) ≤ 2 := by decide
  have hbisection : (Method.bisection.solve f b 1 p).outcome = .failed (.iterationsExceeded 1 1.5) :=
    by decide +kernel
  have hplain : (Method.falsePosition.solve f b 1 p).outcome =
      .failed (.iterationsExceeded 1 (Enclosure.secant ⟨⟨1, 2⟩, -0.25, 2.75⟩ .initial)) := by
    decide +kernel
  have hhalf : ((Method.bisection.solve f b 1 p).left ⟨b.toInterval, f b.lo, f b.hi⟩).lo = 1 ∧
      ((Method.bisection.solve f b 1 p).left ⟨b.toInterval, f b.lo, f b.hi⟩).hi = 1.5 := by
    decide +kernel
  have hrest : ((Method.falsePosition.solve f b 1 p).left ⟨b.toInterval, f b.lo, f b.hi⟩).lo =
        Enclosure.secant ⟨⟨1, 2⟩, -0.25, 2.75⟩ .initial ∧
      ((Method.falsePosition.solve f b 1 p).left ⟨b.toInterval, f b.lo, f b.hi⟩).hi = 2 := by
    decide +kernel
  refine ⟨hp, hm, hroom, ⟨hbisection, by decide +kernel, ?_⟩, _, hplain, ?_⟩
  · obtain ⟨narrowed, c, rfl, hc, hresumes⟩ :=
      plain_methods_resume (by decide) hp hm hroom hbisection
    rw [hhalf.1, hhalf.2] at hc
    exact ⟨c, hc, hresumes⟩
  · obtain ⟨narrowed, c, rfl, hc, hresumes⟩ :=
      plain_methods_resume (by decide) hp hm hroom hplain
    rw [hrest.1, hrest.2] at hc
    exact ⟨c, hc, hresumes⟩

end ZeroSearch
