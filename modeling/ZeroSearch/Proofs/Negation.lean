import Mathlib
import ZeroSearch.OpenMethod
import ZeroSearch.Proofs.Binary64.Negation
import ZeroSearch.Proofs.Scan
import ZeroSearch.Proofs.Signs
import ZeroSearch.Proofs.Solving
import ZeroSearch.Proofs.Survey

/-!
# Searches for the zeros of the negated function

A function and its negation have the same zeros, and every search treats them alike: the runs keep
states that differ in the signs of the values (`Iteration.Mirrors`), choose the same points and end
in the same way. The one place where negation does not go through the arithmetic is the secant, whose
denominator is the positive zero for both if the weighted values cancel; then the point is not finite
and both take the middle instead.
-/

namespace ZeroSearch

open Binary64

/-! ## Negated data -/

def Observation.negated (o : Observation) : Observation := { o with value := -o.value }

/-- The answer does not depend on the sign of the value. -/
def Policy.Even (p : Policy) : Prop := ∀ o : Observation, p.accepts o.negated = p.accepts o

/-- Built from tests on steps and residuals. -/
def Policy.Standard : Policy → Prop
  | test (.step _) => True
  | test (.residual _) => True
  | test (.custom _ _) => False
  | both p q => p.Standard ∧ q.Standard
  | either p q => p.Standard ∧ q.Standard

theorem Policy.Standard.even {p : Policy} (h : p.Standard) : p.Even := by
  intro o
  induction p with
  | test c =>
    cases c with
    | step => rfl
    | residual epsilon =>
      show decide ((-o.value).abs ≤ epsilon) = decide (o.value.abs ≤ epsilon)
      rw [abs_neg]
    | custom => cases h
  | both p q ihp ihq => rw [accepts, accepts, ihp h.1, ihq h.2]
  | either p q ihp ihq => rw [accepts, accepts, ihp h.1, ihq h.2]

theorem Settings.policy_standard (settings : Settings) : settings.policy.Standard :=
  ⟨trivial, trivial⟩

namespace Enclosure

def negated (e : Enclosure) : Enclosure := ⟨e.toInterval, -e.fLo, -e.fHi⟩

end Enclosure

def Pursuit.negated {μ : Type} (s : Pursuit μ) : Pursuit μ := { s with enclosure := s.enclosure.negated }

def Sample.negated (s : Sample) : Sample := ⟨s.x, -s.value⟩

variable {σ : Type}

/-- The round with the negated function; `g` negates the values in its states. -/
def Round.negated (g : σ → σ) (r : Round σ) : Round σ :=
  ⟨r.iteration, g r.before, r.queries, r.observation.map Observation.negated, r.after.map g⟩

def Run.negated (g : σ → σ) (run : Run σ) : Run σ :=
  ⟨run.opening, run.rounds.map (Round.negated g), run.outcome⟩

/-- The two runs evaluate at the same points in the same order, put the same observations to the
policy but for the signs of the values, and end in the same way. -/
structure Run.Mirrors (run run' : Run σ) : Prop where
  queries : run'.queries = run.queries
  observations : run'.observations = run.observations.map Observation.negated
  outcome : run'.outcome = run.outcome

theorem Run.mirrors_negated (g : σ → σ) (run : Run σ) : run.Mirrors (run.negated g) where
  queries := by
    rw [queries, queries, negated, List.flatMap_map]
    rfl
  observations := by
    rw [observations, observations, negated, List.filterMap_map, List.map_filterMap]
    rfl
  outcome := rfl

/-! ## Signs -/

theorem beq_zero_neg (x : Float) : (-x == 0) = (x == 0) := by
  have hord := ordinal_neg x
  have hnan := isNaN_neg x
  rw [Bool.eq_iff_iff]
  cases hx : x.isNaN with
  | true =>
    rw [hx] at hnan
    have hne {y : Float} (hy : y.isNaN = true) : ¬ (y == 0) = true := fun h => by
      cases hy.symm.trans (not_isNaN_of_isFinite (isFinite_of_beq_zero h))
    exact iff_of_false (hne hnan) (hne hx)
  | false =>
    rw [beq_zero_iff_ordinal hx, beq_zero_iff_ordinal (hnan.trans hx)]
    omega

theorem oppositeSigns_neg (a b : Float) : oppositeSigns (-a) (-b) = oppositeSigns a b := by
  have ha := ordinal_neg a
  have hb := ordinal_neg b
  rw [Bool.eq_iff_iff, oppositeSigns_iff_ordinal, oppositeSigns_iff_ordinal]
  omega

/-! ## Iterations -/

namespace Iteration

/-- `m'` does with negated values what `m` does. -/
structure Mirrors (m m' : Iteration σ) (g : σ → σ) : Prop where
  queries : ∀ s, m'.queries (g s) = m.queries s
  propose : ∀ i s, m'.propose i (g s) = m.propose i s
  previous : ∀ i s x, m'.previous i (g s) x = m.previous i s x
  absorb : ∀ s x y, m'.absorb (g s) x (-y) = g (m.absorb s x y)
  latest : ∀ s, m'.latest (g s) = m.latest s

def Next.negated (g : σ → σ) : Next σ → Next σ
  | .stop o => .stop o
  | .go t => .go (g t)

variable {m m' : Iteration σ} {g : σ → σ} {f : Float → Float} {p : Policy} {cap : UInt64}

theorem Mirrors.round (h : m.Mirrors m' g) (hp : p.Even) (f : Float → Float) (i : UInt64) (s : σ) :
    m'.round (fun x => -f x) p i (g s) =
      ((m.round f p i s).1.negated g, (m.round f p i s).2.negated g) := by
  unfold Iteration.round
  rw [h.propose, h.queries]
  cases hx : m.propose i s with
  | error fault => rfl
  | ok x =>
    dsimp only
    rw [isFinite_neg_float, beq_zero_neg, h.previous, h.absorb, abs_neg]
    have ha : p.accepts ⟨m.previous i s x, x, -f x, i⟩ = p.accepts ⟨m.previous i s x, x, f x, i⟩ :=
      hp ⟨m.previous i s x, x, f x, i⟩
    rw [ha]
    split
    · rfl
    · split
      · rfl
      · split <;> rfl

/-- The induction is on the budget: a round takes mirrored states to mirrored states. -/
theorem Mirrors.loop (h : m.Mirrors m' g) (hp : p.Even) (f : Float → Float) (cap : UInt64)
    (budget : Nat) (i : UInt64) (s : σ) :
    m'.loop (fun x => -f x) p cap budget i (g s) [] =
      ((m.loop f p cap budget i s []).1.map (Round.negated g), (m.loop f p cap budget i s []).2) := by
  induction budget generalizing i s with
  | zero => rfl
  | succ budget ih =>
    by_cases hi : i ≤ cap
    · have hneg := h.round hp f i s
      cases hround : m.round f p i s with
      | mk r next =>
        rw [hround] at hneg
        cases next with
        | stop o =>
          rw [loop_of_stop hi hneg, loop_of_stop hi hround]
          rfl
        | go t =>
          rw [loop_of_go hi hneg, loop_of_go hi hround, ih]
          rfl
    · rw [loop_of_capped hi, loop_of_capped hi, h.latest]
      rfl

theorem Mirrors.run (h : m.Mirrors m' g) (hp : p.Even) (f : Float → Float) (cap : UInt64)
    (opening : List Query) (s : σ) :
    m'.run (fun x => -f x) p cap opening (g s) = (m.run f p cap opening s).negated g := by
  unfold Iteration.run runWithin
  rw [h.loop hp]
  rfl

end Iteration

/-! ## Bracketing methods -/

namespace Enclosure

theorem endpointRoot_negated (e : Enclosure) : e.negated.endpointRoot = e.endpointRoot := by
  unfold endpointRoot negated
  dsimp only
  rw [beq_zero_neg, beq_zero_neg]

theorem replaced_negated (e : Enclosure) (y : Float) : e.negated.replaced (-y) = e.replaced y := by
  unfold replaced negated
  dsimp only
  rw [oppositeSigns_neg]

theorem narrow_negated (e : Enclosure) (x y : Float) :
    e.negated.narrow x (-y) = (e.narrow x y).negated := by
  cases h : e.replaced y with
  | upper =>
    rw [narrow_upper h, narrow_upper ((e.replaced_negated y).trans h)]
    rfl
  | lower =>
    rw [narrow_lower h, narrow_lower ((e.replaced_negated y).trans h)]
    rfl

theorem ofBracket_neg (f : Float → Float) (b : Bracket) :
    (ofBracket (fun x => -f x) b).result = (ofBracket f b).result.map negated := by
  have hroot := endpointRoot_negated ⟨b.toInterval, f b.lo, f b.hi⟩
  unfold negated at hroot
  rw [result_ofBracket, result_ofBracket, hroot, isFinite_neg_float, isFinite_neg_float, oppositeSigns_neg]
  split
  · rfl
  · split <;> rfl

/-- Where the denominators are opposite, so are the numerators. Where both are the positive zero, both
quotients are infinite or NaN. -/
theorem secant_negated (e : Enclosure) (d : Damping) :
    e.negated.secant d = e.secant d ∨
      (e.negated.secant d).isFinite = false ∧ (e.secant d).isFinite = false := by
  unfold secant negated
  dsimp only
  rw [Binary64.neg_mul, Binary64.neg_mul, Binary64.neg_mul]
  obtain h | ⟨h, hneg⟩ := neg_sub_neg (e.fHi * d.weightHi) (e.fLo * d.weightLo)
  · left
    rw [h, Binary64.neg_div_neg]
  · right
    rw [h, hneg]
    exact ⟨isFinite_sub _ (isFinite_div_zero _), isFinite_sub _ (isFinite_div_zero _)⟩

theorem secantInside_negated (e : Enclosure) (d : Damping) :
    e.negated.secantInside d = e.secantInside d := by
  have hmiddle : e.negated.middle = e.middle := rfl
  unfold secantInside
  dsimp only
  obtain h | ⟨hneg, h⟩ := e.secant_negated d
  · rw [h, hmiddle]
    rfl
  · rw [if_neg (by rw [hneg]; rintro ⟨⟨⟩, -⟩), if_neg (by rw [h]; rintro ⟨⟨⟩, -⟩), hmiddle]

end Enclosure

namespace Rule

variable {μ : Type}

/-- The rule chooses points and compares them without regard to the signs of the values. -/
structure Symmetric (rule : Rule μ) : Prop where
  choose : ∀ e m, rule.choose e.negated m = rule.choose e m
  previous : ∀ i e latest x, rule.previous i e.negated latest x = rule.previous i e latest x

variable {rule : Rule μ} {p : Policy}

theorem Symmetric.mirrors (h : rule.Symmetric) :
    rule.iteration.Mirrors rule.iteration Pursuit.negated where
  queries _ := rfl
  propose i s := congrArg Except.ok (h.choose s.enclosure s.memory)
  previous i s x := h.previous i s.enclosure s.latest x
  absorb s x y := by
    show Pursuit.mk (s.enclosure.negated.narrow x (-y)) x
      (rule.remember (s.enclosure.negated.replaced (-y)) s.memory) = _
    rw [Enclosure.narrow_negated, Enclosure.replaced_negated]
    rfl
  latest _ := rfl

theorem Symmetric.solve (h : rule.Symmetric) (hp : p.Even) (f : Float → Float) (b : Bracket)
    (cap : UInt64) :
    rule.solve (fun x => -f x) b cap p = (rule.solve f b cap p).negated Pursuit.negated := by
  have hopen := Enclosure.ofBracket_neg f b
  cases he : (Enclosure.ofBracket f b).result with
  | error fault =>
    rw [he] at hopen
    rw [solve_of_refused hopen, solve_of_refused he]
    rfl
  | ok e =>
    rw [he] at hopen
    have hroot := e.endpointRoot_negated
    cases hx : e.endpointRoot with
    | some x =>
      rw [solve_of_endpointRoot hopen (hroot.trans hx), solve_of_endpointRoot he hx]
      rfl
    | none =>
      rw [solve_of_opened hopen (hroot.trans hx), solve_of_opened he hx]
      exact h.mirrors.run hp f cap _ (rule.start e)

end Rule

theorem Run.negated_map_enclosure {μ : Type} (run : Run (Pursuit μ)) :
    (run.negated Pursuit.negated).map Pursuit.enclosure =
      (run.map Pursuit.enclosure).negated Enclosure.negated := by
  have hround (r : Round (Pursuit μ)) : (r.negated Pursuit.negated).map Pursuit.enclosure =
      (r.map Pursuit.enclosure).negated Enclosure.negated := by
    obtain ⟨i, s, queries, o, after⟩ := r
    cases after <;> rfl
  have hrounds : (run.rounds.map (Round.negated Pursuit.negated)).map (Round.map Pursuit.enclosure) =
      (run.rounds.map (Round.map Pursuit.enclosure)).map (Round.negated Enclosure.negated) := by
    rw [List.map_map, List.map_map]
    exact List.map_congr_left fun r _ => hround r
  show Run.mk _ _ _ = Run.mk _ _ _
  exact congrArg (fun rounds => Run.mk run.opening rounds run.outcome) hrounds

theorem Method.rule_symmetric (method : Method) : method.rule.Symmetric := by
  cases method with
  | bisection => exact ⟨fun _ _ => rfl, fun _ _ _ _ => rfl⟩
  | falsePosition => exact ⟨Enclosure.secantInside_negated, fun _ _ _ _ => rfl⟩
  | illinois => exact ⟨Enclosure.secantInside_negated, fun _ _ _ _ => rfl⟩

theorem Method.solve_negated (method : Method) {p : Policy} (hp : p.Even) (f : Float → Float)
    (b : Bracket) (cap : UInt64) :
    method.solve (fun x => -f x) b cap p = (method.solve f b cap p).negated Enclosure.negated := by
  rw [method.solve_eq, method.solve_eq, method.rule_symmetric.solve hp, Run.negated_map_enclosure]

/-! ## Open methods -/

namespace OpenMethod

/-- Both methods take the same step, or refuse it, where the values are opposite. -/
structure Mirrors (d d' : OpenMethod) : Prop where
  queries : ∀ x, d'.queries x = d.queries x
  isUnstable : ∀ s : Sample, (d'.correction s.negated).isUnstable = (d.correction s).isUnstable
  quotient : ∀ s : Sample, (d'.correction s.negated).quotient = (d.correction s).quotient

variable {d d' : OpenMethod} {p : Policy}

theorem Mirrors.iteration (h : d.Mirrors d') :
    d.iteration.Mirrors d'.iteration Sample.negated where
  queries s := h.queries s.x
  propose i s := by
    unfold OpenMethod.iteration
    dsimp only
    rw [h.isUnstable, h.quotient]
    rfl
  previous _ _ _ := rfl
  absorb _ _ _ := rfl
  latest _ := rfl

theorem Mirrors.solve (h : d.Mirrors d') (hp : p.Even) (f : Float → Float) (start : Float)
    (cap : UInt64) :
    d'.solve (fun x => -f x) start cap p = (d.solve f start cap p).negated Sample.negated := by
  unfold OpenMethod.solve
  dsimp only
  rw [isFinite_neg_float, beq_zero_neg]
  split
  · rfl
  · split
    · rfl
    · split
      · rfl
      · exact h.iteration.run hp f cap _ ⟨start, f start⟩

end OpenMethod

theorem newtonMethod_mirrors (d1 : Float → Float) :
    (newtonMethod d1).Mirrors (newtonMethod fun x => -d1 x) where
  queries _ := rfl
  isUnstable s :=
    congrArg₂ (fun finite size => !finite || decide (size < Correction.leastNormal))
      (isFinite_neg_float (d1 s.x)) (abs_neg (d1 s.x))
  quotient s := by
    show -s.value / -d1 s.x = s.value / d1 s.x
    exact Binary64.neg_div_neg s.value (d1 s.x)

theorem halleyMethod_mirrors (d1 d2 : Float → Float) :
    (halleyMethod d1 d2).Mirrors (halleyMethod (fun x => -d1 x) fun x => -d2 x) := by
  have hcorrection (s : Sample) :
      (halleyMethod (fun x => -d1 x) fun x => -d2 x).correction s.negated =
        (halleyMethod d1 d2).correction s := by
    unfold halleyMethod
    dsimp only [Sample.negated]
    rw [mul_neg_mul_neg, mul_neg_mul_neg, Binary64.neg_mul_neg]
  refine ⟨fun _ => rfl, fun s => ?_, fun s => ?_⟩
  · rw [hcorrection]
  · rw [hcorrection]

/-! ## Scans -/

namespace Cursor

variable {g : Grid} {f : Float → Float}

def negated (c : Cursor g) : Cursor g := { c with value := -c.value }

theorem bracketAt_neg {a b : Float} (fa fb : Float) (ha : a.isFinite = true) (hb : b.isFinite = true)
    (hab : a ≤ b) : bracketAt (-fa) (-fb) ha hb hab = bracketAt fa fb ha hb hab := by
  unfold bracketAt
  rw [bne, bne, beq_zero_neg, beq_zero_neg, oppositeSigns_neg]

end Cursor

def Leg.negated {g : Grid} (leg : Leg g) : Leg g := ⟨leg.visited, leg.cursor.negated⟩

namespace Cursor

variable {g : Grid} {f : Float → Float}

theorem step_negated (f : Float → Float) (c : Cursor g) (h : c.x < g.hi) :
    c.negated.step (fun x => -f x) h = (c.step f h).negated := by
  have hfound := bracketAt_neg c.value (f (g.next (c.windows + 1) c.x)) c.finite
    (c.isFinite_next h) (c.le_next h)
  exact congrArg (Cursor.mk (c.windows + 1) (g.next (c.windows + 1) c.x)
    (-f (g.next (c.windows + 1) c.x)) (c.isFinite_next h)) hfound

theorem seek_negated (f : Float → Float) (c : Cursor g) :
    seek (fun x => -f x) c.negated [] = (seek f c []).negated := by
  refine seek_induction (f := f)
    (motive := fun c leg => seek (fun x => -f x) c.negated [] = leg.negated) ?_ ?_ ?_ c
  · intro c h hfound
    have hstep := c.step_negated f h
    rw [seek_of_found (c := c.negated) h (hstep ▸ hfound), hstep]
    rfl
  · intro c h leg hnone ih
    have hstep := c.step_negated f h
    rw [seek_of_none (c := c.negated) h (hstep ▸ hnone), hstep, ih]
    rfl
  · intro c h
    exact seek_of_end (c := c.negated) h

theorem start_negated (g : Grid) (f : Float → Float) :
    start g (fun x => -f x) = (start g f).negated := by
  have hlo := beq_zero_neg (f g.lo)
  have hzero {h : Float → Float} (hz : (h g.lo == 0) = true) : start g h =
      ⟨[g.lo], ⟨0, g.lo, h g.lo, g.bounds.lo_finite, some (.degenerate g.lo g.bounds.lo_finite)⟩⟩ :=
    if_pos hz
  have hseek {h : Float → Float} (hz : (h g.lo == 0) = false) : start g h =
      let leg := seek h ⟨0, g.lo, h g.lo, g.bounds.lo_finite, none⟩ []
      ⟨g.lo :: leg.visited, leg.cursor⟩ :=
    (if_neg (Bool.eq_false_iff.1 hz)).trans (seek_past h _ [g.lo])
  cases hz : f g.lo == 0 with
  | true =>
    rw [hzero hz, hzero (h := fun x => -f x) (hlo.trans hz)]
    rfl
  | false =>
    have hneg := seek_negated f (⟨0, g.lo, f g.lo, g.bounds.lo_finite, none⟩ : Cursor g)
    rw [hseek hz, hseek (h := fun x => -f x) (hlo.trans hz)]
    exact congrArg (fun leg : Leg g => Leg.mk (g.lo :: leg.visited) leg.cursor) hneg

end Cursor

namespace Grid

variable {g : Grid}

theorem scanFrom_negated (f : Float → Float) (leg : Leg g) :
    scanFrom (fun x => -f x) leg.negated [] = scanFrom f leg [] := by
  refine scanFrom_induction (f := f)
    (motive := fun leg pass => scanFrom (fun x => -f x) leg.negated [] = pass) ?_ ?_ leg
  · intro leg h
    have hneg : leg.negated.cursor.current = none := h
    exact scanFrom_of_none hneg
  · intro leg bracket pass h ih
    have hnext : leg.negated.cursor.advance (fun x => -f x) = (leg.cursor.advance f).negated :=
      Cursor.seek_negated f leg.cursor
    have hneg : leg.negated.cursor.current = some bracket := h
    rw [scanFrom_of_some hneg, hnext, ih]
    rfl

theorem scan_neg (g : Grid) (f : Float → Float) : g.scan (fun x => -f x) = g.scan f := by
  unfold scan
  rw [Cursor.start_negated, scanFrom_negated]

theorem survey_neg (g : Grid) (f : Float → Float) (settings : Settings) (method : Method) :
    g.survey (fun x => -f x) settings method = g.survey f settings method := by
  have hmirrors (b : Bracket) : (method.solve f b settings.maxIterations settings.policy).Mirrors
      (method.solve (fun x => -f x) b settings.maxIterations settings.policy) := by
    rw [method.solve_negated settings.policy_standard.even]
    exact Run.mirrors_negated _ _
  have houtcome (b : Bracket) := (hmirrors b).outcome
  have hqueries (b : Bracket) := (hmirrors b).queries
  simp only [survey_eq, scan_neg, houtcome, hqueries]

end Grid

theorem findRoots_neg (f : Float → Float) (bounds : Bounds) (window : Float) (settings : Settings)
    (method : Method) :
    findRoots (fun x => -f x) bounds window settings method =
      findRoots f bounds window settings method := by
  unfold findRoots
  simp only [Grid.survey_neg]

/-- Negating a function changes no search for its zeros. The runs of all five solvers, whose policy
does not look at the sign of the value, mirror those for the function, and its scans and surveys are
the same. -/
theorem searches_unchanged_by_negation (f : Float → Float) {p : Policy} (hp : p.Even) :
    (∀ (method : Method) (b : Bracket) (cap : UInt64),
      (method.solve f b cap p).Mirrors (method.solve (fun x => -f x) b cap p)) ∧
    (∀ (d1 : Float → Float) (start : Float) (cap : UInt64),
      (newton f d1 start cap p).Mirrors
        (newton (fun x => -f x) (fun x => -d1 x) start cap p)) ∧
    (∀ (d1 d2 : Float → Float) (start : Float) (cap : UInt64),
      (halley f d1 d2 start cap p).Mirrors
        (halley (fun x => -f x) (fun x => -d1 x) (fun x => -d2 x) start cap p)) ∧
    (∀ g : Grid, g.scan (fun x => -f x) = g.scan f) ∧
    (∀ (bounds : Bounds) (window : Float) (settings : Settings) (method : Method),
      findRoots (fun x => -f x) bounds window settings method =
        findRoots f bounds window settings method) ∧
    ∀ q : Policy, q.Standard → q.Even := by
  refine ⟨fun method b cap => ?_, fun d1 start cap => ?_, fun d1 d2 start cap => ?_,
    fun g => g.scan_neg f, findRoots_neg f, fun q hq => hq.even⟩
  · rw [method.solve_negated hp]
    exact Run.mirrors_negated _ _
  · have hrun := (newtonMethod_mirrors d1).solve hp f start cap
    unfold newton
    rw [hrun]
    exact Run.mirrors_negated _ _
  · have hrun := (halleyMethod_mirrors d1 d2).solve hp f start cap
    unfold halley
    rw [hrun]
    exact Run.mirrors_negated _ _

/-- The Illinois method on `x * x - 1.25` between 1 and 2 asks its policy twice, and so it does on the
negated function. -/
theorem searches_unchanged_by_negation_of_square :
    (Policy.combined 0.25 0).Even ∧
    (Method.illinois.solve (fun x => x * x - 1.25) ⟨⟨1, 2⟩, rfl, rfl, by decide⟩ 3
      (.combined 0.25 0)).observations.length = 2 ∧
    (Method.illinois.solve (fun x => x * x - 1.25) ⟨⟨1, 2⟩, rfl, rfl, by decide⟩ 3
      (.combined 0.25 0)).Mirrors
      (Method.illinois.solve (fun x => -(x * x - 1.25)) ⟨⟨1, 2⟩, rfl, rfl, by decide⟩ 3
        (.combined 0.25 0)) := by
  have hp : (Policy.combined 0.25 0).Even := Policy.Standard.even ⟨trivial, trivial⟩
  exact ⟨hp, by decide +kernel, (searches_unchanged_by_negation (fun x => x * x - 1.25) hp).1
    .illinois ⟨⟨1, 2⟩, rfl, rfl, by decide⟩ 3⟩

end ZeroSearch
