import Mathlib
import ZeroSearch.Proofs.Containment
import ZeroSearch.Proofs.Counter
import ZeroSearch.Proofs.SignInvariant

/-!
# Bisection without rounding

The latest point of a bisection is always an end of the enclosure, whichever end it replaced; before
the first round the lower end stands in. So where middles are computed exactly, the step from the
latest point to the middle is as long as either half of the enclosure is wide, and that is the width
of the bracket halved as often as there were rounds (`Round.Halves`). A step tolerance is then a
bound on the width, and the number of iterations is known in advance (`bisection_halves`).

Only the middles are assumed to be exact. The difference that a step tolerance takes is half of a
width, up to its sign, which the middle was computed from; so it cannot be rounded either.
-/

namespace ZeroSearch

open Binary64

/-! ## Exact results -/

namespace Binary64

variable {q : ℚ} {x y : Float}

/-- The float `x` stands for the number `q`, and is not the result of an overflow. -/
structure Exact (q : ℚ) (x : Float) : Prop where
  finite : x.isFinite = true
  toRat_eq : toRat x = q

/-- A number that a float stands for is not rounded, nor is its negative. -/
theorem Rounded.exact (h : Rounded q x) (hy : y.isFinite = true) (hq : |q| = |toRat y|) :
    Exact q x := by
  have hfin := isFinite_iff_ordinal.1 hy
  obtain ⟨n, hn, hlow, hhigh⟩ :
      ∃ n, level n = q ∧ -0x7ff0000000000000 < n ∧ n < 0x7ff0000000000000 := by
    obtain rfl | rfl := abs_eq_abs.1 hq
    · exact ⟨ordinal y, rfl, hfin.2⟩
    · exact ⟨-ordinal y, level_neg _, by omega, by omega⟩
  rw [← hn] at h
  have hord := h.ordinal_of_level (by unfold clamp; omega)
  rw [← hord] at hlow hhigh
  exact ⟨isFinite_iff_ordinal.2 ⟨h.not_nan, hlow, hhigh⟩, by rw [toRat, hord, hn]⟩

theorem Rounded.exact_natCast {m : Nat} (h : Rounded m x) (hm : m ≤ 0x20000000000000) :
    Exact m x := by
  refine h.exact (isFinite_toFloat (.ofNat m)) ?_
  have hmod : (UInt64.ofNat m).toNat = m := by
    rw [UInt64.toNat_ofNat']
    omega
  rw [toRat_toFloat (by omega), hmod]

theorem Exact.abs (h : Exact q x) : Exact |q| x.abs :=
  ⟨(isFinite_abs x).trans h.finite, by rw [toRat_abs, h.toRat_eq]⟩

end Binary64

/-! ## One halving -/

/-- None of the operations that lead to the middle rounds. -/
structure Interval.HalvesExactly (i : Interval) : Prop where
  width : Exact (toRat i.hi - toRat i.lo) i.width
  half : Exact (toRat i.width / 2) (i.width * 0.5)
  middle : Exact (toRat i.lo + toRat (i.width * 0.5)) (i.lo + i.width * 0.5)

namespace Interval.HalvesExactly

variable {i : Interval} (h : i.HalvesExactly)
include h

theorem toRat_half : toRat (i.width * 0.5) = (toRat i.hi - toRat i.lo) / 2 := by
  rw [h.half.toRat_eq, h.width.toRat_eq]

theorem exact_middle : Exact (toRat i.lo + (toRat i.hi - toRat i.lo) / 2) i.middle := by
  have hmid : i.middle = i.lo + i.width * 0.5 := if_pos h.width.finite
  rw [hmid, ← h.toRat_half]
  exact h.middle

/-- A difference as large as half the width is exact. -/
theorem exact_sub {x y : Float} (hx : x.isFinite = true) (hy : y.isFinite = true)
    (hxy : |toRat x - toRat y| = (toRat i.hi - toRat i.lo) / 2) :
    Exact (toRat x - toRat y) (x - y) :=
  (sub_rounded hx hy).exact h.half.finite (by rw [h.toRat_half, ← hxy, abs_abs])

end Interval.HalvesExactly

/-- Nothing is rounded between whole numbers an even distance apart. -/
theorem Interval.halvesExactly_of_whole {lo hi : UInt64} {n : Nat}
    (hhi : hi.toNat = lo.toNat + 2 * n) (hle : hi.toNat ≤ 0x20000000000000) :
    (⟨lo.toFloat, hi.toFloat⟩ : Interval).HalvesExactly := by
  have hlo := toRat_toFloat (k := lo) (by omega)
  have hhi' := toRat_toFloat hle
  have hdiff : toRat hi.toFloat - toRat lo.toFloat = (2 * n : Nat) := by
    rw [hlo, hhi', hhi]
    push_cast
    ring
  have hwidth := sub_rounded (isFinite_toFloat hi) (isFinite_toFloat lo)
  rw [hdiff] at hwidth
  have hwidth := hwidth.exact_natCast (by omega)
  have hhalf := half_rounded hwidth.finite
  have htwo : toRat (hi.toFloat - lo.toFloat) / 2 = n := by
    rw [hwidth.toRat_eq]
    push_cast
    ring
  rw [htwo] at hhalf
  have hhalf := hhalf.exact_natCast (by omega)
  have hmid := add_rounded (isFinite_toFloat lo) hhalf.finite
  have hsum : toRat lo.toFloat + toRat ((hi.toFloat - lo.toFloat) * 0.5) =
      (lo.toNat + n : Nat) := by
    rw [hlo, hhalf.toRat_eq, Nat.cast_add]
  exact ⟨hdiff ▸ hwidth, htwo ▸ hhalf, hsum ▸ (hsum ▸ hmid).exact_natCast (by omega)⟩

/-- The middle halves the width, whichever end it replaces. -/
theorem Enclosure.width_narrow {e : Enclosure} (h : e.HalvesExactly) (y : Float) :
    toRat (e.narrow e.middle y).hi - toRat (e.narrow e.middle y).lo =
      (toRat e.hi - toRat e.lo) / 2 := by
  have hmid := h.exact_middle.toRat_eq
  cases hr : e.replaced y with
  | lower =>
    rw [narrow_lower hr]
    dsimp only
    rw [hmid]
    ring
  | upper =>
    rw [narrow_upper hr]
    dsimp only
    rw [hmid]
    ring

/-! ## Rounds -/

/-- Nothing is rounded on the way to the middle, and the value there does not end the run. -/
structure Round.Unrounded (r : Round (Pursuit Unit)) (f : Float → Float) : Prop where
  halves : r.before.enclosure.HalvesExactly
  finite : (f r.before.enclosure.middle).isFinite = true
  ne_zero : (f r.before.enclosure.middle == 0) = false

theorem Round.Unrounded.of_whole {r : Round (Pursuit Unit)} {f : Float → Float} {lo hi : UInt64}
    {n : Nat} (hends : (r.before.enclosure.lo, r.before.enclosure.hi) = (lo.toFloat, hi.toFloat))
    (hhi : hi.toNat = lo.toNat + 2 * n) (hle : hi.toNat ≤ 0x20000000000000)
    (hfin : (f (midpoint lo.toFloat hi.toFloat)).isFinite = true)
    (hz : (f (midpoint lo.toFloat hi.toFloat) == 0) = false) : r.Unrounded f := by
  obtain ⟨hlo, hhi'⟩ := Prod.mk.inj hends
  have hinterval : r.before.enclosure.toInterval = ⟨lo.toFloat, hi.toFloat⟩ := by
    rw [← hlo, ← hhi']
  have hmid : r.before.enclosure.middle = midpoint lo.toFloat hi.toFloat := by
    rw [hinterval]
    rfl
  exact ⟨hinterval ▸ Interval.halvesExactly_of_whole hhi hle, hmid ▸ hfin, hmid ▸ hz⟩

/-- What round number `k` does to a bracket of width `w`. -/
structure Round.Halves (r : Round (Pursuit Unit)) (w : ℚ) (k : Nat) : Prop where
  latest : r.before.latest = r.before.enclosure.lo ∨ r.before.latest = r.before.enclosure.hi
  narrowed : ∃ o ∈ r.observation, ∃ t ∈ r.after,
    o.previous = r.before.latest ∧ o.current = t.latest ∧
      Exact (w / 2 ^ k) (o.current - o.previous).abs ∧ Exact (w / 2 ^ k) t.enclosure.width ∧
      toRat t.enclosure.hi - toRat t.enclosure.lo = w / 2 ^ k

/-- The state after `n` halvings of a bracket of width `w` within `b`. -/
structure Pursuit.Halved (s : Pursuit Unit) (b : Interval) (w : ℚ) (n : Nat) : Prop where
  confined : s.Confined b
  latest : s.latest = s.enclosure.lo ∨ s.latest = s.enclosure.hi
  width : toRat s.enclosure.hi - toRat s.enclosure.lo = w / 2 ^ n

section

variable {f : Float → Float} {b : Bracket} {e : Enclosure} {p : Policy} {i : UInt64} {w : ℚ}
  {s t : Pursuit Unit} {r : Round (Pursuit Unit)} {next : Iteration.Next (Pursuit Unit)} {n : Nat}

theorem halved_start (hopen : (Enclosure.ofBracket f b).result = .ok e) :
    (bisectionRule.start e).Halved b.toInterval (toRat b.hi - toRat b.lo) 0 := by
  refine ⟨Rule.Inside.confined_start hopen, .inl rfl, ?_⟩
  rw [pow_zero, div_one, Enclosure.eq_of_ofBracket hopen]
  rfl

theorem Pursuit.Halved.half (hs : s.Halved b.toInterval w n) :
    (toRat s.enclosure.hi - toRat s.enclosure.lo) / 2 = w / 2 ^ (n + 1) := by
  rw [hs.width, div_div, pow_succ]

theorem Pursuit.Halved.half_nonneg (hs : s.Halved b.toInterval w n) : 0 ≤ w / 2 ^ (n + 1) := by
  have hord := hs.confined.ordered
  have hle := (toRat_le_toRat (not_isNaN_of_isFinite hord.lo_finite)
    (not_isNaN_of_isFinite hord.hi_finite)).2 hord.lo_le_hi
  rw [← hs.half]
  linarith

theorem Pursuit.Halved.isFinite_latest (hs : s.Halved b.toInterval w n) :
    s.latest.isFinite = true := b.ordered.isFinite hs.confined.latest

/-- The middle is half the width away from the latest point, because that is an end. -/
theorem Pursuit.Halved.abs_sub (hs : s.Halved b.toInterval w n) (h : s.enclosure.HalvesExactly) :
    |toRat s.enclosure.middle - toRat s.latest| = w / 2 ^ (n + 1) := by
  have hnonneg := hs.half_nonneg
  have hhalf := hs.half
  rw [h.exact_middle.toRat_eq]
  obtain hl | hl := hs.latest
  · rw [hl, abs_of_nonneg (by linarith)]
    linarith
  · rw [hl, abs_of_nonpos (by linarith)]
    linarith

theorem halved_of_go (hs : s.Halved b.toInterval w n) (h : s.enclosure.HalvesExactly)
    (hstep : bisectionRule.iteration.Step f p i s r (.go t)) : t.Halved b.toInterval w (n + 1) := by
  have ht := bisectionRule_inside.confined_of_go hs.confined hstep
  obtain ⟨x, m, -, -, rfl, rfl⟩ := Rule.of_go hstep
  exact ⟨ht, (Enclosure.eq_end_of_narrow ..).imp Eq.symm Eq.symm,
    (Enclosure.width_narrow h _).trans hs.half⟩

theorem halves_of_step (hs : s.Halved b.toInterval w n) (hr : r.Unrounded f)
    (hstep : bisectionRule.iteration.Step f p i s r next) : r.Halves w (n + 1) := by
  obtain ⟨h, hfin, hz⟩ := hr
  have hbefore := hstep.before_eq
  rw [hbefore] at h hfin hz
  refine ⟨hbefore ▸ hs.latest, ?_⟩
  obtain ⟨x, rfl, -, ⟨hends, -⟩ | ⟨-, -, hobs, m, hafter⟩⟩ := Rule.completed_of_step hstep
  · obtain hends | hends := hends
    · exact absurd (hends.symm.trans hfin) Bool.false_ne_true
    · exact absurd (hz.symm.trans hends) Bool.false_ne_true
  have hord := hs.confined.ordered
  have hnarrow := (Enclosure.within_narrow hord hord.contains_middle (f s.enclosure.middle)).1
  have hwidth := (Enclosure.width_narrow h (f s.enclosure.middle)).trans hs.half
  have hmove := hs.abs_sub h
  refine ⟨_, hobs, _, hafter, hbefore ▸ rfl, rfl, ?_, ?_, hwidth⟩
  · have hsub := h.exact_sub h.exact_middle.finite hs.isFinite_latest (hmove.trans hs.half.symm)
    exact hmove ▸ hsub.abs
  · have hsub := h.exact_sub hnarrow.hi_finite hnarrow.lo_finite
      (by rw [hwidth, hs.half, abs_of_nonneg hs.half_nonneg])
    exact hwidth ▸ hsub

end

/-! ## Runs -/

/-- If every round asks the policy, the calls are numbered as the rounds are. -/
theorem Run.getElem?_observations {σ : Type} {run : Run σ}
    (h : ∀ r ∈ run.rounds, ∃ o, r.observation = some o) (n : Nat) :
    run.observations[n]? = run.rounds[n]?.bind Round.observation := by
  rw [observations]
  generalize run.rounds = rs at h
  induction rs generalizing n with
  | nil => rfl
  | cons r rs ih =>
    obtain ⟨o, ho⟩ := h r List.mem_cons_self
    rw [List.filterMap_cons_some ho]
    cases n with
    | zero => exact ho.symm
    | succ n => exact ih n fun q hq => h q (List.mem_cons_of_mem _ hq)

/-- The run ends with iteration `k`, at an end of the enclosure that the last round left. That
straddles a sign change and is not wider than `ε`. -/
structure Run.FoundWithin (run : Run (Pursuit Unit)) (f : Float → Float) (opened : Enclosure)
    (ε : ℚ) (k : Nat) : Prop where
  length : run.rounds.length = k
  root : ∃ x, run.outcome = .found ⟨x, .ofNat k, (f x).abs⟩ ∧
    ∃ r ∈ run.rounds.getLast?, ∃ t ∈ (r.map Pursuit.enclosure).after,
      t.Straddles f opened ∧ (t.lo = x ∨ t.hi = x) ∧ toRat t.hi - toRat t.lo ≤ ε

/-- The halvings that a step tolerance asks for: at least one. -/
def halvingsTo (w ε : ℚ) : Set Nat := {k | 1 ≤ k ∧ w ≤ ε * 2 ^ k}

theorem exists_isLeast_halvingsTo (w : ℚ) {ε : ℚ} (hε : 0 < ε) :
    ∃ k, IsLeast (halvingsTo w ε) k := by
  obtain ⟨n, hn⟩ := pow_unbounded_of_one_lt (w / ε) (one_lt_two : (1 : ℚ) < 2)
  have hmem : n + 1 ∈ halvingsTo w ε := by
    have hle : w ≤ ε * 2 ^ n := by rw [mul_comm]; exact ((div_lt_iff₀ hε).1 hn).le
    refine ⟨Nat.succ_pos n, hle.trans ?_⟩
    gcongr
    · norm_num
    · exact Nat.le_succ n
  exact ⟨sInf (halvingsTo w ε), Nat.sInf_mem ⟨_, hmem⟩, fun k hk => Nat.sInf_le hk⟩

section

variable {f : Float → Float} {b : Bracket} {e : Enclosure} {p : Policy} {cap : UInt64} {ε : Float}
  {r : Round (Pursuit Unit)} {n : Nat}
  (hopen : (Enclosure.ofBracket f b).result = .ok e) (hroot : e.endpointRoot = none)

theorem step_accepts (hε : 0 < ε) {o : Observation} {q : ℚ}
    (h : Exact q (o.current - o.previous).abs) :
    (Policy.step ε).accepts o = true ↔ q ≤ toRat ε := by
  show decide ((o.current - o.previous).abs ≤ ε) = true ↔ _
  rw [decide_eq_true_iff, ← h.toRat_eq,
    toRat_le_toRat (not_isNaN_of_isFinite h.finite) (not_isNaN_of_lt hε).2]

include hopen hroot

theorem rounds_halve (hexact : ∀ r ∈ (bisection f b cap p).rounds, r.Unrounded f)
    (hn : (bisection f b cap p).rounds[n]? = some r) :
    r.Halves (toRat b.hi - toRat b.lo) (n + 1) := by
  have hrun := bisectionRule.iteration.run_course f p cap [.value b.lo, .value b.hi]
    (bisectionRule.start e)
  have hr := hexact r (List.mem_of_getElem? hn)
  rw [bisection, Rule.solve_of_opened hopen hroot] at hexact hn
  -- Rounds have halved exactly as long as none of them has rounded.
  obtain ⟨i, s, next, hs, hstep⟩ := hrun.history
    (P := fun past _ s => (∀ r ∈ past, r.Unrounded f) →
      s.Halved b.toInterval (toRat b.hi - toRat b.lo) past.length)
    (fun {past i s r t} hs _ hstep hpast => by
      have hr := (hpast r (by simp)).halves
      rw [hstep.before_eq] at hr
      rw [List.length_append, List.length_singleton]
      exact halved_of_go (hs fun q hq => hpast q (List.mem_append_left _ hq)) hr hstep)
    [] (fun _ => halved_start hopen) hn
  have hlt := (List.getElem?_eq_some_iff.1 hn).1
  rw [List.nil_append, List.length_take, min_eq_left hlt.le] at hs
  exact halves_of_step (hs fun q hq => hexact q (List.mem_of_mem_take hq)) hr hstep

/-- A round that ends the run has been accepted, so there are as many rounds as are needed to come
down to the tolerance. -/
theorem le_length_rounds (hε : 0 < ε)
    (hexact : ∀ r ∈ (bisection f b cap (.step ε)).rounds, r.Unrounded f) {k : Nat}
    (hk : IsLeast (halvingsTo (toRat b.hi - toRat b.lo) (toRat ε)) k) (hcap : k ≤ cap.toNat) :
    k ≤ (bisection f b cap (.step ε)).rounds.length := by
  have hroom : (1 : UInt64).toNat + k ≤ cap.toNat + 1 := by
    rw [UInt64.toNat_one]
    omega
  have hhalve : ∀ n : Nat, ∀ r ∈ (bisection f b cap (.step ε)).rounds[n]?,
      r.Halves (toRat b.hi - toRat b.lo) (n + 1) := fun _ _ => rounds_halve hopen hroot hexact
  rw [bisection, Rule.solve_of_opened hopen hroot] at hhalve ⊢
  obtain hle | ⟨r, hr, j, s, o, hstep⟩ := bisectionRule.iteration.loop_reaches f (.step ε)
    (Nat.le_succ_of_le hcap) hroom (bisectionRule.start e)
  · exact hle
  obtain ⟨n, hn⟩ := List.mem_iff_getElem?.1 hr
  obtain ⟨obs, hobs, t, ht, -, -, hexact, -⟩ := (hhalve n r hn).narrowed
  have haccepts : (Policy.step ε).accepts obs = true := by
    cases hstep with
    | refused => cases hobs
    | nonFinite => cases hobs
    | zero => cases hobs
    | accepted hx hfin hz ha =>
      cases hobs
      exact ha
  have hmem : n + 1 ∈ halvingsTo (toRat b.hi - toRat b.lo) (toRat ε) :=
    ⟨Nat.succ_pos n, (div_le_iff₀ (by positivity)).1 ((step_accepts hε hexact).1 haccepts)⟩
  have hlt := (List.getElem?_eq_some_iff.1 hn).1
  exact (hk.2 hmem).trans hlt

theorem found_within (hε : 0 < ε)
    (hexact : ∀ r ∈ (bisection f b cap (.step ε)).rounds, r.Unrounded f) {k : Nat}
    (hk : IsLeast (halvingsTo (toRat b.hi - toRat b.lo) (toRat ε)) k) (hcap : k ≤ cap.toNat) :
    (bisection f b cap (.step ε)).FoundWithin f e (toRat ε) k := by
  have hlen := le_length_rounds hopen hroot hε hexact hk hcap
  obtain ⟨hpos, hle⟩ := hk.1
  obtain ⟨n, rfl⟩ := Nat.exists_eq_add_of_le' hpos
  obtain ⟨r, hn⟩ : ∃ r, (bisection f b cap (.step ε)).rounds[n]? = some r :=
    ⟨_, List.getElem?_eq_getElem hlen⟩
  obtain ⟨o, hobs, t, ht, -, -, hstep, -, hwidth⟩ := (rounds_halve hopen hroot hexact hn).narrowed
  have hwithin := (div_le_iff₀ (by positivity)).2 hle
  have haccepts := (step_accepts hε hstep).2 hwithin
  rw [bisection, Rule.solve_of_opened hopen hroot] at hn ⊢
  have hrun := bisectionRule.iteration.run_course f (.step ε) cap [.value b.lo, .value b.hi]
    (bisectionRule.start e)
  have hr := List.mem_of_getElem? hn
  obtain ⟨i, s, next, hs, hround⟩ := hrun.rounds (P := fun s => s.enclosure.Straddles f e)
    Rule.straddles_of_go (Enclosure.straddles_of_ofBracket hopen hroot) r hr
  obtain ⟨hvalue, t', ht', hstraddles, hend⟩ := Rule.end_of_observation hs hround hobs
  obtain rfl : t' = t.enclosure := by
    rw [Round.map, ht] at ht'
    exact (Option.some.inj ht').symm
  have hlast := hrun.length_of_accepts hn hobs haccepts
  refine ⟨hlast, o.current, ?_, r, ?_, _, ht', hstraddles, hend, ?_⟩
  · rw [hrun.outcome_of_accepts hr hobs haccepts, hvalue, hrun.numbered hn, UInt64.ofNat_add,
      UInt64.add_comm]
    rfl
  · rw [List.getLast?_eq_getElem?, hlast, Nat.add_sub_cancel]
    exact hn
  · rw [hwidth]
    exact hwithin

end

/-- In a bisection whose middles are exact and whose values there do not end it, the latest point is
an end of the enclosure at the head of every round; call number `k` of the policy is that of round
number `k`, and its step is as long as the narrowed enclosure is wide, which is the width of the
bracket halved `k` times. Under a step tolerance the run therefore ends with the first iteration
that has brought the width down to it. -/
theorem bisection_halves {f : Float → Float} {b : Bracket} {e : Enclosure} {cap : UInt64}
    {p : Policy} (hopen : (Enclosure.ofBracket f b).result = .ok e) (hroot : e.endpointRoot = none)
    (hexact : ∀ r ∈ (bisection f b cap p).rounds, r.Unrounded f) :
    (∀ n : Nat, ∀ r ∈ (bisection f b cap p).rounds[n]?,
      r.Halves (toRat b.hi - toRat b.lo) (n + 1)) ∧
    (∀ n : Nat, (bisection f b cap p).observations[n]? =
      (bisection f b cap p).rounds[n]?.bind Round.observation) ∧
    ∀ ε, p = .step ε → 0 < ε →
      ∃ k, IsLeast (halvingsTo (toRat b.hi - toRat b.lo) (toRat ε)) k ∧
        (k ≤ cap.toNat → (bisection f b cap p).FoundWithin f e (toRat ε) k) := by
  have hhalve : ∀ n : Nat, ∀ r ∈ (bisection f b cap p).rounds[n]?,
      r.Halves (toRat b.hi - toRat b.lo) (n + 1) := fun _ _ => rounds_halve hopen hroot hexact
  refine ⟨hhalve, Run.getElem?_observations fun r hr => ?_, ?_⟩
  · obtain ⟨n, hn⟩ := List.mem_iff_getElem?.1 hr
    obtain ⟨o, ho, -⟩ := (hhalve n r hn).narrowed
    exact ⟨o, ho⟩
  · rintro ε rfl hε
    obtain ⟨k, hk⟩ := exists_isLeast_halvingsTo (toRat b.hi - toRat b.lo) (toRat_pos hε)
    exact ⟨k, hk, found_within hopen hroot hε hexact hk⟩

/-- The root of `x * x - 30` between 0 and 8 is found to within 1 by three exact halvings. -/
theorem bisection_halves_of_square :
    (Enclosure.ofBracket (fun x => x * x - 30) ⟨⟨0, 8⟩, rfl, rfl, by decide⟩).result =
      .ok ⟨⟨0, 8⟩, -30, 34⟩ ∧
    Enclosure.endpointRoot ⟨⟨0, 8⟩, -30, 34⟩ = none ∧
    (∀ r ∈ (bisection (fun x => x * x - 30) ⟨⟨0, 8⟩, rfl, rfl, by decide⟩ 5 (.step 1)).rounds,
      r.Unrounded fun x => x * x - 30) ∧
    (0 : Float) < 1 ∧
    (bisection (fun x => x * x - 30) ⟨⟨0, 8⟩, rfl, rfl, by decide⟩ 5 (.step 1)).FoundWithin
      (fun x => x * x - 30) ⟨⟨0, 8⟩, -30, 34⟩ 1 3 := by
  have hopen : (Enclosure.ofBracket (fun x => x * x - 30) ⟨⟨0, 8⟩, rfl, rfl, by decide⟩).result =
      .ok ⟨⟨0, 8⟩, -30, 34⟩ := by
    have hlo : (0 : Float) * 0 - 30 = -30 := by decide +kernel
    have hhi : (8 : Float) * 8 - 30 = 34 := by decide +kernel
    rw [Enclosure.result_ofBracket]
    dsimp only
    rw [hlo, hhi, if_neg (by decide +kernel), if_neg (by decide +kernel)]
  have hroot : Enclosure.endpointRoot ⟨⟨0, 8⟩, -30, 34⟩ = none := by decide +kernel
  have hexact : ∀ r ∈ (bisection (fun x => x * x - 30) ⟨⟨0, 8⟩, rfl, rfl, by decide⟩ 5
      (.step 1)).rounds, r.Unrounded fun x => x * x - 30 := by
    have hends : (bisection (fun x => x * x - 30) ⟨⟨0, 8⟩, rfl, rfl, by decide⟩ 5
        (.step 1)).rounds.map (fun r => (r.before.enclosure.lo, r.before.enclosure.hi)) =
          [(UInt64.toFloat 0, UInt64.toFloat 8), (UInt64.toFloat 4, UInt64.toFloat 8),
            (UInt64.toFloat 4, UInt64.toFloat 6)] := by
      decide +kernel
    intro r hr
    have hmem := hends ▸ List.mem_map_of_mem (f := fun r : Round (Pursuit Unit) =>
      (r.before.enclosure.lo, r.before.enclosure.hi)) hr
    simp only [List.mem_cons, List.not_mem_nil, or_false] at hmem
    obtain hends | hends | hends := hmem
    · exact .of_whole hends (n := 4) rfl (by decide) (by decide +kernel)
        (by decide +kernel)
    · exact .of_whole hends (n := 2) rfl (by decide) (by decide +kernel)
        (by decide +kernel)
    · exact .of_whole hends (n := 1) rfl (by decide) (by decide +kernel)
        (by decide +kernel)
  have hε : (0 : Float) < 1 := by decide +kernel
  have hone : toRat 1 = 1 := toRat_of_whole (k := 1) (by decide +kernel) (by decide)
  have height : toRat 8 = 8 := toRat_of_whole (k := 8) (by decide +kernel) (by decide)
  have hleast : IsLeast (halvingsTo (toRat 8 - toRat 0) (toRat 1)) 3 := by
    rw [height, hone, toRat_zero]
    refine ⟨⟨by norm_num, by norm_num⟩, fun k hk => ?_⟩
    by_contra hlt
    have hpow : (2 : ℚ) ^ k ≤ 2 ^ 2 := by
      gcongr
      · norm_num
      · omega
    linarith [hk.2]
  obtain ⟨-, -, hfound⟩ := bisection_halves hopen hroot hexact
  obtain ⟨k, hk, hwithin⟩ := hfound 1 rfl hε
  obtain rfl := hk.unique hleast
  exact ⟨hopen, hroot, hexact, hε, hone ▸ hwithin (by decide)⟩

end ZeroSearch
