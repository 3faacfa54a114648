import Mathlib
import ZeroSearch.Proofs.Signs
import ZeroSearch.Proofs.Solving

/-!
# The sign invariant

The enclosure of a bracketing method keeps a sign change between its ends, through every round of
every run: it holds the values of the function at its own ends, finite and not zero, and each end
keeps the sign that it had when the bracket was opened. Damping weights enter the choice of points
only, so nothing here depends on the rule.
-/

namespace ZeroSearch

open Binary64

/-! ## Narrowing -/

namespace Enclosure

variable {f : Float → Float} {b : Bracket} {e opened : Enclosure} {x : Float}

/-- The values at the ends are those of `f`, on the sides of zero where the bracket had them when
it was opened. -/
structure Straddles (e : Enclosure) (f : Float → Float) (opened : Enclosure) : Prop where
  value_lo : e.fLo = f e.lo
  value_hi : e.fHi = f e.hi
  lo_finite : e.fLo.isFinite = true
  hi_finite : e.fHi.isFinite = true
  lo_ne_zero : (e.fLo == 0) = false
  hi_ne_zero : (e.fHi == 0) = false
  signChange : e.signChange = true
  sameSign_lo : SameSign e.fLo opened.fLo
  sameSign_hi : SameSign e.fHi opened.fHi

/-- One end moved to `x`, with the value `y`. -/
def replace (e : Enclosure) (x y : Float) : Side → Enclosure
  | .lower => ⟨⟨x, e.hi⟩, y, e.fHi⟩
  | .upper => ⟨⟨e.lo, x⟩, e.fLo, y⟩

theorem narrow_eq_replace (e : Enclosure) (x y : Float) :
    e.narrow x y = e.replace x y (e.replaced y) := by
  cases h : e.replaced y with
  | lower => exact narrow_lower h x
  | upper => exact narrow_upper h x

theorem eq_end_of_narrow (e : Enclosure) (x y : Float) :
    (e.narrow x y).lo = x ∨ (e.narrow x y).hi = x := by
  rw [narrow_eq_replace]
  cases e.replaced y with
  | lower => exact .inl rfl
  | upper => exact .inr rfl

theorem Straddles.fLo_ne_fHi (h : e.Straddles f opened) : e.fLo ≠ e.fHi := by
  intro heq
  have hsign := h.signChange
  rw [Enclosure.signChange, heq, oppositeSigns_iff_ordinal] at hsign
  omega

/-- Both ends at once would need the value there to have both signs. -/
theorem Straddles.existsUnique_replace (h : e.Straddles f opened) (x y : Float) :
    ∃! side, e.narrow x y = e.replace x y side := by
  refine ⟨e.replaced y, narrow_eq_replace e x y, fun side hside => ?_⟩
  have hne := h.fLo_ne_fHi
  dsimp only at hside
  rw [narrow_eq_replace] at hside
  cases hr : e.replaced y with
  | lower =>
    cases side with
    | lower => rfl
    | upper =>
      rw [hr] at hside
      injection hside with hi hlo hhi
      exact absurd (hlo.symm.trans hhi.symm) hne
  | upper =>
    cases side with
    | lower =>
      rw [hr] at hside
      injection hside with hi hlo hhi
      exact absurd (hlo.trans hhi) hne
    | upper => rfl

theorem straddles_of_ofBracket (h : (ofBracket f b).result = .ok e)
    (hroot : e.endpointRoot = none) : e.Straddles f e := by
  obtain ⟨rfl, hfin, hsigned⟩ := ofBracket_eq_ok h
  have hne := ne_zero_of_endpointRoot hroot
  exact ⟨rfl, rfl, hfin.1, hfin.2, hne.1, hne.2, hsigned hroot, .refl _, .refl _⟩

/-- The side is decided from the lower value alone. That settles the sign at the other end too,
since the new value is finite and not zero. -/
theorem Straddles.narrow (h : e.Straddles f opened) (hfin : (f x).isFinite = true)
    (hz : (f x == 0) = false) : (e.narrow x (f x)).Straddles f opened := by
  have hsign : oppositeSigns e.fLo e.fHi = true := h.signChange
  by_cases hx : oppositeSigns e.fLo (f x) = true
  · rw [narrow_upper (by rw [replaced, if_pos hx])]
    have hsame : SameSign (f x) e.fHi := by
      refine sameSign_of_oppositeSigns (c := e.fLo) ?_ ?_
      · rwa [oppositeSigns_comm]
      · rwa [oppositeSigns_comm]
    exact ⟨h.value_lo, rfl, h.lo_finite, hfin, h.lo_ne_zero, hz, hx, h.sameSign_lo,
      hsame.trans h.sameSign_hi⟩
  · rw [narrow_lower (by rw [replaced, if_neg hx])]
    have hxs := oppositeSigns_of_not hsign hfin hz hx
    have hsame : SameSign (f x) e.fLo := sameSign_of_oppositeSigns hxs hsign
    exact ⟨rfl, h.value_hi, hfin, h.hi_finite, hz, h.hi_ne_zero, hxs,
      hsame.trans h.sameSign_lo, h.sameSign_hi⟩

end Enclosure

/-! ## Runs -/

/-- The enclosure straddles zero at the head of the round. Unless the value at the point evaluated
ends the run, it does so again after the narrowing, which puts that point in the place of one end
and leaves the other. -/
structure Round.KeepsSigns (r : Round Enclosure) (f : Float → Float) (opened : Enclosure) :
    Prop where
  head : r.before.Straddles f opened
  narrowed : ∃ x, r.queries = [.value x] ∧
    (((f x).isFinite = false ∨ (f x == 0) = true) ∧ r.after = none ∨
      ∃ t, r.after = some t ∧ t.Straddles f opened ∧ ∃! side, t = r.before.replace x (f x) side)

namespace Rule

variable {μ : Type} {rule : Rule μ} {f : Float → Float} {p : Policy} {i : UInt64}
  {s t : Pursuit μ} {r : Round (Pursuit μ)} {next : Iteration.Next (Pursuit μ)}
  {opened : Enclosure}

theorem straddles_of_go (hs : s.enclosure.Straddles f opened)
    (h : rule.iteration.Step f p i s r (.go t)) : t.enclosure.Straddles f opened := by
  obtain ⟨x, m, hfin, hz, -, rfl⟩ := of_go h
  exact hs.narrow hfin hz

theorem keepsSigns_of_step (hs : s.enclosure.Straddles f opened)
    (h : rule.iteration.Step f p i s r next) :
    (r.map Pursuit.enclosure).KeepsSigns f opened := by
  rw [Round.map, h.before_eq]
  refine ⟨hs, ?_⟩
  obtain ⟨x, -, hq, ⟨hends, -, hafter⟩ | ⟨hfin, hz, -, m, hafter⟩⟩ := completed_of_step h
  · refine ⟨x, hq, .inl ⟨hends, ?_⟩⟩
    rw [hafter, Option.map_none]
  · refine ⟨x, hq, .inr ⟨s.enclosure.narrow x (f x), ?_, hs.narrow hfin hz,
      hs.existsUnique_replace x (f x)⟩⟩
    rw [hafter, Option.map_some]

theorem end_of_observation (hs : s.enclosure.Straddles f opened)
    (h : rule.iteration.Step f p i s r next) {o : Observation} (ho : r.observation = some o) :
    o.value = f o.current ∧ ∃ t ∈ (r.map Pursuit.enclosure).after, t.Straddles f opened ∧
      (t.lo = o.current ∨ t.hi = o.current) := by
  obtain ⟨x, -, -, ⟨-, hobs, -⟩ | ⟨hfin, hz, hobs, m, hafter⟩⟩ := completed_of_step h
  · cases hobs.symm.trans ho
  · cases hobs.symm.trans ho
    refine ⟨rfl, s.enclosure.narrow x (f x), ?_, hs.narrow hfin hz, Enclosure.eq_end_of_narrow ..⟩
    rw [Round.map, hafter]
    rfl

end Rule

/-- Along every run that gets past the opening of its bracket the enclosure straddles a sign change
of `f`, each completed round replaces exactly one end by the pair it evaluated, and a root that the
policy accepts is an end of an enclosure that still straddles. -/
theorem Method.sign_invariant (method : Method) {f : Float → Float} {b : Bracket} {e : Enclosure}
    (hopen : (Enclosure.ofBracket f b).result = .ok e) (hroot : e.endpointRoot = none) (cap : UInt64)
    (p : Policy) :
    e.Straddles f e ∧ (method.solve f b cap p).Linked e ∧
      (∀ r ∈ (method.solve f b cap p).rounds, r.KeepsSigns f e) ∧
      ∀ r ∈ (method.solve f b cap p).rounds, ∀ o ∈ r.observation, p.accepts o = true →
        (method.solve f b cap p).outcome = .found ⟨o.current, r.iteration, (f o.current).abs⟩ ∧
          ∃ t ∈ r.after, t.Straddles f e ∧ (t.lo = o.current ∨ t.hi = o.current) := by
  have hs := Enclosure.straddles_of_ofBracket hopen hroot
  have hrun := method.rule.iteration.run_course f p cap [.value b.lo, .value b.hi]
    (method.rule.start e)
  have hrounds := hrun.rounds (P := fun s => s.enclosure.Straddles f e) Rule.straddles_of_go hs
  rw [method.solve_eq, Rule.solve_of_opened hopen hroot]
  have hlinked := method.rule.iteration.run_linked f p cap [.value b.lo, .value b.hi]
    (method.rule.start e)
  refine ⟨hs, hlinked.map Pursuit.enclosure, ?_, ?_⟩
  · intro r hr
    obtain ⟨q, hq, rfl⟩ := List.mem_map.1 hr
    obtain ⟨i, s, next, hs, hstep⟩ := hrounds q hq
    exact Rule.keepsSigns_of_step hs hstep
  · intro r hr o ho ha
    obtain ⟨q, hq, rfl⟩ := List.mem_map.1 hr
    obtain ⟨i, s, next, hs, hstep⟩ := hrounds q hq
    obtain ⟨hvalue, hend⟩ := Rule.end_of_observation hs hstep ho
    refine ⟨?_, hend⟩
    rw [Run.outcome_map, hrun.outcome_of_accepts hq ho ha, hvalue]
    rfl

/-- The run of the Illinois method on `x * x - 1.25` between 1 and 2 narrows twice, and its policy
accepts the second point. -/
theorem Method.sign_invariant_of_square :
    ((Method.illinois.solve (fun x => x * x - 1.25) ⟨⟨1, 2⟩, rfl, rfl, by decide⟩ 3
      (.step 0.25)).rounds.filterMap Round.after).length = 2 ∧
    (∀ r ∈ (Method.illinois.solve (fun x => x * x - 1.25) ⟨⟨1, 2⟩, rfl, rfl, by decide⟩ 3
      (.step 0.25)).rounds, r.KeepsSigns (fun x => x * x - 1.25) ⟨⟨1, 2⟩, -0.25, 2.75⟩) ∧
    ∃ r ∈ (Method.illinois.solve (fun x => x * x - 1.25) ⟨⟨1, 2⟩, rfl, rfl, by decide⟩ 3
      (.step 0.25)).rounds, ∃ o ∈ r.observation, ∃ t ∈ r.after,
        t.Straddles (fun x => x * x - 1.25) ⟨⟨1, 2⟩, -0.25, 2.75⟩ ∧
          (t.lo = o.current ∨ t.hi = o.current) := by
  obtain ⟨-, -, hrounds, haccepts⟩ := Method.sign_invariant .illinois
    (f := fun x => x * x - 1.25) (b := ⟨⟨1, 2⟩, rfl, rfl, by decide⟩) (e := ⟨⟨1, 2⟩, -0.25, 2.75⟩)
    (by rfl) (by rfl) 3 (.step 0.25)
  have hany : ((Method.illinois.solve (fun x => x * x - 1.25) ⟨⟨1, 2⟩, rfl, rfl, by decide⟩ 3
      (.step 0.25)).rounds.any fun r => r.observation.any (Policy.step 0.25).accepts) = true := by
    decide +kernel
  obtain ⟨r, hr, hobs⟩ := List.any_eq_true.1 hany
  obtain ⟨o, ho, ha⟩ := (Option.any_eq_true _ _).1 hobs
  exact ⟨by decide +kernel, hrounds, r, hr, o, ho, (haccepts r hr o ho ha).2⟩

end ZeroSearch
