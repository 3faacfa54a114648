import Mathlib
import ZeroSearch.Proofs.Containment
import ZeroSearch.Proofs.Halving
import ZeroSearch.Proofs.Signs

/-!
# Convergence under a step tolerance

A bracketing method with a step tolerance always ends with a root, on any function that is finite
within the bracket. The measure is the number of floats strictly inside the enclosure: as long as
there is one, the next point is one of them and becomes an end. Once there is none, every point is
an end, and the point after it is the same number. So two rounds more than there are floats inside
are always enough.
-/

namespace ZeroSearch

open Binary64

/-! ## Numbers inside an interval -/

namespace Interval

variable {i : Interval}

/-- The numbers strictly between the ends that floats stand for. The two zeros are one number. -/
def inside (i : Interval) : Set ℚ := toRat '' {x | i.lo < x ∧ x < i.hi}

def room (i : Interval) : Nat := (ordinal i.hi - ordinal i.lo - 1).toNat

theorem inside_eq (h : i.Ordered) :
    i.inside = level '' Set.Ioo (ordinal i.lo) (ordinal i.hi) := by
  have hlo := isFinite_iff_ordinal.1 h.lo_finite
  have hhi := isFinite_iff_ordinal.1 h.hi_finite
  ext q
  constructor
  · rintro ⟨x, ⟨hlox, hxhi⟩, rfl⟩
    exact ⟨ordinal x, ⟨ordinal_lt_of_lt hlox, ordinal_lt_of_lt hxhi⟩, rfl⟩
  · rintro ⟨n, ⟨hlon, hnhi⟩, rfl⟩
    obtain ⟨x, hx, hord⟩ := exists_ordinal_eq n
    have hxn : ordinal x = n := by
      unfold clamp at hord
      omega
    refine ⟨x, ⟨?_, ?_⟩, congrArg level hxn⟩
    · rwa [lt_iff_ordinal hlo.1 hx, hxn]
    · rwa [lt_iff_ordinal hx hhi.1, hxn]

theorem ncard_inside (h : i.Ordered) : i.inside.ncard = i.room := by
  rw [inside_eq h, Set.ncard_image_of_injective _ level_strictMono.injective,
    ← Finset.coe_Ioo, Set.ncard_coe_finset, Int.card_Ioo, room]

theorem room_lt (h : i.Ordered) : i.room + 2 < 2 ^ 64 := by
  have hlo := isFinite_iff_ordinal.1 h.lo_finite
  have hhi := isFinite_iff_ordinal.1 h.hi_finite
  unfold room
  omega

theorem ordinal_of_contains {x : Float} (hx : i.contains x = true) :
    ordinal i.lo ≤ ordinal x ∧ ordinal x ≤ ordinal i.hi :=
  have ⟨hlo, hhi⟩ := contains_eq_true.1 hx
  ⟨ordinal_le_of_le hlo, ordinal_le_of_le hhi⟩

theorem middle_strict (h : i.Ordered) (hroom : 0 < i.room) :
    ordinal i.lo < ordinal i.middle ∧ ordinal i.middle < ordinal i.hi := by
  refine ordinal_midpoint_between h.lo_finite h.hi_finite ?_
  unfold room at hroom
  omega

theorem middle_congr {j : Interval} (hi : i.Ordered) (hj : j.Ordered)
    (hlo : ordinal i.lo = ordinal j.lo) (hhi : ordinal i.hi = ordinal j.hi) :
    ordinal i.middle = ordinal j.middle :=
  ordinal_midpoint_congr hi.lo_finite hi.hi_finite hj.lo_finite hj.hi_finite hlo hhi

end Interval

/-! ## Rules -/

/-- A rule that chooses points strictly inside as long as there are any, and then the middle, and
compares with the latest point from the second iteration on. -/
structure Rule.Closing {μ : Type} (rule : Rule μ) : Prop where
  inside : rule.Inside
  strict : ∀ (e : Enclosure) (m : μ), e.Ordered → 0 < e.room →
    ordinal e.lo < ordinal (rule.choose e m) ∧ ordinal (rule.choose e m) < ordinal e.hi
  middle : ∀ (e : Enclosure) (m : μ), e.room = 0 → rule.choose e m = e.middle
  previous : ∀ (i : UInt64) (e : Enclosure) (latest x : Float), i ≠ 1 →
    rule.previous i e latest x = latest

theorem bisectionRule_closing : bisectionRule.Closing where
  inside := bisectionRule_inside
  strict _ _ he hroom := Interval.middle_strict he hroom
  middle _ _ _ := rfl
  previous _ _ _ _ _ := rfl

theorem falsePositionRule_closing (damped : Bool) : (falsePositionRule damped).Closing where
  inside := falsePositionRule_inside damped
  strict e d he hroom := by
    show ordinal e.lo < ordinal (e.secantInside d) ∧ ordinal (e.secantInside d) < ordinal e.hi
    unfold Enclosure.secantInside
    dsimp only
    split
    · rename_i h
      exact ⟨ordinal_lt_of_lt h.2.1, ordinal_lt_of_lt h.2.2⟩
    · exact Interval.middle_strict he hroom
  middle e d hroom := by
    show e.secantInside d = e.middle
    unfold Enclosure.secantInside
    dsimp only
    split
    · rename_i h
      have h₁ := ordinal_lt_of_lt h.2.1
      have h₂ := ordinal_lt_of_lt h.2.2
      unfold Interval.room at hroom
      omega
    · rfl
  previous i e latest x hi := if_neg hi

theorem Method.rule_closing (method : Method) : method.rule.Closing := by
  cases method with
  | bisection => exact bisectionRule_closing
  | falsePosition => exact falsePositionRule_closing false
  | illinois => exact falsePositionRule_closing true

/-! ## Rounds -/

theorem abs_sub_le {x y ε : Float} (hx : x.isFinite = true) (hy : y.isFinite = true)
    (h : ordinal x = ordinal y) (hε : 0 ≤ ε) : (x - y).abs ≤ ε := by
  have hr := sub_rounded hx hy
  rw [toRat_eq_of_ordinal_eq h, sub_self] at hr
  rcases zero_cases hr.not_nan hr.ordinal_eq_zero with h | h
  · rw [h]
    exact Binary64.le_trans (by decide +kernel) hε
  · rw [h]
    exact Binary64.le_trans (by decide +kernel) hε

/-- The point chosen next is the latest one, as a number. -/
def Pursuit.Settled {μ : Type} (s : Pursuit μ) (rule : Rule μ) : Prop :=
  ordinal (rule.choose s.enclosure s.memory) = ordinal s.latest

/-- After iteration `i` at most `n` more are needed. -/
structure Pursuit.Closing {μ : Type} (s : Pursuit μ) (rule : Rule μ) (b : Interval) (n : Nat)
    (i : UInt64) : Prop where
  confined : s.Confined b
  started : 1 ≤ i.toNat
  left : i ≠ 1 ∧ s.Settled rule ∨ s.enclosure.room < n

namespace Rule.Closing

variable {μ : Type} {rule : Rule μ} {f : Float → Float} {ε : Float} {i : UInt64} {p : Policy}
  {s t : Pursuit μ} {r : Round (Pursuit μ)} {next : Iteration.Next (Pursuit μ)} {b : Interval}
  {o : Outcome} {n : Nat}

theorem room_lt_of_go (hrule : rule.Closing) (hs : s.Confined b) (hroom : 0 < s.enclosure.room)
    (h : rule.iteration.Step f p i s r (.go t)) : t.enclosure.room < s.enclosure.room := by
  obtain ⟨x, m, -, -, hx, rfl⟩ := of_go h
  obtain ⟨hlo, hhi⟩ := hrule.strict s.enclosure s.memory hs.ordered hroom
  rw [← hx] at hlo hhi
  cases hr : s.enclosure.replaced (f x) with
  | lower =>
    rw [Enclosure.narrow_lower hr]
    unfold Interval.room at hroom ⊢
    dsimp only
    omega
  | upper =>
    rw [Enclosure.narrow_upper hr]
    unfold Interval.room at hroom ⊢
    dsimp only
    omega

/-- With nothing left inside, the point is one of the ends. Either the enclosure stays the same, or
both ends are that number. -/
theorem settled_of_go (hrule : rule.Closing) (hs : s.Confined b) (hroom : s.enclosure.room = 0)
    (h : rule.iteration.Step f p i s r (.go t)) : t.Settled rule := by
  have ht := hrule.inside.confined_of_go hs h
  obtain ⟨x, m, -, -, hx, rfl⟩ := of_go h
  rw [hrule.middle _ _ hroom] at hx
  have hin := Interval.ordinal_of_contains hs.ordered.contains_middle
  have hends := ordinal_le_of_le hs.ordered.lo_le_hi
  have hnew := Interval.ordinal_of_contains ht.ordered.contains_middle
  have hsame := Interval.middle_congr ht.ordered hs.ordered
  rw [← hx] at hin hsame
  have hroom' : (s.enclosure.narrow x (f x)).room = 0 := by
    have hnarrow := (Enclosure.within_narrow hs.ordered (hx ▸ hs.ordered.contains_middle) (f x)).2
    have hlo := ordinal_le_of_le hnarrow.lo
    have hhi := ordinal_le_of_le hnarrow.hi
    unfold Interval.room at hroom ⊢
    omega
  show ordinal (rule.choose (s.enclosure.narrow x (f x)) m) = ordinal x
  rw [hrule.middle _ _ hroom']
  unfold Interval.room at hroom
  cases hr : s.enclosure.replaced (f x) with
  | lower =>
    rw [Enclosure.narrow_lower hr] at hnew hsame ⊢
    by_cases hxlo : ordinal x = ordinal s.enclosure.lo
    · exact hsame hxlo rfl
    · dsimp only at hnew ⊢
      omega
  | upper =>
    rw [Enclosure.narrow_upper hr] at hnew hsame ⊢
    by_cases hxhi : ordinal x = ordinal s.enclosure.hi
    · exact hsame rfl hxhi
    · dsimp only at hnew ⊢
      omega

/-- A settled point is accepted. -/
theorem not_go_of_settled (hrule : rule.Closing) (hs : s.Confined b) (hb : b.Ordered)
    (hε : 0 ≤ ε) (hi : i ≠ 1) (hset : s.Settled rule) :
    ¬ rule.iteration.Step f (.step ε) i s r (.go t) := by
  intro h
  cases h with
  | rejected hx hfin hz ha =>
    cases hx
    refine Bool.eq_false_iff.1 ha (decide_eq_true ?_)
    show (rule.choose s.enclosure s.memory - rule.previous i s.enclosure s.latest _).abs ≤ ε
    rw [hrule.previous i _ _ _ hi]
    exact abs_sub_le (hb.isFinite (hrule.inside.contains_choose hs)) (hb.isFinite hs.latest) hset hε

theorem found_of_stop (hrule : rule.Closing) (hs : s.Confined b)
    (hf : ∀ x, b.contains x = true → (f x).isFinite = true)
    (h : rule.iteration.Step f p i s r (.stop o)) :
    ∃ root, o = .found root ∧ root.iterations = i := by
  cases h with
  | refused hx => cases hx
  | nonFinite hx hfin =>
    cases hx
    have := hf _ (hrule.inside.contains_choose hs)
    rw [hfin] at this
    cases this
  | zero => exact ⟨_, rfl, rfl⟩
  | accepted => exact ⟨_, rfl, rfl⟩

theorem closing_of_go (hrule : rule.Closing) (hb : b.Ordered) (hε : 0 ≤ ε)
    (hs : s.Closing rule b n i) (hroom : i.toNat + n < 2 ^ 64)
    (h : rule.iteration.Step f (.step ε) i s r (.go t)) : ∃ k < n, t.Closing rule b k (i + 1) := by
  have ht := hrule.inside.confined_of_go hs.confined h
  rcases hs.left with ⟨hi, hset⟩ | hlt
  · exact absurd h (hrule.not_go_of_settled hs.confined hb hε hi hset)
  have hsucc := Iteration.toNat_succ (i := i) (by omega)
  refine ⟨n - 1, by omega, ht, by omega, ?_⟩
  by_cases hpos : 0 < s.enclosure.room
  · right
    have := hrule.room_lt_of_go hs.confined hpos h
    omega
  · left
    refine ⟨fun hone => ?_, hrule.settled_of_go hs.confined (by omega) h⟩
    have := hs.started
    rw [hone, UInt64.toNat_one] at hsucc
    omega

end Rule.Closing

/-! ## Runs -/

/-- A step tolerance ends every search with a root, by an iteration that is at most two more than
the numbers strictly inside the bracket, and at every cap that allows for that iteration. -/
theorem Method.finds_root (method : Method) {f : Float → Float} {b : Bracket} {e : Enclosure}
    {ε : Float} (hf : ∀ x, b.contains x = true → (f x).isFinite = true)
    (hopen : (Enclosure.ofBracket f b).result = .ok e) (hε : 0 ≤ ε) :
    ∃ root : Root, root.iterations.toNat ≤ b.inside.ncard + 2 ∧
      ∀ cap, root.iterations ≤ cap →
        (method.solve f b cap (.step ε)).outcome = .found root := by
  cases hroot : e.endpointRoot with
  | some x =>
    refine ⟨⟨x, 0, 0⟩, Nat.zero_le _, fun cap _ => ?_⟩
    rw [method.solve_eq, Run.outcome_map, Rule.solve_of_endpointRoot hopen hroot]
  | none =>
    have hrule := method.rule_closing
    have hstart : (method.rule.start e).Closing method.rule b.toInterval (b.room + 1) 1 := by
      refine ⟨Rule.Inside.confined_start hopen, by decide, .inr ?_⟩
      obtain rfl := Enclosure.eq_of_ofBracket hopen
      exact Nat.lt_succ_self _
    have hroom := Interval.room_lt b.ordered
    obtain ⟨root, hle, hfound⟩ := Iteration.run_finds
      (P := fun n i s => s.Closing method.rule b.toInterval n i)
      (fun hs hroom h => hrule.closing_of_go b.ordered hε hs hroom h)
      (fun hs h => hrule.found_of_stop hs.confined hf h) hstart (by omega)
      [.value b.lo, .value b.hi]
    rw [Interval.ncard_inside b.ordered]
    refine ⟨root, hle, fun cap hcap => ?_⟩
    rw [method.solve_eq, Run.outcome_map, Rule.solve_of_opened hopen hroot]
    exact hfound cap hcap

/-- A function that jumps over zero, searched with no tolerance at all. -/
theorem Method.finds_root_of_jump :
    let f : Float → Float := fun x => if x < 1.25 then -1 else 1
    let b : Bracket := ⟨⟨1, 2⟩, rfl, rfl, by decide⟩
    (∀ x, b.contains x = true → (f x).isFinite = true) ∧
      (Enclosure.ofBracket f b).result = .ok ⟨⟨1, 2⟩, -1, 1⟩ ∧ (0 : Float) ≤ 0 ∧
      ∃ root : Root, root.iterations.toNat ≤ 0x10000000000001 ∧
        ∀ cap, root.iterations ≤ cap →
          (Method.illinois.solve f b cap (.step 0)).outcome = .found root := by
  intro f b
  have hf : ∀ x, b.contains x = true → (f x).isFinite = true := by
    intro x _
    dsimp only [f]
    split <;> decide +kernel
  have hlo : f b.lo = -1 := if_pos (by decide)
  have hhi : f b.hi = 1 := if_neg (by decide)
  have hopen : (Enclosure.ofBracket f b).result = .ok ⟨⟨1, 2⟩, -1, 1⟩ := by
    rw [Enclosure.result_ofBracket, hlo, hhi, if_neg (by decide +kernel),
      if_neg (by decide +kernel)]
  have hε : (0 : Float) ≤ 0 := by decide +kernel
  obtain ⟨root, hle, hfound⟩ := Method.illinois.finds_root hf hopen hε
  have hroom : b.room = 0xfffffffffffff := by decide +kernel
  rw [Interval.ncard_inside b.ordered, hroom] at hle
  exact ⟨hf, hopen, hε, root, hle, hfound⟩

end ZeroSearch
