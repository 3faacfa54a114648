import Mathlib
import ZeroSearch.Proofs.Convergence
import ZeroSearch.Proofs.Survey

/-!
# Splitting an interval

The middle of an interval with finite ends is a number between them, and it is strictly between them
as soon as any float is (`Interval.SplitAt`). This holds on the whole range of floats, also where
the width overflows or is subnormal, and so of bounds, of brackets and of every enclosure that a
bracketing method comes to (`middle_splits`).
-/

namespace ZeroSearch

open Binary64

/-- `m` is between the ends, and is neither of them if there is any float inside. -/
structure Interval.SplitAt (i : Interval) (m : Float) : Prop where
  finite : m.isFinite = true
  lo_le : i.lo ≤ m
  le_hi : m ≤ i.hi
  strict : ∀ x, i.lo < x → x < i.hi → i.lo < m ∧ m < i.hi

namespace Interval.Ordered

variable {i : Interval}

theorem middle_between (h : i.Ordered) {x : Float} (hlo : i.lo < x) (hhi : x < i.hi) :
    i.lo < i.middle ∧ i.middle < i.hi := by
  have hroom : 0 < i.room := by
    have hbelow := ordinal_lt_of_lt hlo
    have habove := ordinal_lt_of_lt hhi
    unfold room
    omega
  obtain ⟨hbelow, habove⟩ := middle_strict h hroom
  have nlo := not_isNaN_of_isFinite h.lo_finite
  have nhi := not_isNaN_of_isFinite h.hi_finite
  have nmid := not_isNaN_of_isFinite (h.isFinite h.contains_middle)
  exact ⟨(lt_iff_ordinal nlo nmid).2 hbelow, (lt_iff_ordinal nmid nhi).2 habove⟩

theorem splitAt_middle (h : i.Ordered) : i.SplitAt i.middle where
  finite := h.isFinite h.contains_middle
  lo_le := (contains_eq_true.1 h.contains_middle).1
  le_hi := (contains_eq_true.1 h.contains_middle).2
  strict _ hlo hhi := h.middle_between hlo hhi

end Interval.Ordered

/-- The enclosures of a rule that stays inside have their ends in order. -/
theorem Rule.Inside.ordered_of_mem_rounds {μ : Type} {rule : Rule μ} (hrule : rule.Inside)
    {f : Float → Float} {b : Bracket} {cap : UInt64} {p : Policy} {r : Round (Pursuit μ)}
    (hr : r ∈ (rule.solve f b cap p).rounds) : r.before.enclosure.Ordered := by
  obtain ⟨e, hopen, -, hsolve⟩ := opened_of_rounds (List.ne_nil_of_mem hr)
  rw [hsolve] at hr
  have hrun := rule.iteration.run_course f p cap [.value b.lo, .value b.hi] (rule.start e)
  obtain ⟨i, s, next, hs, hstep⟩ := hrun.rounds (P := fun s => s.Confined b.toInterval)
    hrule.confined_of_go (confined_start hopen) r hr
  rw [hstep.before_eq]
  exact hs.ordered

/-- The middle splits every interval with finite ends in order: two floats, bounds, a bracket, an
enclosure, and with it the enclosure at the head of each round of a bracketing method. -/
theorem middle_splits :
    (∀ lo hi : Float, lo.isFinite = true → hi.isFinite = true → lo ≤ hi →
      Interval.SplitAt ⟨lo, hi⟩ (midpoint lo hi)) ∧
    (∀ b : Bounds, b.SplitAt b.middle) ∧
    (∀ b : Bracket, b.SplitAt b.middle) ∧
    (∀ e : Enclosure, e.Ordered → e.SplitAt e.middle) ∧
    ∀ (method : Method) (f : Float → Float) (b : Bracket) (cap : UInt64) (p : Policy),
      ∀ r ∈ (method.solve f b cap p).rounds, r.before.SplitAt r.before.middle := by
  refine ⟨fun lo hi hlo hhi hle => ?_, fun b => b.ordered.splitAt_middle,
    fun b => b.ordered.splitAt_middle, fun e he => he.splitAt_middle,
    fun method f b cap p r hr => ?_⟩
  · exact Interval.Ordered.splitAt_middle (i := ⟨lo, hi⟩) ⟨hlo, hhi, hle⟩
  · rw [method.solve_eq] at hr
    obtain ⟨q, hq, rfl⟩ := List.mem_map.1 hr
    exact (method.rule_inside.ordered_of_mem_rounds hq).splitAt_middle

/-- The greatest floats of both signs, whose distance overflows, and three of the least steps about
`2 ^ -1021`, where halves are rounded and the sum is a tie between the middle and the upper end. -/
theorem middle_splits_wide_and_narrow :
    (∃ lo hi : Float, lo.isFinite = true ∧ hi.isFinite = true ∧ lo ≤ hi ∧
      (hi - lo).isFinite = false ∧ Interval.SplitAt ⟨lo, hi⟩ (midpoint lo hi)) ∧
    ∃ lo x hi : Float, lo.isFinite = true ∧ hi.isFinite = true ∧ lo ≤ hi ∧ lo < x ∧ x < hi ∧
      lo < midpoint lo hi ∧ midpoint lo hi < hi := by
  constructor
  · have hends : (Float.ofBits 0xffefffffffffffff).isFinite = true ∧
        (Float.ofBits 0x7fefffffffffffff).isFinite = true ∧
        Float.ofBits 0xffefffffffffffff ≤ .ofBits 0x7fefffffffffffff := by
      decide +kernel
    obtain ⟨hlo, hhi, hle⟩ := hends
    exact ⟨_, _, hlo, hhi, hle, by decide +kernel, middle_splits.1 _ _ hlo hhi hle⟩
  · have hends : (Float.ofBits 0x001fffffffffffff).isFinite = true ∧
        (Float.ofBits 0x0020000000000001).isFinite = true ∧
        Float.ofBits 0x001fffffffffffff ≤ .ofBits 0x0020000000000001 := by
      decide +kernel
    have hinside : Float.ofBits 0x001fffffffffffff < .ofBits 0x0020000000000000 ∧
        Float.ofBits 0x0020000000000000 < .ofBits 0x0020000000000001 := by
      decide +kernel
    obtain ⟨hlo, hhi, hle⟩ := hends
    obtain ⟨hbelow, habove⟩ := hinside
    exact ⟨_, _, _, hlo, hhi, hle, hbelow, habove,
      (middle_splits.1 _ _ hlo hhi hle).strict _ hbelow habove⟩

end ZeroSearch
