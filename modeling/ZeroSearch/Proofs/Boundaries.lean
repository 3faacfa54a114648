import Mathlib
import ZeroSearch.Proofs.Findings

/-!
# The boundaries that a pass meets

The boundaries of a grid are `lo + k * window` for all numbers `k`, cut off at the upper bound. They
do not decrease (`boundary_le_boundary`), but neighbours can be the same float. A pass goes through
them by number as long as each lies past the one before, and at the first that does not it goes to
the upper bound at once. So it meets the boundaries up to the first repeated one, and the upper
bound; boundaries beyond a repeated one are left out.

Boundaries are compared as numbers here, because a sum that is zero is `0.0` whatever the bounds
say.
-/

namespace ZeroSearch

open Binary64

namespace Grid

variable {g : Grid} {j k : UInt64} {a b x : Float}

theorem isFinite_lo (g : Grid) : g.lo.isFinite = true := g.bounds.lo_finite

theorem isFinite_hi (g : Grid) : g.hi.isFinite = true := g.bounds.hi_finite

/-! ## Order -/

theorem window_nonneg (g : Grid) : 0 ≤ toRat g.window := by
  have h := (toRat_le_toRat rfl (not_isNaN_of_isFinite g.window_finite)).2 (le_of_lt g.window_pos)
  rwa [toRat_zero] at h

theorem product_rounded (g : Grid) (k : UInt64) :
    Rounded (toRat k.toFloat * toRat g.window) (k.toFloat * g.window) :=
  mul_rounded (isFinite_toFloat k) g.window_finite

theorem product_le_product (g : Grid) (h : j ≤ k) :
    j.toFloat * g.window ≤ k.toFloat * g.window := by
  refine (g.product_rounded j).le (g.product_rounded k) ?_
  have hjk : toRat j.toFloat ≤ toRat k.toFloat :=
    (toRat_le_toRat (toFloat_rounded j).not_nan (toFloat_rounded k).not_nan).2 (toFloat_mono h)
  exact mul_le_mul_of_nonneg_right hjk g.window_nonneg

theorem ordinal_product_zero (g : Grid) : ordinal ((0 : UInt64).toFloat * g.window) = 0 := by
  have h := g.product_rounded 0
  rw [toRat, show ordinal (0 : UInt64).toFloat = 0 by decide +kernel, level_zero, zero_mul] at h
  exact h.ordinal_eq_zero

theorem product_nonneg (g : Grid) (k : UInt64) : 0 ≤ ordinal (k.toFloat * g.window) := by
  rw [← g.ordinal_product_zero]
  exact ordinal_le_of_le (g.product_le_product (UInt64.le_iff_toNat_le.2 (Nat.zero_le _)))

theorem isFinite_product_of_le (h : j ≤ k) (hk : (k.toFloat * g.window).isFinite = true) :
    (j.toFloat * g.window).isFinite = true := by
  have hle := ordinal_le_of_le (g.product_le_product h)
  have hpos := g.product_nonneg j
  rw [isFinite_iff_ordinal] at hk ⊢
  exact ⟨(g.product_rounded j).not_nan, by omega, by omega⟩

theorem sum_not_nan (g : Grid) (k : UInt64) : (g.lo + k.toFloat * g.window).isNaN = false := by
  cases hk : (k.toFloat * g.window).isFinite with
  | true => exact (add_rounded g.isFinite_lo hk).not_nan
  | false =>
    rw [add_of_not_isFinite g.isFinite_lo hk]
    exact (g.product_rounded k).not_nan

theorem sum_le_sum (g : Grid) (h : j ≤ k) :
    g.lo + j.toFloat * g.window ≤ g.lo + k.toFloat * g.window := by
  have hle := g.product_le_product h
  cases hk : (k.toFloat * g.window).isFinite with
  | true =>
    refine (add_rounded g.isFinite_lo (isFinite_product_of_le h hk)).le
      (add_rounded g.isFinite_lo hk) ?_
    have := (toRat_le_toRat (g.product_rounded j).not_nan (g.product_rounded k).not_nan).2 hle
    linarith
  | false =>
    -- The greater product has overflowed, and its sum is infinity.
    rw [le_iff_ordinal (g.sum_not_nan j) (g.sum_not_nan k),
      add_of_not_isFinite g.isFinite_lo hk]
    have hpos := g.product_nonneg k
    have hnan := (g.product_rounded k).not_nan
    have htop := clamp_ordinal (g.lo + j.toFloat * g.window)
    have hinf := mt isFinite_iff_ordinal.2 (Bool.eq_false_iff.1 hk)
    simp only [hnan, true_and] at hinf
    unfold clamp at htop
    omega

theorem ordinal_boundary (g : Grid) (k : UInt64) :
    ordinal (g.boundary k) = min (ordinal g.hi) (ordinal (g.lo + k.toFloat * g.window)) := by
  have nhi := not_isNaN_of_isFinite g.isFinite_hi
  unfold boundary
  dsimp only
  split
  · rename_i h
    have := ordinal_lt_of_lt h
    omega
  · rename_i h
    have := ordinal_le_of_le (le_of_not_lt nhi (g.sum_not_nan k) h)
    omega

theorem boundary_not_nan (g : Grid) (k : UInt64) : (g.boundary k).isNaN = false := by
  unfold boundary
  dsimp only
  split
  · exact not_isNaN_of_isFinite g.isFinite_hi
  · exact g.sum_not_nan k

theorem boundary_le_boundary (g : Grid) (h : j ≤ k) : g.boundary j ≤ g.boundary k := by
  have := ordinal_le_of_le (g.sum_le_sum h)
  rw [le_iff_ordinal (g.boundary_not_nan j) (g.boundary_not_nan k), ordinal_boundary,
    ordinal_boundary]
  omega

theorem lt_of_boundary_lt (h : g.boundary j < g.boundary k) : j < k := by
  by_contra hn
  exact Binary64.not_le_of_lt h (g.boundary_le_boundary (UInt64.not_lt.1 hn))

theorem boundary_le_hi (g : Grid) (k : UInt64) : g.boundary k ≤ g.hi := by
  rw [le_iff_ordinal (g.boundary_not_nan k) (not_isNaN_of_isFinite g.isFinite_hi),
    ordinal_boundary]
  omega

theorem lo_eq_boundary_zero (g : Grid) : (g.lo == g.boundary 0) = true := by
  have nlo := not_isNaN_of_isFinite g.isFinite_lo
  have hlt : ordinal g.lo < ordinal g.hi := ordinal_lt_of_lt g.bounds.lo_lt_hi
  have hfin : ((0 : UInt64).toFloat * g.window).isFinite = true :=
    isFinite_iff_ordinal.2 ⟨(g.product_rounded 0).not_nan, by
      rw [ordinal_product_zero]; decide⟩
  have hsum := add_rounded g.isFinite_lo hfin
  rw [toRat, toRat, ordinal_product_zero, level_zero, add_zero] at hsum
  rw [beq_iff_ordinal nlo (g.boundary_not_nan 0), ordinal_boundary,
    hsum.ordinal_of_level (clamp_ordinal g.lo)]
  omega

theorem lo_le_boundary (g : Grid) (k : UInt64) : g.lo ≤ g.boundary k :=
  Binary64.le_trans (beq_iff_le_and_le.1 g.lo_eq_boundary_zero).1
    (g.boundary_le_boundary (UInt64.le_iff_toNat_le.2 (Nat.zero_le _)))

/-! ## Steps of a pass -/

/-- The boundaries up to number `k` increase strictly. -/
def Rising (g : Grid) (k : UInt64) : Prop := ∀ j < k, g.boundary j < g.boundary (j + 1)

/-- A pass that has come to `a` goes on to `b`. -/
def Neighbours (g : Grid) (a b : Float) : Prop :=
  a < g.hi ∧ ∃ k, g.Rising k ∧ (a == g.boundary k) = true ∧ b = g.next (k + 1) a

theorem rising_zero (g : Grid) : g.Rising 0 := fun _ hj =>
  absurd (UInt64.lt_iff_toNat_lt.1 hj) (Nat.not_lt_zero _)

/-- The number does not wrap around, because number 0 is the lower bound. -/
theorem Rising.succ (hk : g.Rising k) (h : g.boundary k < g.boundary (k + 1)) :
    g.Rising (k + 1) := by
  intro j hj
  have hlt := UInt64.lt_iff_toNat_lt.1 (lt_of_boundary_lt h)
  have hjk := UInt64.lt_iff_toNat_lt.1 hj
  rw [UInt64.toNat_add, UInt64.toNat_one] at hlt hjk
  by_cases hj' : j < k
  · exact hk j hj'
  · rw [UInt64.lt_iff_toNat_lt] at hj'
    obtain rfl : j = k := UInt64.toNat_inj.1 (by omega)
    exact h

theorem isChain_neighbours_after (ha : (a == g.boundary k) = true) (hk : g.Rising k) :
    (a :: g.pointsAfter k a).IsChain g.Neighbours := by
  fun_induction g.pointsAfter k a with
  | case1 k a h b ih =>
    refine .cons_cons ⟨h, k, hk, ha, rfl⟩ ?_
    by_cases hlt : a < g.boundary (k + 1)
    · have hb : b = g.boundary (k + 1) := if_pos hlt
      refine ih ?_ (hk.succ (Binary64.lt_of_le_of_lt (beq_iff_le_and_le.1 ha).2 hlt))
      rw [hb]
      exact beq_self (g.boundary_not_nan _)
    · have hb : b = g.hi := if_neg hlt
      have hend : ¬ g.hi < g.hi := fun h => lt_irrefl _ (ordinal_lt_of_lt h)
      rw [hb, pointsAfter_of_not_lt hend]
      exact .singleton _
  | case2 => exact .singleton _

theorem isChain_neighbours (g : Grid) : g.points.IsChain g.Neighbours :=
  isChain_neighbours_after g.lo_eq_boundary_zero g.rising_zero

theorem Neighbours.lt (h : g.Neighbours a b) : a < b := by
  obtain ⟨ha, k, -, -, rfl⟩ := h
  exact g.lt_next (k + 1) ha

theorem Neighbours.le_hi (h : g.Neighbours a b) : b ≤ g.hi := by
  obtain ⟨-, k, -, -, rfl⟩ := h
  exact g.next_le_hi (k + 1) a

/-- A pass goes on to the next boundary, or to the upper bound from one that is repeated. -/
theorem Neighbours.cases (h : g.Neighbours a b) :
    ∃ k, (a == g.boundary k) = true ∧
      (g.Rising (k + 1) ∧ b = g.boundary (k + 1) ∨
        b = g.hi ∧ ¬ g.boundary k < g.boundary (k + 1)) := by
  obtain ⟨-, k, hk, ha, rfl⟩ := h
  obtain ⟨hle, hge⟩ := beq_iff_le_and_le.1 ha
  refine ⟨k, ha, ?_⟩
  by_cases hlt : a < g.boundary (k + 1)
  · exact .inl ⟨hk.succ (Binary64.lt_of_le_of_lt hge hlt), if_pos hlt⟩
  · exact .inr ⟨if_neg hlt, fun h => hlt (Binary64.lt_of_le_of_lt hle h)⟩

/-! ## What is met -/

theorem exists_left_of_isChain {R : Float → Float → Prop} {xs : List Float}
    (h : (a :: xs).IsChain R) (hb : b ∈ xs) : ∃ u, R u b := by
  induction xs generalizing a with
  | nil => cases hb
  | cons c xs ih =>
    obtain ⟨hac, h⟩ := List.isChain_cons_cons.1 h
    rcases List.mem_cons.1 hb with rfl | hb
    · exact ⟨a, hac⟩
    · exact ih h hb

theorem cases_of_mem_points (hx : x ∈ g.points) :
    x = g.hi ∨ ∃ k, g.Rising k ∧ (x == g.boundary k) = true := by
  rcases List.mem_cons.1 hx with rfl | hx
  · exact .inr ⟨0, g.rising_zero, g.lo_eq_boundary_zero⟩
  · obtain ⟨a, ha⟩ := exists_left_of_isChain g.isChain_neighbours hx
    obtain ⟨k, -, ⟨hk, rfl⟩ | ⟨rfl, -⟩⟩ := ha.cases
    · exact .inr ⟨k + 1, hk, beq_self (g.boundary_not_nan _)⟩
    · exact .inl rfl

/-- A pass meets a number or passes over it. -/
theorem met_or_passed {xs : List Float} (h : (a :: xs).IsChain g.Neighbours) (hax : a ≤ x)
    (hlast : ∀ v ∈ (a :: xs).getLast?, x ≤ v) :
    (∃ v ∈ a :: xs, (v == x) = true) ∨ ∃ u v, g.Neighbours u v ∧ u < x ∧ x < v := by
  have ⟨na, nx⟩ := not_isNaN_of_le hax
  induction xs generalizing a with
  | nil => exact .inl ⟨a, List.mem_cons_self, beq_iff_le_and_le.2 ⟨hax, hlast a rfl⟩⟩
  | cons b xs ih =>
    obtain ⟨hab, hxs⟩ := List.isChain_cons_cons.1 h
    have nb := (not_isNaN_of_lt hab.lt).2
    by_cases hbx : b ≤ x
    · rw [List.getLast?_cons_cons] at hlast
      rcases ih hxs hbx hlast nb with ⟨v, hv, heq⟩ | hpass
      · exact .inl ⟨v, List.mem_cons_of_mem a hv, heq⟩
      · exact .inr hpass
    · have hxb := lt_of_not_le nb nx hbx
      by_cases hxa : x ≤ a
      · exact .inl ⟨a, List.mem_cons_self, beq_iff_le_and_le.2 ⟨hax, hxa⟩⟩
      · exact .inr ⟨a, b, hab, lt_of_not_le nx na hxa, hxb⟩

theorem le_last_of_le_hi (hx : x ≤ g.hi) : ∀ v ∈ g.points.getLast?, x ≤ v := by
  intro v hv
  rcases g.getLast?_points with h | ⟨hhi, h⟩
  · rw [h] at hv
    cases hv
    exact hx
  · rw [h] at hv
    cases hv
    rw [hhi] at hx
    exact Binary64.le_trans hx (by decide +kernel)

/-- No boundary lies between one and the next by number. -/
theorem not_between_boundary (g : Grid) (ha : (a == g.boundary k) = true)
    (hx : a < x ∧ x < g.boundary (k + 1)) : ¬ (x == g.boundary j) = true := by
  intro h
  obtain ⟨hle, hge⟩ := beq_iff_le_and_le.1 h
  by_cases hjk : j ≤ k
  · have hxa := Binary64.le_trans hle (g.boundary_le_boundary hjk)
    exact Binary64.not_le_of_lt hx.1 (Binary64.le_trans hxa (beq_iff_le_and_le.1 ha).2)
  · have hkj : k + 1 ≤ j := by
      rw [UInt64.le_iff_toNat_le] at hjk ⊢
      have := j.toNat_lt
      rw [UInt64.toNat_add, UInt64.toNat_one]
      omega
    exact Binary64.not_le_of_lt hx.2 (Binary64.le_trans (g.boundary_le_boundary hkj) hge)

/-- A pass meets the boundaries that no repeated one lies below, and the upper bound. -/
theorem met_iff (g : Grid) (x : Float) :
    (∃ v ∈ g.points, (v == x) = true) ↔
      (x == g.hi) = true ∨ ∃ k, (x == g.boundary k) = true ∧
        ∀ j, g.boundary j < x → g.boundary j < g.boundary (j + 1) := by
  constructor
  · rintro ⟨v, hv, heq⟩
    obtain ⟨hvx, hxv⟩ := beq_iff_le_and_le.1 heq
    rcases cases_of_mem_points hv with rfl | ⟨k, hk, hvk⟩
    · exact .inl (beq_iff_le_and_le.2 ⟨hxv, hvx⟩)
    · obtain ⟨hle, hge⟩ := beq_iff_le_and_le.1 hvk
      have hxk := Binary64.le_trans hxv hle
      exact .inr ⟨k, beq_iff_le_and_le.2 ⟨hxk, Binary64.le_trans hge hvx⟩, fun j hj =>
        hk j (lt_of_boundary_lt (Binary64.lt_of_lt_of_le hj hxk))⟩
  · intro h
    have hbetween : g.lo ≤ x ∧ x ≤ g.hi := by
      rcases h with h | ⟨k, h, -⟩
      · obtain ⟨hle, hge⟩ := beq_iff_le_and_le.1 h
        exact ⟨Binary64.le_trans (le_of_lt g.bounds.lo_lt_hi) hge, hle⟩
      · obtain ⟨hle, hge⟩ := beq_iff_le_and_le.1 h
        exact ⟨Binary64.le_trans (g.lo_le_boundary k) hge,
          Binary64.le_trans hle (g.boundary_le_hi k)⟩
    rcases met_or_passed g.isChain_neighbours hbetween.1 (le_last_of_le_hi hbetween.2) with
      hmet | ⟨u, v, huv, hux, hxv⟩
    · exact hmet
    -- What is passed over lies between two boundaries by number or beyond a repeated one.
    exfalso
    rcases h with h | ⟨k, h, hrise⟩
    · have hle := (beq_iff_le_and_le.1 h).2
      exact Binary64.not_le_of_lt hxv (Binary64.le_trans huv.le_hi hle)
    · obtain ⟨m, hum, ⟨-, rfl⟩ | ⟨-, hrep⟩⟩ := huv.cases
      · exact g.not_between_boundary hum ⟨hux, hxv⟩ h
      · exact hrep (hrise m (Binary64.lt_of_le_of_lt (beq_iff_le_and_le.1 hum).2 hux))

/-! ## Skipped boundaries -/

/-- Boundaries with consecutive numbers and no boundary strictly between them. -/
def Adjacent (g : Grid) (a b : Float) : Prop :=
  ∃ k, (a == g.boundary k) = true ∧ (b == g.boundary (k + 1)) = true ∧
    ∀ j, ¬ (a < g.boundary j ∧ g.boundary j < b)

/-- Below the upper bound every boundary lies past the one before. -/
def Advances (g : Grid) : Prop :=
  ∀ k, g.boundary k < g.hi → g.boundary k < g.boundary (k + 1)

theorem Neighbours.adjacent (h : g.Neighbours a b) :
    g.Adjacent a b ∨
      b = g.hi ∧ ∃ k, (a == g.boundary k) = true ∧ ¬ g.boundary k < g.boundary (k + 1) := by
  obtain ⟨k, ha, ⟨-, rfl⟩ | ⟨hb, hrep⟩⟩ := h.cases
  · refine .inl ⟨k, ha, beq_self (g.boundary_not_nan _), fun j hj => ?_⟩
    exact g.not_between_boundary ha hj (beq_self (g.boundary_not_nan j))
  · exact .inr ⟨hb, k, ha, hrep⟩

theorem Neighbours.adjacent_of_advances (h : g.Neighbours a b) (hg : g.Advances) :
    g.Adjacent a b := by
  rcases h.adjacent with hab | ⟨-, k, ha, hrep⟩
  · exact hab
  · exact absurd (hg k (Binary64.lt_of_le_of_lt (beq_iff_le_and_le.1 ha).2 h.1)) hrep

/-- The numbers do not run out before the upper bound. -/
theorem Advances.exists_boundary_eq_hi (hg : g.Advances) : ∃ k, (g.hi == g.boundary k) = true := by
  refine ⟨0xffffffffffffffff, beq_iff_le_and_le.2 ⟨?_, g.boundary_le_hi _⟩⟩
  by_contra hn
  have hlt := lt_of_not_le (not_isNaN_of_isFinite g.isFinite_hi) (g.boundary_not_nan _) hn
  exact absurd (lt_of_boundary_lt (hg _ hlt)) (by decide)

theorem Advances.met_iff (hg : g.Advances) (x : Float) :
    (∃ v ∈ g.points, (v == x) = true) ↔ ∃ k, (x == g.boundary k) = true := by
  rw [Grid.met_iff]
  constructor
  · rintro (h | ⟨k, h, -⟩)
    · obtain ⟨k, hk⟩ := hg.exists_boundary_eq_hi
      obtain ⟨h₁, h₂⟩ := beq_iff_le_and_le.1 h
      obtain ⟨h₃, h₄⟩ := beq_iff_le_and_le.1 hk
      exact ⟨k, beq_iff_le_and_le.2 ⟨Binary64.le_trans h₁ h₃, Binary64.le_trans h₄ h₂⟩⟩
    · exact ⟨k, h⟩
  · rintro ⟨k, h⟩
    refine .inr ⟨k, h, fun j hj => hg j (Binary64.lt_of_lt_of_le hj ?_)⟩
    exact Binary64.le_trans (beq_iff_le_and_le.1 h).1 (g.boundary_le_hi k)

theorem neighbours_of_mem_collect {f : Float → Float} {i : Bracket} (hi : i ∈ g.collect f)
    (hne : i.isDegenerate = false) : g.Neighbours i.lo i.hi := by
  have hmem : i.toInterval ∈ findings f g.points :=
    g.collect_eq_findings f ▸ List.mem_map_of_mem hi
  rcases related_of_mem_findings g.isChain_neighbours hmem with heq | h
  · rw [Bracket.isDegenerate, heq, beq_self (not_isNaN_of_isFinite i.hi_finite)] at hne
    cases hne
  · exact h

/-- A pass meets the boundaries that no repeated one lies below, and the upper bound. A bracket with
a sign change spans adjacent boundaries, or what is left of the bounds from a repeated one on. Where
no boundary below the upper bound is repeated, the pass meets all of them. -/
theorem visited_boundaries (g : Grid) (f : Float → Float) :
    (∀ x, (∃ v ∈ (g.scan f).visited, (v == x) = true) ↔
      (x == g.hi) = true ∨ ∃ k, (x == g.boundary k) = true ∧
        ∀ j, g.boundary j < x → g.boundary j < g.boundary (j + 1)) ∧
    (∀ b ∈ g.collect f, b.isDegenerate = false →
      g.Adjacent b.lo b.hi ∨
        b.hi = g.hi ∧ ∃ k, (b.lo == g.boundary k) = true ∧
          ¬ g.boundary k < g.boundary (k + 1)) ∧
    (g.Advances →
      (∀ x, (∃ v ∈ (g.scan f).visited, (v == x) = true) ↔ ∃ k, (x == g.boundary k) = true) ∧
      ∀ b ∈ g.collect f, b.isDegenerate = false → g.Adjacent b.lo b.hi) := by
  rw [scan_visited]
  refine ⟨g.met_iff, fun b hb hne => ?_, fun hg => ⟨hg.met_iff, fun b hb hne => ?_⟩⟩
  · exact (neighbours_of_mem_collect hb hne).adjacent
  · exact (neighbours_of_mem_collect hb hne).adjacent_of_advances hg

/-- Bounds from `2 ^ 53` on, where the floats are two apart, in windows of four. -/
def wideWindows : Grid :=
  ⟨⟨⟨9007199254740992, 9007199254741000⟩, rfl, rfl, by decide⟩, 4, rfl, by decide,
    by decide +kernel⟩

theorem points_wideWindows :
    wideWindows.points = [9007199254740992, 9007199254740996, 9007199254741000] :=
  points_of_leadsTo (by decide +kernel)

theorem visited_boundaries_wideWindows :
    wideWindows.Advances ∧
      (∃ v ∈ (wideWindows.scan (· - 9007199254740994)).visited, (v == 9007199254740996) = true) ∧
      ∃ b ∈ wideWindows.collect (· - 9007199254740994), b.isDegenerate = false ∧
        wideWindows.Adjacent b.lo b.hi := by
  have hadv : wideWindows.Advances := by
    intro k hk
    have hend : wideWindows.boundary 2 = wideWindows.hi := by decide +kernel
    have hlt : k < 2 := lt_of_boundary_lt (hend ▸ hk)
    rw [UInt64.lt_iff_toNat_lt] at hlt
    have hcases : k = 0 ∨ k = 1 := by
      rw [← UInt64.toNat_inj, ← UInt64.toNat_inj]
      simp at hlt ⊢
      omega
    rcases hcases with rfl | rfl <;> decide +kernel
  obtain ⟨-, -, hall⟩ := visited_boundaries wideWindows (· - 9007199254740994)
  obtain ⟨hmet, hadj⟩ := hall hadv
  refine ⟨hadv, (hmet _).2 ⟨1, by decide +kernel⟩, ?_⟩
  have hmem : ⟨9007199254740992, 9007199254740996⟩ ∈
      (wideWindows.collect (· - 9007199254740994)).map Bracket.toInterval := by
    have hbetween : findingsBetween (· - 9007199254740994) 9007199254740992 9007199254740996 =
        [⟨9007199254740992, 9007199254740996⟩] := by
      rw [findingsBetween, if_neg (by decide +kernel), if_pos (by decide +kernel)]
    rw [collect_eq_findings, points_wideWindows, findings_cons, findingsAlong_cons_cons, hbetween]
    simp
  obtain ⟨b, hb, hi⟩ := List.mem_map.1 hmem
  have hne : b.isDegenerate = false := by
    rw [Bracket.isDegenerate, hi]
    decide +kernel
  exact ⟨b, hb, hne, hadj b hb hne⟩

/-- The same bounds in windows of one, so boundary 1 is repeated and the next four are not met. -/
def narrowWindows : Grid :=
  ⟨⟨⟨9007199254740992, 9007199254741000⟩, rfl, rfl, by decide⟩, 1,
    unitBelowZero.window_finite, unitBelowZero.window_pos, by decide +kernel⟩

theorem points_narrowWindows : narrowWindows.points = [9007199254740992, 9007199254741000] :=
  points_of_leadsTo (by decide +kernel)

/-- The zeros of `(x - 9007199254740994) * (x - 9007199254740998)` are boundaries 2 and 6, and a
pass finds neither. -/
theorem skipped_narrowWindows :
    let f : Float → Float := fun x => (x - 9007199254740994) * (x - 9007199254740998)
    (narrowWindows.scan f).visited = [9007199254740992, 9007199254741000] ∧
      narrowWindows.collect f = [] ∧
      ∃ k, narrowWindows.lo < narrowWindows.boundary k ∧
        narrowWindows.boundary k < narrowWindows.hi ∧
        (f (narrowWindows.boundary k) == 0) = true ∧
        ¬ ∃ v ∈ (narrowWindows.scan f).visited, (v == narrowWindows.boundary k) = true := by
  intro f
  have hvisited : (narrowWindows.scan f).visited = [9007199254740992, 9007199254741000] :=
    (scan_visited _ _).trans points_narrowWindows
  refine ⟨hvisited, ?_, 2, by decide +kernel, by decide +kernel, by decide +kernel, ?_⟩
  · have hat : findingsAt f 9007199254740992 = [] := by
      rw [findingsAt, if_neg (by decide +kernel)]
    have hbetween : findingsBetween f 9007199254740992 9007199254741000 = [] := by
      rw [findingsBetween, if_neg (by decide +kernel), if_neg (by decide +kernel)]
    have hfind := narrowWindows.collect_eq_findings f
    rw [points_narrowWindows, findings_cons, findingsAlong_cons_cons, hat, hbetween] at hfind
    exact List.map_eq_nil_iff.1 hfind
  · rw [hvisited]
    rintro ⟨v, hv, heq⟩
    simp at hv
    rcases hv with rfl | rfl
    · exact absurd heq (by decide +kernel)
    · exact absurd heq (by decide +kernel)

end Grid

end ZeroSearch
