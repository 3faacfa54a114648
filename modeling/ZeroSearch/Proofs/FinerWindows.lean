import Mathlib
import ZeroSearch.Proofs.SignChanges

/-!
# Windows of half the width

Where half a window is a float, the boundaries of a grid are among those of the grid with windows of
half the width, under twice their number: the products of number and window are the same numbers, so
they round alike, and so do their sums with the lower bound (`Grid.boundary_halved`). A pass over the
finer grid meets all boundaries that a pass over the coarser one does, as long as neither comes to a
repeated one (`Grid.Unguarded`), and it finds something wherever the coarser one does.

There is one exception. An upper bound of negative zero can be met as such, cut off from a greater
sum, by the coarser pass and as the positive zero, a sum that is exact, by the finer one.
-/

namespace ZeroSearch

open Binary64

namespace Grid

variable {g : Grid} {a x : Float} {j n : Nat}

/-! ## The grid with half the window -/

theorem toRat_window_pos (g : Grid) : 0 < toRat g.window := by
  rw [← level_zero]
  exact level_lt_level.2 (pos_iff_ordinal.1 g.window_pos)

theorem half_window (h : toRat (g.window / 2) = toRat g.window / 2) :
    0 < ordinal (g.window / 2) ∧ ordinal (g.window / 2) ≤ ordinal g.window := by
  have hpos := g.toRat_window_pos
  constructor
  · rw [← level_lt_level, level_zero]
    show 0 < toRat (g.window / 2)
    linarith
  · rw [← level_le_level]
    show toRat (g.window / 2) ≤ toRat g.window
    linarith

/-- The grid with the same bounds and windows of half the width, if that is a float. -/
def halved (g : Grid) (h : toRat (g.window / 2) = toRat g.window / 2) : Grid where
  bounds := g.bounds
  window := g.window / 2
  window_finite := by
    obtain ⟨hpos, hle⟩ := half_window h
    have hfin := isFinite_iff_ordinal.1 g.window_finite
    refine isFinite_iff_ordinal.2 ⟨?_, by omega, by omega⟩
    rw [Bool.eq_false_iff]
    intro hnan
    rw [ordinal_eq_zero_of_isNaN hnan] at hpos
    exact lt_irrefl _ hpos
  window_pos := pos_iff_ordinal.2 (half_window h).1
  window_le hlt := by
    obtain ⟨-, hle⟩ := half_window h
    have ⟨nwidth, nhalf⟩ := not_isNaN_of_lt hlt
    have hlt' := ordinal_lt_of_lt hlt
    refine g.window_le ((lt_iff_ordinal nwidth (not_isNaN_of_isFinite g.window_finite)).2 ?_)
    omega

variable {h : toRat (g.window / 2) = toRat g.window / 2}

/-- Half the window is admitted wherever the window is. -/
theorem ofWindow_halved (g : Grid) (h : toRat (g.window / 2) = toRat g.window / 2) :
    ofWindow g.bounds (g.window / 2) = .ok (g.halved h) := ofWindow_eq_ok.2 ⟨rfl, rfl⟩

/-- The products are the same numbers, and not too small for a float. -/
theorem product_halved (hj : 0 < j) (hle : 2 * j ≤ 0x20000000000000) :
    (UInt64.ofNat (2 * j)).toFloat * (g.halved h).window = (UInt64.ofNat j).toFloat * g.window := by
  have hdouble : (UInt64.ofNat (2 * j)).toNat = 2 * j := by
    rw [UInt64.toNat_ofNat']
    omega
  have hsingle : (UInt64.ofNat j).toNat = j := by
    rw [UInt64.toNat_ofNat']
    omega
  have hfine := (g.halved h).product_rounded (UInt64.ofNat (2 * j))
  have hcoarse := g.product_rounded (UInt64.ofNat j)
  rw [toRat_toFloat (by omega), hdouble] at hfine
  rw [toRat_toFloat (by omega), hsingle] at hcoarse
  have hsame : ((2 * j : Nat) : ℚ) * toRat (g.halved h).window = (j : ℚ) * toRat g.window := by
    rw [show (g.halved h).window = g.window / 2 from rfl, h]
    push_cast
    ring
  rw [hsame] at hfine
  have hpos : 1 ≤ ordinal ((UInt64.ofNat j).toFloat * g.window) := by
    refine hcoarse.le_ordinal ?_ rfl
    have hwindow : level 1 ≤ toRat g.window := level_le_level.2 (pos_iff_ordinal.1 g.window_pos)
    have hone : (1 : ℚ) ≤ j := by exact_mod_cast hj
    nlinarith [g.toRat_window_pos]
  have hord := hfine.ordinal_eq hcoarse
  exact eq_of_ordinal_eq (by omega) hord

theorem boundary_halved (hj : 0 < j) (hle : 2 * j ≤ 0x20000000000000) :
    (g.halved h).boundary (.ofNat (2 * j)) = g.boundary (.ofNat j) := by
  unfold boundary
  rw [product_halved hj hle]
  rfl

/-! ## Boundaries by position -/

/-- A pass never goes to the upper bound because a boundary is repeated. -/
def Unguarded (g : Grid) : Prop :=
  ∀ n a, g.points[n]? = some a → a < g.hi → a < g.boundary (.ofNat (n + 1))

theorem getElem?_pointsAfter_succ {k : UInt64} (hn : (a :: g.pointsAfter k a)[n]? = some x) :
    (a :: g.pointsAfter k a)[n + 1]? =
      if x < g.hi then some (g.next (k + .ofNat n + 1) x) else none := by
  rw [List.getElem?_cons_succ]
  induction n generalizing k a with
  | zero =>
    obtain rfl : a = x := Option.some_inj.1 hn
    rw [show k + UInt64.ofNat 0 = k from UInt64.add_zero k]
    by_cases ha : a < g.hi
    · rw [pointsAfter_of_lt ha, if_pos ha]
      rfl
    · rw [pointsAfter_of_not_lt ha, if_neg ha]
      rfl
  | succ n ih =>
    rw [List.getElem?_cons_succ] at hn
    by_cases ha : a < g.hi
    · rw [pointsAfter_of_lt ha] at hn ⊢
      rw [List.getElem?_cons_succ, ih hn, UInt64.ofNat_add, UInt64.add_assoc k 1,
        UInt64.add_comm 1]
      rfl
    · rw [pointsAfter_of_not_lt ha] at hn
      cases hn

theorem getElem?_points_succ (hn : g.points[n]? = some x) :
    g.points[n + 1]? = if x < g.hi then some (g.next (.ofNat (n + 1)) x) else none := by
  have hnext := getElem?_pointsAfter_succ hn
  rw [UInt64.zero_add] at hnext
  rw [UInt64.ofNat_add]
  exact hnext

theorem exists_getElem?_pred (hn : g.points[n + 1]? = some x) :
    ∃ a, g.points[n]? = some a ∧ a < g.hi := by
  have hlt : n < g.points.length := by
    have := (List.getElem?_eq_some_iff.1 hn).1
    omega
  have ha := List.getElem?_eq_getElem hlt
  refine ⟨_, ha, ?_⟩
  by_contra hge
  have hnext := getElem?_points_succ ha
  rw [if_neg hge, hn] at hnext
  cases hnext

/-- The boundary after `a` is the one with the next number. -/
theorem Unguarded.getElem?_succ (hg : g.Unguarded) (hn : g.points[n]? = some a) (ha : a < g.hi) :
    g.points[n + 1]? = some (g.boundary (.ofNat (n + 1))) := by
  rw [getElem?_points_succ hn, if_pos ha, next, if_pos (hg n a hn ha)]

/-! ## Boundaries of the coarser grid -/

theorem ofNat_le_ofNat {k : Nat} (hjk : j ≤ k) (hk : k < 2 ^ 64) : UInt64.ofNat j ≤ .ofNat k := by
  rw [UInt64.le_iff_toNat_le, UInt64.toNat_ofNat', UInt64.toNat_ofNat']
  omega

/-- It is cut off, and so are all later ones. -/
theorem boundary_of_negative_zero {j k : UInt64} (hhi : ordinal g.hi = 0)
    (hj : g.boundary j = -0.0) (hjk : j ≤ k) : g.boundary k = -0.0 := by
  have hcut' : g.boundary k = g.hi :=
    if_pos (Binary64.lt_of_lt_of_le (hi_lt_sum hhi hj) (g.sum_le_sum hjk))
  rw [hcut', ← boundary_eq_hi hhi hj, hj]

theorem ordinal_boundary_of_not_lt {k : UInt64} (hk : ¬ g.boundary k < g.hi) :
    ordinal (g.boundary k) = ordinal g.hi := by
  have hle := ordinal_le_of_le (g.boundary_le_hi k)
  rw [lt_iff_ordinal (g.boundary_not_nan k) (not_isNaN_of_isFinite g.isFinite_hi)] at hk
  omega

/-- Boundaries at the upper bound are one float, unless they are zeros. Then the first of them can be
an exact sum, and a later one cut off. -/
theorem boundary_eq_of_not_lt {j k : UInt64} (hj : ¬ g.boundary j < g.hi) (hjk : j ≤ k) :
    g.boundary k = g.boundary j ∨
      g.boundary k = -0.0 ∧ g.hi = -0.0 ∧ g.boundary j = 0.0 := by
  have hk : ¬ g.boundary k < g.hi := fun hlt =>
    hj (Binary64.lt_of_le_of_lt (g.boundary_le_boundary hjk) hlt)
  have hordj := ordinal_boundary_of_not_lt hj
  have hordk := ordinal_boundary_of_not_lt hk
  by_cases hhi : ordinal g.hi = 0
  · obtain hzj | hzj := zero_cases (g.boundary_not_nan j) (hordj.trans hhi)
    · obtain hzk | hzk := zero_cases (g.boundary_not_nan k) (hordk.trans hhi)
      · exact .inl (hzk.trans hzj.symm)
      · exact .inr ⟨hzk, (boundary_eq_hi hhi hzk).symm.trans hzk, hzj⟩
    · exact .inl ((boundary_of_negative_zero hhi hzj hjk).trans hzj.symm)
  · exact .inl (eq_of_ordinal_eq (hordk ▸ hhi) (hordk.trans hordj.symm))

section

variable (hcoarse : g.Unguarded) (hfine : (g.halved h).Unguarded)
  (hfew : (g.halved h).points.length ≤ 0x20000000000000)
include hcoarse hfine hfew

/-- What comes after a boundary that both grids have, in the finer grid at twice the position. -/
theorem after_common (hn : g.points[n]? = some a) (hn' : (g.halved h).points[2 * n]? = some a)
    (ha : a < g.hi) :
    2 * n + 2 ≤ 0x20000000000000 ∧
      (g.halved h).points[2 * n + 1]? = some ((g.halved h).boundary (.ofNat (2 * n + 1))) ∧
      g.points[n + 1]? = some ((g.halved h).boundary (.ofNat (2 * n + 1 + 1))) := by
  have hodd := hfine.getElem?_succ hn' ha
  have hlen := (List.getElem?_eq_some_iff.1 hodd).1
  refine ⟨by omega, hodd, ?_⟩
  rw [hcoarse.getElem?_succ hn ha, show 2 * n + 1 + 1 = 2 * (n + 1) by omega,
    boundary_halved (by omega) (by omega)]

/-- Below the upper bound the boundaries of the coarser grid are those with even numbers. -/
theorem getElem?_halved (hn : g.points[n]? = some x) (hx : x < g.hi) :
    (g.halved h).points[2 * n]? = some x := by
  induction n generalizing x with
  | zero =>
    obtain rfl : g.lo = x := Option.some_inj.1 hn
    rfl
  | succ n ih =>
    obtain ⟨a, ha, halt⟩ := exists_getElem?_pred hn
    obtain ⟨hlen, hodd, heven⟩ := after_common hcoarse hfine hfew ha (ih ha halt) halt
    obtain rfl := Option.some_inj.1 (hn.symm.trans heven)
    have hle := (g.halved h).boundary_le_boundary
      (ofNat_le_ofNat (Nat.le_succ (2 * n + 1)) (by omega))
    rw [show 2 * (n + 1) = 2 * n + 1 + 1 by omega]
    exact hfine.getElem?_succ hodd (Binary64.lt_of_le_of_lt hle hx)

/-- The finer pass has come to the boundary itself, or it is at the upper bound one step before. -/
theorem mem_halved (hx : x ∈ g.points) :
    x ∈ (g.halved h).points ∨ x = -0.0 ∧ g.hi = -0.0 ∧ 0.0 ∈ (g.halved h).points := by
  obtain ⟨n, hn⟩ := List.mem_iff_getElem?.1 hx
  by_cases hlt : x < g.hi
  · exact .inl (List.mem_of_getElem? (getElem?_halved hcoarse hfine hfew hn hlt))
  cases n with
  | zero =>
    obtain rfl : g.lo = x := Option.some_inj.1 hn
    exact absurd g.bounds.lo_lt_hi hlt
  | succ n =>
    obtain ⟨a, ha, halt⟩ := exists_getElem?_pred hn
    have ha' := getElem?_halved hcoarse hfine hfew ha halt
    obtain ⟨hlen, hodd, heven⟩ := after_common hcoarse hfine hfew ha ha' halt
    obtain rfl := Option.some_inj.1 (hn.symm.trans heven)
    by_cases hend : (g.halved h).boundary (.ofNat (2 * n + 1)) < g.hi
    · exact .inl (List.mem_of_getElem? (hfine.getElem?_succ hodd hend))
    · obtain heq | ⟨hx, hhi, hzero⟩ := boundary_eq_of_not_lt (g := g.halved h) hend
        (ofNat_le_ofNat (Nat.le_succ (2 * n + 1)) (by omega))
      · rw [heq]
        exact .inl (List.mem_of_getElem? hodd)
      · rw [hzero] at hodd
        exact .inr ⟨hx, hhi, List.mem_of_getElem? hodd⟩

end

end Grid

/-! ## Brackets of the coarser grid -/

/-- There is something within `b` among the brackets `found`, and `b` itself if it is a zero. -/
structure Bracket.KeptIn (b : Bracket) (found : List Bracket) : Prop where
  degenerate : b.isDegenerate = true → b ∈ found
  spanning : b.isDegenerate = false → ∃ w ∈ found, w.Within b.toInterval

namespace Grid

variable {g g' : Grid} {f : Float → Float} {b : Bracket}

theorem ends_of_mem_collect (hb : b ∈ g.collect f) :
    b.lo ∈ (g.scan f).visited ∧ b.hi ∈ (g.scan f).visited := by
  have hmem : b.toInterval ∈ findings f g.points :=
    g.collect_eq_findings f ▸ List.mem_map_of_mem hb
  obtain ⟨hlo, hhi, -⟩ := endsIn_of_mem_findings hmem
  rw [scan_visited]
  exact ⟨hlo, hhi⟩

/-- A zero at a boundary is found as it is. -/
theorem mem_collect_of_zero (hb : b.lo = b.hi) (hx : b.lo ∈ (g.scan f).visited)
    (hz : (f b.lo == 0) = true) : b ∈ g.collect f := by
  have hfound := (g.collect_exact f).2.2.1 b.lo hx hz
  have hmem : (⟨b.lo, b.lo⟩ : Interval) ∈
      ((g.collect f).filter (·.contains b.lo)).map Bracket.toInterval := by
    rw [hfound]
    exact List.mem_singleton_self _
  obtain ⟨c, hc, heq⟩ := List.mem_map.1 hmem
  obtain rfl := Bracket.eq_of_toInterval (heq.trans (congrArg (Interval.mk b.lo) hb))
  exact (List.mem_filter.1 hc).1

/-- What another pass over the same function finds between the ends of a bracket. -/
theorem keptIn_collect (hb : b ∈ g'.collect f) (hlo : b.lo ∈ (g.scan f).visited)
    (hhi : b.hi ∈ (g.scan f).visited) (hnan : ∀ x ∈ (g.scan f).visited, (f x).isNaN = false) :
    b.KeptIn (g.collect f) := by
  constructor
  · intro hdeg
    obtain ⟨heq, hz⟩ | ⟨hlt, -⟩ := marked_of_mem_collect hb
    · exact mem_collect_of_zero heq hlo hz
    · rw [Bracket.isDegenerate, Binary64.not_beq_of_lt hlt] at hdeg
      cases hdeg
  · intro hne
    obtain ⟨heq, -⟩ | ⟨hlt, hsign⟩ := marked_of_mem_collect hb
    · rw [Bracket.isDegenerate, heq, beq_self (not_isNaN_of_isFinite b.hi_finite)] at hne
      cases hne
    · exact exists_within hlo hhi hlt (fun x hx _ => hnan x hx) hsign

/-- A pass with windows of half the width meets all boundaries that the pass with the whole windows
does and loses nothing that this one finds, as long as its windows can be counted by floats and
neither pass comes to a repeated boundary. Where the upper bound is the negative zero, this boundary
can be met as the positive one, and with it a bracket that ends there can be lost. -/
theorem halved_windows_lose_nothing (g : Grid) (f : Float → Float)
    (h : toRat (g.window / 2) = toRat g.window / 2)
    (hcoarse : g.Unguarded) (hfine : (g.halved h).Unguarded)
    (hfew : ((g.halved h).scan f).visited.length ≤ 2 ^ 53)
    (hnan : ∀ x ∈ ((g.halved h).scan f).visited, (f x).isNaN = false) :
    ofWindow g.bounds (g.window / 2) = .ok (g.halved h) ∧
    (∀ x ∈ (g.scan f).visited, x ∈ ((g.halved h).scan f).visited ∨
      x = -0.0 ∧ g.hi = -0.0 ∧ 0.0 ∈ ((g.halved h).scan f).visited) ∧
    (∀ b ∈ g.collect f, b.hi ∈ ((g.halved h).scan f).visited →
      b.KeptIn ((g.halved h).collect f)) ∧
    (g.hi ≠ -0.0 → (∀ x ∈ (g.scan f).visited, x ∈ ((g.halved h).scan f).visited) ∧
      ∀ b ∈ g.collect f, b.KeptIn ((g.halved h).collect f)) := by
  have hmet : ∀ x ∈ (g.scan f).visited, x ∈ ((g.halved h).scan f).visited ∨
      x = -0.0 ∧ g.hi = -0.0 ∧ 0.0 ∈ ((g.halved h).scan f).visited := by
    intro x hx
    rw [scan_visited] at hx hfew ⊢
    exact mem_halved hcoarse hfine hfew hx
  have hkept : ∀ b ∈ g.collect f, b.hi ∈ ((g.halved h).scan f).visited →
      b.KeptIn ((g.halved h).collect f) := by
    intro b hb hhi
    obtain ⟨hlo, hhi'⟩ := ends_of_mem_collect hb
    refine keptIn_collect hb ?_ hhi hnan
    obtain ⟨heq, -⟩ | ⟨hlt, -⟩ := marked_of_mem_collect hb
    · rwa [heq]
    · refine (hmet b.lo hlo).resolve_right ?_
      rintro ⟨hzero, hend, -⟩
      -- Nothing lies past the upper bound.
      rw [scan_visited] at hhi'
      have hle := (between_of_mem_points hhi').2
      rw [hend, ← hzero] at hle
      exact Binary64.not_le_of_lt hlt hle
  refine ⟨ofWindow_halved g h, hmet, hkept, fun hne => ?_⟩
  have hall : ∀ x ∈ (g.scan f).visited, x ∈ ((g.halved h).scan f).visited := fun x hx =>
    (hmet x hx).resolve_right fun hlost => hne hlost.2.1
  exact ⟨hall, fun b hb => hkept b hb (hall b.hi (ends_of_mem_collect hb).2)⟩

theorem half_two : toRat (2 / 2) = toRat 2 / 2 := by
  rw [toRat_of_whole (k := 1) (by decide +kernel) (by decide),
    toRat_of_whole (k := 2) (by decide +kernel) (by decide)]
  norm_num

/-- Grids with few boundaries are checked boundary by boundary. -/
theorem unguarded_of_points {xs : List Float} (hxs : g.points = xs)
    (h : ∀ p ∈ xs.zipIdx, p.1 < g.hi → p.1 < g.boundary (.ofNat (p.2 + 1))) : g.Unguarded := by
  intro n a hn ha
  rw [hxs] at hn
  exact h (a, n) (List.mk_mem_zipIdx_iff_getElem?.2 hn) ha

/-- One window from 0 to 2. -/
def wholeWindow : Grid :=
  ⟨⟨⟨0, 2⟩, rfl, rfl, by decide⟩, 2, rfl, by decide, by decide +kernel⟩

theorem points_wholeWindow : wholeWindow.points = [0, 2] := points_of_leadsTo (by decide +kernel)

theorem points_halved_wholeWindow : (wholeWindow.halved half_two).points = [0, 1, 2] :=
  points_of_leadsTo (by decide +kernel)

/-- The root of `x - 1` is within the whole window and between the halves. -/
theorem halved_windows_lose_nothing_wholeWindow :
    toRat (wholeWindow.window / 2) = toRat wholeWindow.window / 2 ∧
    wholeWindow.Unguarded ∧ (wholeWindow.halved half_two).Unguarded ∧
    ((wholeWindow.halved half_two).scan (· - 1)).visited.length ≤ 2 ^ 53 ∧
    (∀ x ∈ ((wholeWindow.halved half_two).scan (· - 1)).visited, (x - 1).isNaN = false) ∧
    wholeWindow.hi ≠ -0.0 ∧
    ∃ b ∈ wholeWindow.collect (· - 1), b.toInterval = ⟨0, 2⟩ ∧
      b.KeptIn ((wholeWindow.halved half_two).collect (· - 1)) := by
  have hvisited : ((wholeWindow.halved half_two).scan (· - 1)).visited = [0, 1, 2] :=
    (scan_visited _ _).trans points_halved_wholeWindow
  have hcoarse : wholeWindow.Unguarded :=
    unguarded_of_points points_wholeWindow (by decide +kernel)
  have hfine : (wholeWindow.halved half_two).Unguarded :=
    unguarded_of_points points_halved_wholeWindow (by decide +kernel)
  have hfew : ((wholeWindow.halved half_two).scan (· - 1)).visited.length ≤ 2 ^ 53 := by
    rw [hvisited]
    decide
  have hnan : ∀ x ∈ ((wholeWindow.halved half_two).scan (· - 1)).visited,
      (x - 1).isNaN = false := by
    rw [hvisited]
    decide +kernel
  have hhi : wholeWindow.hi ≠ -0.0 := by decide +kernel
  refine ⟨half_two, hcoarse, hfine, hfew, hnan, hhi, ?_⟩
  have hmem : ⟨0, 2⟩ ∈ (wholeWindow.collect (· - 1)).map Bracket.toInterval := by
    have hbetween : findingsBetween (· - 1) 0 2 = [⟨0, 2⟩] := by
      rw [findingsBetween, if_neg (by decide +kernel), if_pos (by decide +kernel)]
    rw [collect_eq_findings, points_wholeWindow, findings_cons, findingsAlong_cons_cons, hbetween]
    simp
  obtain ⟨b, hb, hi⟩ := List.mem_map.1 hmem
  exact ⟨b, hb, hi, ((halved_windows_lose_nothing wholeWindow (· - 1) half_two hcoarse hfine hfew
    hnan).2.2.2 hhi).2 b hb⟩

/-- Two windows from -3 to the negative zero, of which the second is cut off. Three halves of a window
end there exactly. -/
def cutAtZero : Grid :=
  ⟨⟨⟨-3, -0.0⟩, rfl, rfl, by decide⟩, 2, rfl, by decide, by decide +kernel⟩

theorem points_cutAtZero : cutAtZero.points = [-3, -1, -0.0] :=
  points_of_leadsTo (by decide +kernel)

theorem points_halved_cutAtZero : (cutAtZero.halved half_two).points = [-3, -2, -1, 0.0] :=
  points_of_leadsTo (by decide +kernel)

/-- `1 / x + 5` is positive up to `0.0` and negative at `-0.0`, so that the finer pass, which does not
come to it, loses the bracket that ends there. -/
theorem lost_cutAtZero :
    let f : Float → Float := fun x => 1 / x + 5
    toRat (cutAtZero.window / 2) = toRat cutAtZero.window / 2 ∧
      cutAtZero.Unguarded ∧ (cutAtZero.halved half_two).Unguarded ∧
      ((cutAtZero.halved half_two).scan f).visited.length ≤ 2 ^ 53 ∧
      (∀ x ∈ ((cutAtZero.halved half_two).scan f).visited, (f x).isNaN = false) ∧
      (-0.0 ∈ (cutAtZero.scan f).visited ∧ -0.0 ∉ ((cutAtZero.halved half_two).scan f).visited) ∧
      (cutAtZero.collect f).map Bracket.toInterval = [⟨-1, -0.0⟩] ∧
      (cutAtZero.halved half_two).collect f = [] := by
  intro f
  have hvisited : ((cutAtZero.halved half_two).scan f).visited = [-3, -2, -1, 0.0] :=
    (scan_visited _ _).trans points_halved_cutAtZero
  have hwhole : (cutAtZero.scan f).visited = [-3, -1, -0.0] :=
    (scan_visited _ _).trans points_cutAtZero
  refine ⟨half_two, unguarded_of_points points_cutAtZero (by decide +kernel),
    unguarded_of_points points_halved_cutAtZero (by decide +kernel), ?_, ?_, ?_, ?_, ?_⟩
  · rw [hvisited]
    decide
  · rw [hvisited]
    decide +kernel
  · rw [hvisited, hwhole]
    constructor
    · simp
    · simp only [List.mem_cons, List.not_mem_nil]
      decide +kernel
  · have hat : findingsAt f (-3) = [] := by decide +kernel
    have hbefore : findingsBetween f (-3) (-1) = [] := by decide +kernel
    have hbetween : findingsBetween f (-1) (-0.0) = [⟨-1, -0.0⟩] := by
      rw [findingsBetween, if_neg (by decide +kernel), if_pos (by decide +kernel)]
    rw [collect_eq_findings, points_cutAtZero, findings_cons, findingsAlong_cons_cons,
      findingsAlong_cons_cons, hat, hbefore, hbetween]
    rfl
  · have hfind := (cutAtZero.halved half_two).collect_eq_findings f
    have hnone : findings f [-3, -2, -1, 0.0] = [] := by decide +kernel
    rw [points_halved_cutAtZero, hnone] at hfind
    exact List.map_eq_nil_iff.1 hfind

end Grid

end ZeroSearch
