import Mathlib
import ZeroSearch.Proofs.Scan

/-!
# Passes leg by leg

A pass can be read one bracket at a time: its legs are the start and every advance after it. They
evaluate the boundaries in order, the counter of the cursor tells how many there were so far, and
after finitely many legs the cursor is at the end. The counter never wraps, because every step uses
up one of the floats between the bounds.
-/

namespace ZeroSearch

open Binary64

variable {g : Grid} {f : Float → Float}

/-! ## Counters -/

namespace Cursor

/-- The counter has room for all the floats that are left. -/
def HasRoom (c : Cursor g) : Prop := c.windows.toNat + g.remaining c.x < 2 ^ 64

theorem HasRoom.step {c : Cursor g} (hc : c.HasRoom) (f : Float → Float) (h : c.x < g.hi) :
    (c.step f h).windows.toNat = c.windows.toNat + 1 ∧ (c.step f h).HasRoom := by
  have hlt : g.remaining (c.step f h).x < g.remaining c.x := g.remaining_next_lt (c.windows + 1) h
  have hcount : (c.step f h).windows.toNat = c.windows.toNat + 1 := by
    unfold HasRoom at hc
    rw [show (c.step f h).windows = c.windows + 1 from rfl, UInt64.toNat_add, UInt64.toNat_one]
    omega
  refine ⟨hcount, ?_⟩
  unfold HasRoom at hc ⊢
  omega

theorem seek_counts (f : Float → Float) (c : Cursor g) (hc : c.HasRoom) :
    (seek f c []).cursor.windows.toNat = c.windows.toNat + (seek f c []).visited.length ∧
      (seek f c []).cursor.HasRoom := by
  refine seek_induction (f := f) (motive := fun c leg => c.HasRoom →
    leg.cursor.windows.toNat = c.windows.toNat + leg.visited.length ∧ leg.cursor.HasRoom)
    ?_ ?_ ?_ c hc
  · intro c h hfound hc
    exact hc.step f h
  · intro c h leg hnone ih hc
    obtain ⟨hcount, hd⟩ := hc.step f h
    obtain ⟨hleg, hroom⟩ := ih hd
    refine ⟨?_, hroom⟩
    rw [hleg, hcount, List.length_cons]
    omega
  · intro c h hc
    exact ⟨rfl, hc⟩

theorem start_counts (g : Grid) (f : Float → Float) :
    (start g f).cursor.windows.toNat + 1 = (start g f).visited.length ∧
      (start g f).cursor.HasRoom := by
  have hroom : (⟨0, g.lo, f g.lo, g.bounds.lo_finite, none⟩ : Cursor g).HasRoom := by
    unfold HasRoom
    rw [UInt64.toNat_zero, Nat.zero_add]
    exact g.remaining_lt g.bounds.lo_finite
  unfold start
  dsimp only
  cases f g.lo == 0 with
  | true => exact ⟨rfl, hroom⟩
  | false =>
    obtain ⟨hcount, hend⟩ := seek_counts f _ hroom
    simp only [Bool.false_eq_true, if_false]
    rw [seek_past]
    refine ⟨?_, hend⟩
    rw [hcount, UInt64.toNat_zero, List.length_append]
    simp only [List.reverse_singleton, List.length_singleton]
    omega

end Cursor

/-! ## Legs of a pass -/

namespace Grid

/-- The legs of a pass, in order. The cursor may be advanced at the end as well. -/
def leg (g : Grid) (f : Float → Float) : Nat → Leg g
  | 0 => Cursor.start g f
  | n + 1 => (g.leg f n).cursor.advance f

/-- All boundaries evaluated on the legs up to number `n`. -/
def evaluated (g : Grid) (f : Float → Float) : Nat → List Float
  | 0 => (g.leg f 0).visited
  | n + 1 => g.evaluated f n ++ (g.leg f (n + 1)).visited

/-- What a leg leaves: the rest of the pass, and a counter that has counted. -/
structure LegInvariant (g : Grid) (f : Float → Float) (n : Nat) : Prop where
  value : (g.leg f n).cursor.value = f (g.leg f n).cursor.x
  points : g.points = g.evaluated f n ++ (g.leg f n).cursor.ahead
  count : (g.leg f n).cursor.windows.toNat + 1 = (g.evaluated f n).length
  room : (g.leg f n).cursor.HasRoom
  done : (g.leg f n).cursor.current = none → (g.leg f n).cursor.ahead = []

theorem leg_invariant (g : Grid) (f : Float → Float) (n : Nat) : g.LegInvariant f n := by
  induction n with
  | zero =>
    have hcovers := Cursor.start_covers g f
    have hcounts := Cursor.start_counts g f
    exact ⟨hcovers.value, hcovers.points, hcounts.1, hcounts.2, hcovers.done⟩
  | succ n ih =>
    have hcovers := (g.leg f n).cursor.seek_covers ih.value
    obtain ⟨hcount, hroom⟩ := (g.leg f n).cursor.seek_counts f ih.room
    refine ⟨hcovers.value, ?_, ?_, hroom, hcovers.done⟩
    · rw [evaluated, List.append_assoc, ih.points]
      exact congrArg _ hcovers.points
    · rw [evaluated, List.length_append, ← ih.count, leg, Cursor.advance, hcount]
      omega

theorem exists_leg_done (g : Grid) (f : Float → Float) :
    ∃ n, (g.leg f n).cursor.current = none := by
  suffices ∀ rank n, (g.leg f n).cursor.rank = rank →
      ∃ m, (g.leg f m).cursor.current = none from this _ 0 rfl
  intro rank
  induction rank using Nat.strong_induction_on with
  | h rank ih =>
    intro n hn
    cases hc : (g.leg f n).cursor.current with
    | none => exact ⟨n, hc⟩
    | some bracket =>
      have hlt := Cursor.rank_advance_lt (c := (g.leg f n).cursor) (by rw [hc]; rfl) f
      exact ih _ (hn ▸ hlt) (n + 1) rfl

/-- Every pass, for every function, evaluates finite floats in strictly increasing order, no more
than there are between the bounds. They start with the lower bound and end with the upper, or with
`0.0` where the upper bound is `-0.0`. Read leg by leg it is the same pass, it comes to an end, and
the counter of the cursor stays exact. -/
theorem scan_increases (g : Grid) (f : Float → Float) :
    (g.scan f).visited.Pairwise (· < ·) ∧
      (∀ x ∈ (g.scan f).visited, x.isFinite = true) ∧
      (g.scan f).visited.length ≤ g.remaining g.lo + 1 ∧
      (g.scan f).visited.head? = some g.lo ∧
      ((g.scan f).visited.getLast? = some g.hi ∨
        g.hi = -0.0 ∧ (g.scan f).visited.getLast? = some 0.0) ∧
      (∃ n, (g.leg f n).cursor.current = none ∧ g.evaluated f n = (g.scan f).visited) ∧
      ∀ n, g.evaluated f n <+: (g.scan f).visited ∧
        (g.leg f n).cursor.windows.toNat + 1 = (g.evaluated f n).length := by
  rw [scan_visited]
  refine ⟨g.pairwise_points, fun x hx => isFinite_of_mem_points hx,
    Nat.succ_le_succ (g.length_pointsAfter_le 0 g.lo), rfl, g.getLast?_points, ?_, ?_⟩
  · obtain ⟨n, hn⟩ := g.exists_leg_done f
    have hinv := g.leg_invariant f n
    refine ⟨n, hn, ?_⟩
    rw [hinv.points, hinv.done hn, List.append_nil]
  · intro n
    have hinv := g.leg_invariant f n
    exact ⟨⟨_, hinv.points.symm⟩, hinv.count⟩

theorem scan_increases_unitBelowZero :
    0.0 ∈ (unitBelowZero.scan (1 / ·)).visited ∧ (0.0 : Float).isFinite = true ∧
      ∃ n, unitBelowZero.evaluated (1 / ·) n = (unitBelowZero.scan (1 / ·)).visited := by
  have hmem : 0.0 ∈ (unitBelowZero.scan (1 / ·)).visited := by
    rw [scan_visited, points_unitBelowZero]
    exact List.mem_cons_of_mem _ List.mem_cons_self
  have h := scan_increases unitBelowZero (1 / ·)
  obtain ⟨n, -, hn⟩ := h.2.2.2.2.2.1
  exact ⟨hmem, h.2.1 _ hmem, n, hn⟩

/-- The end of the one window is met as the positive zero, and the upper bound is the negative. -/
theorem scan_unitBelowZero :
    (unitBelowZero.scan (1 / ·)).visited = [-1, 0.0] ∧
      (unitBelowZero.scan (1 / ·)).visited.getLast? ≠ some unitBelowZero.hi := by
  have hvisited : (unitBelowZero.scan (1 / ·)).visited = [-1, 0.0] :=
    (scan_visited _ _).trans points_unitBelowZero
  refine ⟨hvisited, fun h => ?_⟩
  rw [hvisited, List.getLast?_cons_cons, List.getLast?_singleton, Option.some_inj] at h
  exact absurd h (by decide +kernel)

end Grid

end ZeroSearch
