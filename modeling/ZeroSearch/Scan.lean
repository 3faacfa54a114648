import ZeroSearch.Bracket
import ZeroSearch.Grid

/-!
# Scans

A scan walks along a grid and finds the brackets of a function: the boundaries where it is zero,
and the windows with opposite signs at their ends. A zero on a boundary is found once and opens no
further bracket. Zeros that touch the axis without crossing it, and an even number of crossings
within one window, are not seen.

A `Cursor` is a position in a scan. It evaluates the function no further than to the boundary that
completes its bracket. `Grid.scan` is a whole pass.
-/

namespace ZeroSearch

/-- A position on the grid `g`: the last boundary evaluated, its number and its value, and the
bracket that was found there. A cursor without a bracket is at the end. -/
structure Cursor (g : Grid) where
  windows : UInt64
  x : Float
  value : Float
  finite : x.isFinite = true
  current : Option Bracket

/-- A position and the boundaries that were evaluated on the way to it, in order. -/
structure Leg (g : Grid) where
  visited : List Float
  cursor : Cursor g

namespace Cursor

variable {g : Grid}

/-- The bracket that a window with ends `a` and `b` completes. -/
def bracketAt {a b : Float} (fa fb : Float) (ha : a.isFinite = true) (hb : b.isFinite = true)
    (hab : a ≤ b) : Option Bracket :=
  if fb == 0 then some (.degenerate b hb)
  else if fa != 0 && oppositeSigns fa fb then some ⟨⟨a, b⟩, ha, hb, hab⟩
  else none

/-- Walks on to the next bracket; `past` holds the boundaries evaluated so far, newest first. -/
def seek (f : Float → Float) (c : Cursor g) (past : List Float) : Leg g :=
  if h : c.x < g.hi then
    let k := c.windows + 1
    let b := g.next k c.x
    let fb := f b
    have hb : b.isFinite = true := g.isFinite_next k c.finite h
    let found := bracketAt c.value fb c.finite hb (Binary64.le_of_lt (g.lt_next k h))
    let d : Cursor g := ⟨k, b, fb, hb, found⟩
    if found.isSome then ⟨(b :: past).reverse, d⟩ else seek f d (b :: past)
  else ⟨past.reverse, { c with current := none }⟩
termination_by g.remaining c.x
decreasing_by exact g.remaining_next_lt (c.windows + 1) h

/-- The first bracket of a new pass. -/
def start (g : Grid) (f : Float → Float) : Leg g :=
  let y := f g.lo
  if y == 0 then
    ⟨[g.lo], ⟨0, g.lo, y, g.bounds.lo_finite, some (.degenerate g.lo g.bounds.lo_finite)⟩⟩
  else seek f ⟨0, g.lo, y, g.bounds.lo_finite, none⟩ [g.lo]

/-- The next bracket. A cursor at the end stays there and evaluates nothing. -/
def advance (f : Float → Float) (c : Cursor g) : Leg g := seek f c []

theorem seek_past (f : Float → Float) (c : Cursor g) (past : List Float) :
    seek f c past = ⟨past.reverse ++ (seek f c []).visited, (seek f c []).cursor⟩ := by
  suffices ∀ q past : List Float,
      seek f c past = ⟨past.reverse ++ (seek f c []).visited, (seek f c []).cursor⟩ from
    this [] past
  intro q
  fun_induction seek f c q with
  | case1 c _ h k b fb hb found d hfound =>
    intro past
    have step (qs : List Float) : seek f c qs = ⟨(b :: qs).reverse, d⟩ := by
      rw [seek, dif_pos h]
      exact if_pos hfound
    rw [step, step]
    simp
  | case2 c _ h k b fb hb found d hfound ih =>
    intro past
    have step (qs : List Float) : seek f c qs = seek f d (b :: qs) := by
      rw [seek, dif_pos h]
      exact if_neg hfound
    rw [step past, step [], ih (b :: past), ih [b]]
    simp
  | case3 c _ h =>
    intro past
    have step (qs : List Float) : seek f c qs = ⟨qs.reverse, { c with current := none }⟩ := by
      rw [seek, dif_neg h]
    rw [step, step]
    simp

/-! ## Progress -/

/-- Falls with every advance that finds a bracket, and once more at the end. -/
def rank (c : Cursor g) : Nat := 2 * g.remaining c.x + if c.current.isSome then 1 else 0

theorem rank_seek_le (f : Float → Float) (c : Cursor g) (past : List Float) :
    (seek f c past).cursor.rank ≤ 2 * g.remaining c.x := by
  fun_induction seek f c past with
  | case1 c past h k b fb hb found d hfound =>
    have := g.remaining_next_lt k h
    simp only [rank, d, hfound, if_true, b]
    omega
  | case2 c past h k b fb hb found d hfound ih =>
    have := g.remaining_next_lt k h
    simp only [d, b] at ih ⊢
    omega
  | case3 c past h => simp [rank]

theorem rank_advance_lt {c : Cursor g} (h : c.current.isSome = true) (f : Float → Float) :
    (c.advance f).cursor.rank < c.rank := by
  have hc : c.rank = 2 * g.remaining c.x + 1 := by rw [rank, if_pos h]
  rw [hc]
  exact Nat.lt_succ_of_le (rank_seek_le f c [])

end Cursor

/-! ## Whole passes -/

/-- The brackets of a pass, each with the boundaries evaluated on the way to it, and the boundaries
after the last of them. -/
structure Pass where
  found : List (List Float × Bracket)
  tail : List Float

namespace Pass

def brackets (p : Pass) : List Bracket := p.found.map Prod.snd

/-- All boundaries evaluated, in order. -/
def visited (p : Pass) : List Float := p.found.flatMap Prod.fst ++ p.tail

end Pass

namespace Grid

/-- The rest of a pass from a position on; `past` holds what was found before, newest first. -/
def scanFrom {g : Grid} (f : Float → Float) (leg : Leg g) (past : List (List Float × Bracket)) :
    Pass :=
  match h : leg.cursor.current with
  | none => ⟨past.reverse, leg.visited⟩
  | some bracket =>
    have := Cursor.rank_advance_lt (c := leg.cursor) (by rw [h]; rfl) f
    scanFrom f (leg.cursor.advance f) ((leg.visited, bracket) :: past)
termination_by leg.cursor.rank

theorem scanFrom_past {g : Grid} (f : Float → Float) (leg : Leg g)
    (past : List (List Float × Bracket)) :
    scanFrom f leg past =
      ⟨past.reverse ++ (scanFrom f leg []).found, (scanFrom f leg []).tail⟩ := by
  suffices ∀ q past : List (List Float × Bracket),
      scanFrom f leg past =
        ⟨past.reverse ++ (scanFrom f leg []).found, (scanFrom f leg []).tail⟩ from
    this [] past
  intro q
  fun_induction scanFrom f leg q with
  | case1 leg _ h =>
    intro past
    have step (qs : List (List Float × Bracket)) :
        scanFrom f leg qs = ⟨qs.reverse, leg.visited⟩ := by
      rw [scanFrom]
      split
      · rfl
      · rename_i h'
        cases h.symm.trans h'
    rw [step, step]
    simp
  | case2 leg _ bracket h hlt ih =>
    intro past
    have step (qs : List (List Float × Bracket)) :
        scanFrom f leg qs = scanFrom f (leg.cursor.advance f) ((leg.visited, bracket) :: qs) := by
      rw [scanFrom]
      split
      · rename_i h'
        cases h.symm.trans h'
      · rename_i h'
        cases h.symm.trans h'
        rfl
    rw [step past, step [], ih (_ :: past), ih [_]]
    simp

def scan (g : Grid) (f : Float → Float) : Pass := scanFrom f (Cursor.start g f) []

/-- The brackets of one pass, in order. -/
def collect (g : Grid) (f : Float → Float) : List Bracket := (g.scan f).brackets

end Grid

end ZeroSearch
