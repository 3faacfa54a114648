import Mathlib
import ZeroSearch.Proofs.Grid
import ZeroSearch.Scan

/-!
# Passes

A pass evaluates the boundaries of its grid, all of them and each once, and it finds what they show:
a zero at a boundary, or a sign change between two neighbours. `findings` says this about a list of
boundaries, with no cursor. A cursor keeps count of what is still ahead (`Leg.Covers`): the
boundaries evaluated on a leg and those ahead of it are those that were ahead before, and so with
the findings.
-/

namespace ZeroSearch

open Binary64

/-! ## What boundaries show -/

section

variable (f : Float → Float)

def findingsAt (x : Float) : List Interval := if f x == 0 then [⟨x, x⟩] else []

/-- A zero at the far end, or a sign change between ends that are not zeros. A zero at the near end
belongs to the window before. -/
def findingsBetween (a b : Float) : List Interval :=
  if f b == 0 then [⟨b, b⟩]
  else if f a != 0 && f b != 0 && oppositeSigns (f a) (f b) then [⟨a, b⟩]
  else []

/-- What the windows between neighbours show, in order. -/
def findingsAlong (xs : List Float) : List Interval :=
  (xs.zip xs.tail).flatMap fun (a, b) => findingsBetween f a b

/-- What the boundaries `xs` show, in order. -/
def findings (xs : List Float) : List Interval :=
  xs.head?.toList.flatMap (findingsAt f) ++ findingsAlong f xs

@[simp]
theorem findingsAlong_singleton (a : Float) : findingsAlong f [a] = [] := rfl

@[simp]
theorem findingsAlong_cons_cons (a b : Float) (xs : List Float) :
    findingsAlong f (a :: b :: xs) = findingsBetween f a b ++ findingsAlong f (b :: xs) := rfl

theorem findings_cons (a : Float) (xs : List Float) :
    findings f (a :: xs) = findingsAt f a ++ findingsAlong f (a :: xs) := by
  simp [findings]

end

namespace Cursor

variable {g : Grid} {f : Float → Float}

theorem bracketAt_eq_findings {a b : Float} (ha : a.isFinite = true) (hb : b.isFinite = true)
    (hab : a ≤ b) :
    (bracketAt (f a) (f b) ha hb hab).toList.map Bracket.toInterval = findingsBetween f a b := by
  unfold bracketAt findingsBetween
  cases hz : f b == 0 with
  | true => rfl
  | false =>
    have hne : (f b != 0) = true := by rw [bne, hz]; rfl
    rw [hne, Bool.and_true]
    cases f a != 0 && oppositeSigns (f a) (f b) <;> rfl

/-! ## Steps of a cursor -/

/-- The boundaries that a cursor has not reached yet. -/
def ahead (c : Cursor g) : List Float := g.pointsAfter c.windows c.x

theorem isFinite_next (c : Cursor g) (h : c.x < g.hi) :
    (g.next (c.windows + 1) c.x).isFinite = true := g.isFinite_next (c.windows + 1) c.finite h

theorem le_next (c : Cursor g) (h : c.x < g.hi) : c.x ≤ g.next (c.windows + 1) c.x :=
  Binary64.le_of_lt (g.lt_next (c.windows + 1) h)

/-- The position at the next boundary. -/
def step (f : Float → Float) (c : Cursor g) (h : c.x < g.hi) : Cursor g :=
  let b := g.next (c.windows + 1) c.x
  ⟨c.windows + 1, b, f b, c.isFinite_next h,
    bracketAt c.value (f b) c.finite (c.isFinite_next h) (c.le_next h)⟩

theorem ahead_eq_cons (f : Float → Float) (c : Cursor g) (h : c.x < g.hi) :
    c.ahead = (c.step f h).x :: (c.step f h).ahead := Grid.pointsAfter_of_lt h

theorem ahead_eq_nil {c : Cursor g} (h : ¬ c.x < g.hi) : c.ahead = [] := Grid.pointsAfter_of_not_lt h

theorem findings_step {c : Cursor g} (hc : c.value = f c.x) (h : c.x < g.hi) :
    (c.step f h).current.toList.map Bracket.toInterval =
      findingsBetween f c.x (c.step f h).x := by
  unfold step
  dsimp only
  rw [← bracketAt_eq_findings c.finite (c.isFinite_next h) (c.le_next h), ← hc]

theorem seek_of_found {c : Cursor g} (h : c.x < g.hi)
    (hfound : (c.step f h).current.isSome = true) :
    seek f c [] = ⟨[(c.step f h).x], c.step f h⟩ := by
  rw [seek, dif_pos h]
  exact if_pos hfound

theorem seek_of_none {c : Cursor g} (h : c.x < g.hi) (hnone : (c.step f h).current = none) :
    seek f c [] =
      ⟨(c.step f h).x :: (seek f (c.step f h) []).visited, (seek f (c.step f h) []).cursor⟩ := by
  have hpast := seek_past f (c.step f h) [(c.step f h).x]
  rw [List.reverse_singleton, List.singleton_append] at hpast
  rw [← hpast, seek, dif_pos h]
  exact if_neg (Option.not_isSome_iff_eq_none.2 hnone)

theorem seek_of_end {c : Cursor g} (h : ¬ c.x < g.hi) :
    seek f c [] = ⟨[], { c with current := none }⟩ := by
  rw [seek, dif_neg h]
  rfl

/-- A leg ends at the next boundary if that completes a bracket, goes on from there if not, and ends
where it is at the upper bound. -/
theorem seek_induction {motive : Cursor g → Leg g → Prop}
    (found : ∀ (c : Cursor g) (h : c.x < g.hi), (c.step f h).current.isSome = true →
      motive c ⟨[(c.step f h).x], c.step f h⟩)
    (skip : ∀ (c : Cursor g) (h : c.x < g.hi) (leg : Leg g), (c.step f h).current = none →
      motive (c.step f h) leg → motive c ⟨(c.step f h).x :: leg.visited, leg.cursor⟩)
    (finish : ∀ c : Cursor g, ¬ c.x < g.hi → motive c ⟨[], { c with current := none }⟩)
    (c : Cursor g) : motive c (seek f c []) := by
  induction hn : g.remaining c.x using Nat.strong_induction_on generalizing c with
  | h n ih =>
    by_cases h : c.x < g.hi
    · cases hcur : (c.step f h).current with
      | some bracket =>
        have hfound : (c.step f h).current.isSome = true := by rw [hcur]; rfl
        rw [seek_of_found h hfound]
        exact found c h hfound
      | none =>
        have hlt : g.remaining (c.step f h).x < n := hn ▸ g.remaining_next_lt (c.windows + 1) h
        rw [seek_of_none h hcur]
        exact skip c h _ hcur (ih _ hlt (c.step f h) rfl)
    · rw [seek_of_end h]
      exact finish c h

end Cursor

/-! ## Legs -/

variable {g : Grid} {f : Float → Float}

/-- The boundaries `xs` are those evaluated on the leg and those ahead of it; what they show,
`found`, is the bracket of the leg and what is shown ahead of it. -/
structure Leg.Covers (leg : Leg g) (f : Float → Float) (xs : List Float)
    (found : List Interval) : Prop where
  value : leg.cursor.value = f leg.cursor.x
  points : xs = leg.visited ++ leg.cursor.ahead
  found : found = leg.cursor.current.toList.map Bracket.toInterval ++
    findingsAlong f (leg.cursor.x :: leg.cursor.ahead)
  done : leg.cursor.current = none → leg.cursor.ahead = []

namespace Cursor

theorem seek_covers (c : Cursor g) (hc : c.value = f c.x) :
    (seek f c []).Covers f c.ahead (findingsAlong f (c.x :: c.ahead)) := by
  refine seek_induction (f := f) (motive := fun c leg => c.value = f c.x →
    leg.Covers f c.ahead (findingsAlong f (c.x :: c.ahead))) ?_ ?_ ?_ c hc
  · intro c h hfound hc
    rw [c.ahead_eq_cons f h, findingsAlong_cons_cons, ← findings_step hc h]
    refine ⟨rfl, rfl, rfl, fun hnone => ?_⟩
    rw [hnone] at hfound
    cases hfound
  · intro c h leg hnone ih hc
    have hd := ih rfl
    have hfind := findings_step hc h
    rw [hnone] at hfind
    rw [c.ahead_eq_cons f h, findingsAlong_cons_cons, ← hfind]
    refine ⟨hd.value, ?_, hd.found, hd.done⟩
    rw [hd.points, List.cons_append]
  · intro c h hc
    have hahead := ahead_eq_nil h
    rw [hahead]
    refine ⟨hc, hahead.symm, ?_, fun _ => hahead⟩
    rw [show ahead { c with current := none } = [] from hahead]
    rfl

theorem start_covers (g : Grid) (f : Float → Float) :
    (start g f).Covers f g.points (findings f g.points) := by
  rw [Grid.points, findings_cons]
  unfold start findingsAt
  dsimp only
  cases hz : f g.lo == 0 with
  | true =>
    simp only [if_true]
    exact ⟨rfl, rfl, rfl, fun hnone => by cases hnone⟩
  | false =>
    simp only [Bool.false_eq_true, if_false]
    have hseek := seek_covers (g := g) (f := f) ⟨0, g.lo, f g.lo, g.bounds.lo_finite, none⟩ rfl
    rw [seek_past]
    refine ⟨hseek.value, ?_, hseek.found, hseek.done⟩
    rw [List.append_assoc, ← hseek.points]
    rfl

end Cursor

/-! ## Whole passes -/

namespace Grid

theorem scanFrom_of_none {leg : Leg g} (h : leg.cursor.current = none) :
    scanFrom f leg [] = ⟨[], leg.visited⟩ := by
  rw [scanFrom]
  split
  · rfl
  · rename_i h'
    cases h.symm.trans h'

theorem scanFrom_of_some {leg : Leg g} {bracket : Bracket}
    (h : leg.cursor.current = some bracket) :
    scanFrom f leg [] =
      ⟨(leg.visited, bracket) :: (scanFrom f (leg.cursor.advance f) []).found,
        (scanFrom f (leg.cursor.advance f) []).tail⟩ := by
  rw [scanFrom]
  split
  · rename_i h'
    cases h.symm.trans h'
  · rename_i h'
    cases h.symm.trans h'
    rw [scanFrom_past]
    rfl

/-- A pass ends with the first leg that finds no bracket. -/
theorem scanFrom_induction {motive : Leg g → Pass → Prop}
    (last : ∀ leg : Leg g, leg.cursor.current = none → motive leg ⟨[], leg.visited⟩)
    (next : ∀ (leg : Leg g) (bracket : Bracket) (pass : Pass),
      leg.cursor.current = some bracket → motive (leg.cursor.advance f) pass →
      motive leg ⟨(leg.visited, bracket) :: pass.found, pass.tail⟩)
    (leg : Leg g) : motive leg (scanFrom f leg []) := by
  induction hn : leg.cursor.rank using Nat.strong_induction_on generalizing leg with
  | h n ih =>
    cases h : leg.cursor.current with
    | none =>
      rw [scanFrom_of_none h]
      exact last leg h
    | some bracket =>
      have hsome : leg.cursor.current.isSome = true := by rw [h]; rfl
      rw [scanFrom_of_some h]
      exact next leg bracket _ h (ih _ (hn ▸ Cursor.rank_advance_lt hsome f) _ rfl)

theorem scanFrom_covers {leg : Leg g} {xs : List Float} {found : List Interval}
    (hleg : leg.Covers f xs found) :
    (scanFrom f leg []).visited = xs ∧
      (scanFrom f leg []).brackets.map Bracket.toInterval = found := by
  refine scanFrom_induction (f := f) (motive := fun leg pass => ∀ xs found, leg.Covers f xs found →
    pass.visited = xs ∧ pass.brackets.map Bracket.toInterval = found) ?_ ?_ leg xs found hleg
  · intro leg h xs found hleg
    rw [hleg.points, hleg.found, hleg.done h, h]
    simp [Pass.visited, Pass.brackets]
  · intro leg bracket pass h ih xs found hleg
    obtain ⟨hvisited, hfound⟩ := ih _ _ (leg.cursor.seek_covers hleg.value)
    rw [hleg.points, hleg.found, h, ← hfound, ← hvisited]
    simp [Pass.visited, Pass.brackets]

theorem scan_visited (g : Grid) (f : Float → Float) : (g.scan f).visited = g.points :=
  (scanFrom_covers (Cursor.start_covers g f)).1

theorem collect_eq_findings (g : Grid) (f : Float → Float) :
    (g.collect f).map Bracket.toInterval = findings f g.points :=
  (scanFrom_covers (Cursor.start_covers g f)).2

end Grid

/-! ## Dependence on the function -/

section

variable {h : Float → Float}

namespace Cursor

theorem step_congr {c : Cursor g} (hlt : c.x < g.hi)
    (hfh : f (c.step f hlt).x = h (c.step f hlt).x) : c.step h hlt = c.step f hlt := by
  have hb : f (g.next (c.windows + 1) c.x) = h (g.next (c.windows + 1) c.x) := hfh
  unfold step
  simp only [hb]

theorem seek_congr (c : Cursor g) (hfh : ∀ x ∈ c.ahead, f x = h x) : seek h c [] = seek f c [] := by
  refine seek_induction (f := f)
    (motive := fun c leg => (∀ x ∈ c.ahead, f x = h x) → seek h c [] = leg) ?_ ?_ ?_ c hfh
  · intro c hlt hfound hfh
    rw [c.ahead_eq_cons f hlt] at hfh
    have hstep := step_congr hlt (hfh _ List.mem_cons_self)
    rw [seek_of_found hlt (hstep ▸ hfound), hstep]
  · intro c hlt leg hnone ih hfh
    rw [c.ahead_eq_cons f hlt] at hfh
    have hstep := step_congr hlt (hfh _ List.mem_cons_self)
    rw [seek_of_none hlt (hstep ▸ hnone), hstep, ih fun x hx => hfh x (List.mem_cons_of_mem _ hx)]
  · intro c hlt _
    exact seek_of_end hlt

theorem start_congr (hfh : ∀ x ∈ g.points, f x = h x) : start g h = start g f := by
  have hlo : f g.lo = h g.lo := hfh g.lo List.mem_cons_self
  have hseek := seek_congr (f := f) (h := h) ⟨0, g.lo, f g.lo, g.bounds.lo_finite, none⟩
    fun x hx => hfh x (List.mem_cons_of_mem _ hx)
  unfold start
  dsimp only
  rw [seek_past h, seek_past f, ← hlo, hseek]

end Cursor

namespace Grid

theorem scanFrom_congr {leg : Leg g} {xs : List Float} {found : List Interval}
    (hleg : leg.Covers f xs found) (hfh : ∀ x ∈ xs, f x = h x) :
    scanFrom h leg [] = scanFrom f leg [] := by
  refine scanFrom_induction (f := f) (motive := fun leg pass => ∀ xs found,
    leg.Covers f xs found → (∀ x ∈ xs, f x = h x) → scanFrom h leg [] = pass) ?_ ?_ leg xs found
    hleg hfh
  · intro leg hnone xs found _ _
    exact scanFrom_of_none hnone
  · intro leg bracket pass hsome ih xs found hleg hfh
    have hahead : ∀ x ∈ leg.cursor.ahead, f x = h x := fun x hx =>
      hfh x (hleg.points ▸ List.mem_append_right _ hx)
    have hnext : leg.cursor.advance h = leg.cursor.advance f := Cursor.seek_congr _ hahead
    rw [scanFrom_of_some hsome, hnext, ih _ _ (leg.cursor.seek_covers hleg.value) hahead]

/-- A pass depends on the function at the boundaries only. -/
theorem scan_congr (g : Grid) (hfh : ∀ x ∈ g.points, f x = h x) : g.scan h = g.scan f := by
  rw [scan, Cursor.start_congr hfh]
  exact scanFrom_congr (Cursor.start_covers g f) hfh

end Grid

end

end ZeroSearch
