import Mathlib
import ZeroSearch.Proofs.Scan

/-!
# What a pass finds

`Grid.collect` gives the findings of the boundaries, and what follows from them. Findings are in
order and touch only where one window with a sign change follows another. A zero on a boundary is
found once, and nothing else that is found contains it.
-/

namespace ZeroSearch

open Binary64

variable {f : Float → Float} {a b x : Float} {xs : List Float} {i : Interval}

/-! ## One window -/

theorem findingsAt_cases (f : Float → Float) (a : Float) :
    (f a == 0) = true ∧ findingsAt f a = [⟨a, a⟩] ∨
      (f a == 0) = false ∧ findingsAt f a = [] := by
  unfold findingsAt
  cases hz : f a == 0 with
  | true => exact .inl ⟨rfl, rfl⟩
  | false => exact .inr ⟨rfl, rfl⟩

theorem findingsBetween_cases (f : Float → Float) (a b : Float) :
    (f b == 0) = true ∧ findingsBetween f a b = [⟨b, b⟩] ∨
      (f a == 0) = false ∧ (f b == 0) = false ∧ findingsBetween f a b = [⟨a, b⟩] ∨
      (f b == 0) = false ∧ findingsBetween f a b = [] := by
  unfold findingsBetween
  cases hb : f b == 0 with
  | true => exact .inl ⟨rfl, rfl⟩
  | false =>
    rw [if_neg Bool.false_ne_true]
    by_cases h : (f a != 0 && f b != 0 && oppositeSigns (f a) (f b)) = true
    · rw [if_pos h]
      rw [Bool.and_eq_true, Bool.and_eq_true, bne, Bool.not_eq_true'] at h
      exact .inr (.inl ⟨h.1.1, rfl, rfl⟩)
    · rw [if_neg h]
      exact .inr (.inr ⟨rfl, rfl⟩)

theorem not_contains_of_lt_lo (h : x < i.lo) : i.contains x = false := by
  refine Bool.eq_false_iff.2 fun hx => ?_
  exact Binary64.not_le_of_lt h (Interval.contains_eq_true.1 hx).1

/-! ## Order -/

/-- Past a zero, and where they are zeros themselves, findings leave the boundary before them
behind. -/
theorem le_of_mem_findingsAlong (hxs : (a :: xs).Pairwise (· < ·))
    (hi : i ∈ findingsAlong f (a :: xs)) :
    a ≤ i.lo ∧ ((f a == 0) = true ∨ (i.lo == i.hi) = true → a < i.lo) := by
  induction xs generalizing a with
  | nil => cases hi
  | cons b xs ih =>
    obtain ⟨hlt, hxs⟩ := List.pairwise_cons.1 hxs
    have hab : a < b := hlt b List.mem_cons_self
    have na := (not_isNaN_of_lt hab).1
    rw [findingsAlong_cons_cons, List.mem_append] at hi
    obtain hi | hi := hi
    · obtain ⟨-, hbetween⟩ | ⟨ha₀, -, hbetween⟩ | ⟨-, hbetween⟩ := findingsBetween_cases f a b
      · rw [hbetween, List.mem_singleton] at hi
        subst hi
        exact ⟨Binary64.le_of_lt hab, fun _ => hab⟩
      · rw [hbetween, List.mem_singleton] at hi
        subst hi
        refine ⟨le_self na, fun h => ?_⟩
        rw [ha₀, not_beq_of_lt hab] at h
        simp at h
      · rw [hbetween] at hi
        cases hi
    · have hlo := Binary64.lt_of_lt_of_le hab (ih hxs hi).1
      exact ⟨Binary64.le_of_lt hlo, fun _ => hlo⟩

/-- `q` comes after `p`. They share an end only if neither is a single point. -/
def Follows (p q : Interval) : Prop :=
  p.hi ≤ q.lo ∧ ((p.hi == q.lo) = true → (p.lo == p.hi) = false ∧ (q.lo == q.hi) = false)

theorem follows_findingsAlong (hxs : (b :: xs).Pairwise (· < ·))
    (ha : (f b == 0) = false → (a == b) = false)
    {q : Interval} (hq : q ∈ (findingsAlong f (b :: xs)).head?) : Follows ⟨a, b⟩ q := by
  obtain ⟨hle, hlt⟩ := le_of_mem_findingsAlong hxs (List.mem_of_mem_head? hq)
  refine ⟨hle, fun heq => ?_⟩
  have hnot : ¬ b < q.lo := fun h => by
    rw [not_beq_of_lt h] at heq
    cases heq
  constructor
  · exact ha (Bool.eq_false_iff.2 fun hz => hnot (hlt (.inl hz)))
  · exact Bool.eq_false_iff.2 fun hd => hnot (hlt (.inr hd))

theorem isChain_findingsAlong (hxs : (a :: xs).Pairwise (· < ·)) :
    (findingsAlong f (a :: xs)).IsChain Follows := by
  induction xs generalizing a with
  | nil => exact .nil
  | cons b xs ih =>
    obtain ⟨hlt, hxs⟩ := List.pairwise_cons.1 hxs
    have hab : a < b := hlt b List.mem_cons_self
    rw [findingsAlong_cons_cons]
    obtain ⟨hz, hbetween⟩ | ⟨-, -, hbetween⟩ | ⟨-, hbetween⟩ := findingsBetween_cases f a b
    · rw [hbetween, List.singleton_append, List.isChain_cons]
      refine ⟨fun q hq => follows_findingsAlong hxs ?_ hq, ih hxs⟩
      intro hne
      rw [hz] at hne
      cases hne
    · rw [hbetween, List.singleton_append, List.isChain_cons]
      refine ⟨fun q hq => follows_findingsAlong hxs ?_ hq, ih hxs⟩
      exact fun _ => not_beq_of_lt hab
    · rw [hbetween, List.nil_append]
      exact ih hxs

theorem isChain_findings (hxs : (a :: xs).Pairwise (· < ·)) :
    (findings f (a :: xs)).IsChain Follows := by
  rw [findings_cons]
  obtain ⟨hz, hat⟩ | ⟨-, hat⟩ := findingsAt_cases f a
  · rw [hat, List.singleton_append, List.isChain_cons]
    refine ⟨fun q hq => follows_findingsAlong hxs ?_ hq, isChain_findingsAlong hxs⟩
    intro hne
    rw [hz] at hne
    cases hne
  · rw [hat, List.nil_append]
    exact isChain_findingsAlong hxs

/-! ## Zeros -/

theorem filter_singleton_of_contains (h : i.contains x = true) :
    [i].filter (·.contains x) = [i] := List.filter_cons_of_pos h

theorem filter_singleton_of_hi_lt (h : i.hi < x) : [i].filter (·.contains x) = [] := by
  refine List.filter_cons_of_neg fun hx => ?_
  exact Binary64.not_le_of_lt h (Interval.contains_eq_true.1 hx).2

theorem filter_findingsAlong_nil (hxs : (a :: xs).Pairwise (· < ·)) (ha : (f a == 0) = true) :
    (findingsAlong f (a :: xs)).filter (·.contains a) = [] := by
  refine List.filter_eq_nil_iff.2 fun i hi => ?_
  rw [not_contains_of_lt_lo ((le_of_mem_findingsAlong hxs hi).2 (.inl ha))]
  exact Bool.false_ne_true

theorem filter_findingsBetween (hbx : b < x) :
    (findingsBetween f a b).filter (·.contains x) = [] := by
  obtain ⟨-, hbetween⟩ | ⟨-, -, hbetween⟩ | ⟨-, hbetween⟩ := findingsBetween_cases f a b
  · rw [hbetween]
    exact filter_singleton_of_hi_lt (i := ⟨b, b⟩) hbx
  · rw [hbetween]
    exact filter_singleton_of_hi_lt (i := ⟨a, b⟩) hbx
  · rw [hbetween, List.filter_nil]

theorem contains_self (ha : a.isNaN = false) : Interval.contains ⟨a, a⟩ a = true :=
  Interval.contains_eq_true.2 ⟨le_self ha, le_self ha⟩

theorem filter_findingsAlong (hxs : (a :: xs).Pairwise (· < ·)) (hx : x ∈ xs)
    (hz : (f x == 0) = true) : (findingsAlong f (a :: xs)).filter (·.contains x) = [⟨x, x⟩] := by
  induction xs generalizing a with
  | nil => cases hx
  | cons b xs ih =>
    obtain ⟨hlt, hxs⟩ := List.pairwise_cons.1 hxs
    have hab : a < b := hlt b List.mem_cons_self
    rw [findingsAlong_cons_cons, List.filter_append]
    obtain rfl | hx := List.mem_cons.1 hx
    · have hbetween : findingsBetween f a x = [⟨x, x⟩] := by rw [findingsBetween, if_pos hz]
      rw [hbetween, filter_singleton_of_contains (contains_self (not_isNaN_of_lt hab).2),
        filter_findingsAlong_nil hxs hz, List.append_nil]
    · have hbx : b < x := (List.pairwise_cons.1 hxs).1 x hx
      rw [filter_findingsBetween hbx, List.nil_append]
      exact ih hxs hx

theorem filter_findings (hxs : (a :: xs).Pairwise (· < ·)) (ha : a.isNaN = false)
    (hx : x ∈ a :: xs) (hz : (f x == 0) = true) :
    (findings f (a :: xs)).filter (·.contains x) = [⟨x, x⟩] := by
  rw [findings_cons, List.filter_append]
  obtain rfl | hx := List.mem_cons.1 hx
  · have hat : findingsAt f x = [⟨x, x⟩] := by rw [findingsAt, if_pos hz]
    rw [hat, filter_singleton_of_contains (contains_self ha), filter_findingsAlong_nil hxs hz,
      List.append_nil]
  · have hax : a < x := (List.pairwise_cons.1 hxs).1 x hx
    rw [filter_findingsAlong hxs hx hz]
    obtain ⟨-, hat⟩ | ⟨-, hat⟩ := findingsAt_cases f a
    · rw [hat, filter_singleton_of_hi_lt (i := ⟨a, a⟩) hax, List.nil_append]
    · rw [hat, List.filter_nil, List.nil_append]

/-! ## Ends -/

/-- A zero of `f`, as a single boundary, or ends that are boundaries and not zeros. -/
def EndsIn (f : Float → Float) (xs : List Float) (i : Interval) : Prop :=
  i.lo ∈ xs ∧ i.hi ∈ xs ∧ (i.lo = i.hi ∨ (f i.lo == 0) = false ∧ (f i.hi == 0) = false)

theorem EndsIn.cons (h : EndsIn f xs i) (a : Float) : EndsIn f (a :: xs) i :=
  ⟨List.mem_cons_of_mem a h.1, List.mem_cons_of_mem a h.2.1, h.2.2⟩

theorem endsIn_of_mem_findingsAlong (hi : i ∈ findingsAlong f (a :: xs)) :
    EndsIn f (a :: xs) i := by
  induction xs generalizing a with
  | nil => cases hi
  | cons b xs ih =>
    rw [findingsAlong_cons_cons, List.mem_append] at hi
    obtain hi | hi := hi
    · obtain ⟨-, hbetween⟩ | ⟨ha, hb, hbetween⟩ | ⟨-, hbetween⟩ := findingsBetween_cases f a b
      · rw [hbetween, List.mem_singleton] at hi
        subst hi
        exact ⟨by simp, by simp, .inl rfl⟩
      · rw [hbetween, List.mem_singleton] at hi
        subst hi
        exact ⟨by simp, by simp, .inr ⟨ha, hb⟩⟩
      · rw [hbetween] at hi
        cases hi
    · exact (ih hi).cons a

theorem endsIn_of_mem_findings (hi : i ∈ findings f (a :: xs)) : EndsIn f (a :: xs) i := by
  rw [findings_cons, List.mem_append] at hi
  obtain hi | hi := hi
  · obtain ⟨-, hat⟩ | ⟨-, hat⟩ := findingsAt_cases f a
    · rw [hat, List.mem_singleton] at hi
      subst hi
      exact ⟨List.mem_cons_self, List.mem_cons_self, .inl rfl⟩
    · rw [hat] at hi
      cases hi
  · exact endsIn_of_mem_findingsAlong hi

/-- A finding is a single point or spans two boundaries that follow each other. -/
theorem related_of_mem_findings {R : Float → Float → Prop} (hxs : (a :: xs).IsChain R)
    (hi : i ∈ findings f (a :: xs)) : i.lo = i.hi ∨ R i.lo i.hi := by
  rw [findings_cons, List.mem_append] at hi
  rcases hi with hi | hi
  · rcases findingsAt_cases f a with ⟨-, hat⟩ | ⟨-, hat⟩
    · rw [hat, List.mem_singleton] at hi
      exact .inl (by rw [hi])
    · rw [hat] at hi
      cases hi
  · induction xs generalizing a with
    | nil => cases hi
    | cons b xs ih =>
      obtain ⟨hab, hxs⟩ := List.isChain_cons_cons.1 hxs
      rw [findingsAlong_cons_cons, List.mem_append] at hi
      rcases hi with hi | hi
      · rcases findingsBetween_cases f a b with ⟨-, hbetween⟩ | ⟨-, -, hbetween⟩ | ⟨-, hbetween⟩
        · rw [hbetween, List.mem_singleton] at hi
          exact .inl (by rw [hi])
        · rw [hbetween, List.mem_singleton] at hi
          exact .inr (by rwa [hi])
        · rw [hbetween] at hi
          cases hi
      · exact ih hxs hi

/-! ## Passes -/

/-- A pass finds exactly what its boundaries show, in order and each once. Brackets that follow each
other share an end only if neither is degenerate; a zero at a boundary makes one bracket, and no
other contains it; and no bracket of a sign change has a zero at an end. -/
theorem Grid.collect_exact (g : Grid) (f : Float → Float) :
    (g.collect f).map Bracket.toInterval = findings f (g.scan f).visited ∧
      ((g.collect f).IsChain fun p q => p.hi ≤ q.lo ∧
        ((p.hi == q.lo) = true → p.isDegenerate = false ∧ q.isDegenerate = false)) ∧
      (∀ x ∈ (g.scan f).visited, (f x == 0) = true →
        ((g.collect f).filter (·.contains x)).map Bracket.toInterval = [⟨x, x⟩]) ∧
      ∀ b ∈ g.collect f, b.isDegenerate = false →
        (f b.lo == 0) = false ∧ (f b.hi == 0) = false := by
  have hfind := g.collect_eq_findings f
  rw [g.scan_visited f]
  refine ⟨hfind, ?_, fun x hx hz => ?_, fun b hb hne => ?_⟩
  · have hchain : (findings f g.points).IsChain Follows := isChain_findings g.pairwise_points
    rw [← hfind, List.isChain_map] at hchain
    exact hchain
  · have hfilter : (findings f g.points).filter (·.contains x) = [⟨x, x⟩] :=
      filter_findings g.pairwise_points (not_isNaN_of_isFinite g.bounds.lo_finite) hx hz
    rw [← hfind, List.filter_map] at hfilter
    exact hfilter
  · have hmem : b.toInterval ∈ findings f g.points := hfind ▸ List.mem_map_of_mem hb
    obtain ⟨-, -, heq | hends⟩ := endsIn_of_mem_findings hmem
    · unfold Bracket.isDegenerate at hne
      rw [heq, beq_self (not_isNaN_of_isFinite b.hi_finite)] at hne
      cases hne
    · exact hends

/-- `x + 1` is zero at the lower bound; `x + 0.5` changes its sign in the window. -/
theorem Grid.collect_exact_unitBelowZero :
    (-1 ∈ (unitBelowZero.scan (· + 1)).visited ∧
      ((unitBelowZero.collect (· + 1)).filter (·.contains (-1))).map Bracket.toInterval =
        [⟨-1, -1⟩]) ∧
    ∃ b ∈ unitBelowZero.collect (· + 0.5), b.toInterval = ⟨-1, 0.0⟩ ∧
      (b.lo + 0.5 == 0) = false ∧ (b.hi + 0.5 == 0) = false := by
  have hvisited (f : Float → Float) : (unitBelowZero.scan f).visited = [-1, 0.0] :=
    (scan_visited _ f).trans points_unitBelowZero
  constructor
  · have hmem : -1 ∈ (unitBelowZero.scan (· + 1)).visited := by
      rw [hvisited]
      exact List.mem_cons_self
    exact ⟨hmem, (collect_exact unitBelowZero (· + 1)).2.2.1 (-1) hmem (by decide +kernel)⟩
  · obtain ⟨hfind, -, -, hends⟩ := collect_exact unitBelowZero (· + 0.5)
    rw [hvisited] at hfind
    have hmem : ⟨-1, 0.0⟩ ∈ (unitBelowZero.collect (· + 0.5)).map Bracket.toInterval := by
      have hbetween : findingsBetween (· + 0.5) (-1) 0.0 = [⟨-1, 0.0⟩] := by
        rw [findingsBetween, if_neg (by decide +kernel), if_pos (by decide +kernel)]
      rw [hfind, findings_cons, findingsAlong_cons_cons, hbetween]
      simp
    obtain ⟨b, hb, hi⟩ := List.mem_map.1 hmem
    refine ⟨b, hb, hi, hends b hb ?_⟩
    rw [Bracket.isDegenerate, hi]
    decide +kernel

end ZeroSearch
