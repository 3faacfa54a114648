import Mathlib
import ZeroSearch.Proofs.Boundaries
import ZeroSearch.Proofs.Entries

/-!
# Sign changes between boundaries

The intermediate value theorem of a grid: where the values at two boundaries have opposite signs and
none of those between is NaN, a pass finds something between them. A zero takes the sign change up
and is found itself; where there is no zero, every window whose ends have opposite signs is found, so
the number of findings tells whether the signs at the two boundaries are opposite. Infinities have a
sign like all the others.

The findings between two boundaries of a pass are those of the boundaries from the one to the other
(`filter_findings_within`), so the theorem is about one list (`odd_length_findingsAlong`,
`findingsAlong_ne_nil`).
-/

namespace ZeroSearch

open Binary64

variable {f : Float → Float} {a b c : Float} {xs ys : List Float} {i : Interval}

/-! ## Signs -/

theorem not_oppositeSigns_self (a : Float) : oppositeSigns a a = false := by
  rw [← Bool.not_eq_true, oppositeSigns_iff_ordinal]
  omega

theorem ordinal_ne_zero_of_not_isNaN (ha : a.isNaN = false) (hz : (a == 0) = false) :
    ordinal a ≠ 0 := by
  rw [Ne, ← beq_zero_iff_ordinal ha, hz]
  exact Bool.false_ne_true

theorem not_beq_zero_of_ordinal (h : ordinal a ≠ 0) : (a == 0) = false :=
  Bool.eq_false_iff.2 fun hz => h (ordinal_eq_of_beq hz)

theorem ordinal_ne_zero_of_oppositeSigns (h : oppositeSigns a b = true) :
    ordinal a ≠ 0 ∧ ordinal b ≠ 0 := by
  rw [oppositeSigns_iff_ordinal] at h
  omega

/-- Of the steps from `a` to `c` by way of `b` one changes the sign or both do, or none. -/
theorem oppositeSigns_iff_by_way_of (ha : ordinal a ≠ 0) (hb : ordinal b ≠ 0) (hc : ordinal c ≠ 0) :
    oppositeSigns a c = true ↔ ¬ (oppositeSigns a b = true ↔ oppositeSigns b c = true) := by
  simp only [oppositeSigns_iff_ordinal]
  omega

/-! ## One list of boundaries -/

theorem findingsBetween_of_ne_zero (ha : ordinal (f a) ≠ 0) (hb : ordinal (f b) ≠ 0) :
    findingsBetween f a b = if oppositeSigns (f a) (f b) then [⟨a, b⟩] else [] := by
  unfold findingsBetween
  rw [not_beq_zero_of_ordinal hb, bne, not_beq_zero_of_ordinal ha, bne, not_beq_zero_of_ordinal hb]
  simp only [Bool.false_eq_true, if_false, Bool.not_false, Bool.true_and]

theorem odd_length_findingsBetween (ha : ordinal (f a) ≠ 0) (hb : ordinal (f b) ≠ 0) :
    Odd (findingsBetween f a b).length ↔ oppositeSigns (f a) (f b) = true := by
  rw [findingsBetween_of_ne_zero ha hb]
  cases oppositeSigns (f a) (f b) <;> simp

/-- Where no value is NaN or zero, the findings count the changes of sign. -/
theorem odd_length_findingsAlong (hxs : ∀ x ∈ a :: xs, ordinal (f x) ≠ 0)
    (hb : b ∈ (a :: xs).getLast?) :
    Odd (findingsAlong f (a :: xs)).length ↔ oppositeSigns (f a) (f b) = true := by
  induction xs generalizing a with
  | nil =>
    obtain rfl : a = b := Option.some_inj.1 hb
    rw [findingsAlong_singleton, not_oppositeSigns_self]
    simp
  | cons c xs ih =>
    rw [List.getLast?_cons_cons] at hb
    obtain ⟨ha, hxs⟩ := List.forall_mem_cons.1 hxs
    have hc := hxs c List.mem_cons_self
    rw [findingsAlong_cons_cons, List.length_append, Nat.odd_add, ← Nat.not_odd_iff_even,
      odd_length_findingsBetween ha hc, ih hxs hb,
      oppositeSigns_iff_by_way_of ha hc (hxs b (List.mem_of_getLast? hb))]
    tauto

/-- A zero on the way is found itself, and the window that changes the sign is found if there is no
zero. -/
theorem findingsAlong_ne_nil (hxs : ∀ x ∈ a :: xs, (f x).isNaN = false)
    (hb : b ∈ (a :: xs).getLast?) (hsign : oppositeSigns (f a) (f b) = true) :
    findingsAlong f (a :: xs) ≠ [] := by
  induction xs generalizing a with
  | nil =>
    obtain rfl : a = b := Option.some_inj.1 hb
    rw [not_oppositeSigns_self] at hsign
    cases hsign
  | cons c xs ih =>
    rw [List.getLast?_cons_cons] at hb
    have hxs := (List.forall_mem_cons.1 hxs).2
    rw [findingsAlong_cons_cons, Ne, List.append_eq_nil_iff, not_and_or]
    cases hz : f c == 0 with
    | true =>
      left
      rw [findingsBetween, if_pos hz]
      exact List.cons_ne_nil _ _
    | false =>
      obtain ⟨ha, hb'⟩ := ordinal_ne_zero_of_oppositeSigns hsign
      have hc := ordinal_ne_zero_of_not_isNaN (hxs c List.mem_cons_self) hz
      by_cases hac : oppositeSigns (f a) (f c) = true
      · left
        rw [findingsBetween_of_ne_zero ha hc, if_pos hac]
        exact List.cons_ne_nil _ _
      · right
        refine ih hxs hb ?_
        rw [oppositeSigns_iff_by_way_of ha hc hb'] at hsign
        tauto

/-! ## Part of a list -/

theorem findingsAlong_append (f : Float → Float) (xs : List Float) (a : Float) (ys : List Float) :
    findingsAlong f (xs ++ a :: ys) = findingsAlong f (xs ++ [a]) ++ findingsAlong f (a :: ys) := by
  induction xs with
  | nil => simp
  | cons x xs ih =>
    cases xs with
    | nil => simp
    | cons y xs =>
      simp only [List.cons_append, findingsAlong_cons_cons, List.append_assoc] at ih ⊢
      rw [ih]

theorem findings_append (f : Float → Float) (xs : List Float) (a : Float) (ys : List Float) :
    findings f (xs ++ a :: ys) = findings f (xs ++ [a]) ++ findingsAlong f (a :: ys) := by
  unfold findings
  rw [findingsAlong_append, List.append_assoc]
  cases xs <;> rfl

theorem of_mem_findings (hxs : xs.Pairwise (· < ·)) (hi : i ∈ findings f xs) :
    EndsIn f xs i ∧ i.Marked f := by
  cases xs with
  | nil => cases hi
  | cons a xs =>
    refine ⟨endsIn_of_mem_findings hi, ?_⟩
    rw [findings_cons, List.mem_append] at hi
    obtain hi | hi := hi
    · exact marked_of_mem_findingsAt hi
    · exact marked_of_mem_findingsAlong hxs hi

theorem le_of_mem_concat (hxs : (xs ++ [b]).Pairwise (· < ·)) (hb : b.isNaN = false)
    (hx : c ∈ xs ++ [b]) : c ≤ b := by
  obtain hx | hx := List.mem_append.1 hx
  · exact Binary64.le_of_lt ((List.pairwise_append.1 hxs).2.2 c hx b List.mem_cons_self)
  · rw [List.mem_singleton.1 hx]
    exact le_self hb

/-- What is found up to a boundary that is not a zero begins before it. -/
theorem lo_lt_of_mem_findings (hxs : (xs ++ [a]).Pairwise (· < ·)) (ha : a.isNaN = false)
    (hz : (f a == 0) = false) (hi : i ∈ findings f (xs ++ [a])) : i.lo < a := by
  obtain ⟨⟨hlo, hhi, -⟩, ⟨-, hzero⟩ | ⟨hlt, -⟩⟩ := of_mem_findings hxs hi
  · obtain hlo | hlo := List.mem_append.1 hlo
    · exact (List.pairwise_append.1 hxs).2.2 _ hlo a List.mem_cons_self
    · rw [List.mem_singleton.1 hlo, hz] at hzero
      cases hzero
  · exact Binary64.lt_of_lt_of_le hlt (le_of_mem_concat hxs ha hhi)

/-- What is found after a boundary ends after it. -/
theorem lt_hi_of_mem_findingsAlong (hxs : (b :: xs).Pairwise (· < ·))
    (hi : i ∈ findingsAlong f (b :: xs)) : b < i.hi := by
  obtain ⟨hle, hlt⟩ := le_of_mem_findingsAlong hxs hi
  obtain ⟨heq, -⟩ | ⟨hne, -⟩ := marked_of_mem_findingsAlong hxs hi
  · rw [← heq] at hlt ⊢
    exact hlt (.inr (beq_self (not_isNaN_of_le hle).2))
  · exact Binary64.lt_of_le_of_lt hle hne

instance (i j : Interval) : Decidable (i.Within j) :=
  decidable_of_iff (j.lo ≤ i.lo ∧ i.hi ≤ j.hi) ⟨fun h => ⟨h.1, h.2⟩, fun h => ⟨h.lo, h.hi⟩⟩

/-- What lies between the boundaries `a` and `b` is what they and those between them show. -/
theorem filter_findings_within {mid : List Float}
    (hxs : (xs ++ a :: (mid ++ b :: ys)).Pairwise (· < ·)) (hz : (f a == 0) = false) :
    (findings f (xs ++ a :: (mid ++ b :: ys))).filter (fun i => i.Within ⟨a, b⟩) =
      findingsAlong f (a :: (mid ++ [b])) := by
  obtain ⟨-, hrest, -⟩ := List.pairwise_append.1 hxs
  have hab : a < b := (List.pairwise_cons.1 hrest).1 b (by simp)
  obtain ⟨na, nb⟩ := not_isNaN_of_lt hab
  have hfirst : (xs ++ [a]).Pairwise (· < ·) := hxs.sublist (by simp)
  have hmid : (a :: mid ++ [b]).Pairwise (· < ·) := hxs.sublist (by simp)
  have hlast : (b :: ys).Pairwise (· < ·) :=
    (List.pairwise_append.1 (List.pairwise_cons.1 hrest).2).2.1
  have hsplit : findingsAlong f (a :: (mid ++ b :: ys)) =
      findingsAlong f (a :: (mid ++ [b])) ++ findingsAlong f (b :: ys) :=
    findingsAlong_append f (a :: mid) b ys
  rw [findings_append, hsplit, List.filter_append, List.filter_append]
  have hbefore : (findings f (xs ++ [a])).filter (fun i => i.Within ⟨a, b⟩) = [] := by
    refine List.filter_eq_nil_iff.2 fun i hi hin => ?_
    have hlo := (of_decide_eq_true hin).lo
    exact Binary64.not_le_of_lt (lo_lt_of_mem_findings hfirst na hz hi) hlo
  have hafter : (findingsAlong f (b :: ys)).filter (fun i => i.Within ⟨a, b⟩) = [] := by
    refine List.filter_eq_nil_iff.2 fun i hi hin => ?_
    have hhi := (of_decide_eq_true hin).hi
    exact Binary64.not_le_of_lt (lt_hi_of_mem_findingsAlong hlast hi) hhi
  have hbetween : (findingsAlong f (a :: (mid ++ [b]))).filter (fun i => i.Within ⟨a, b⟩) =
      findingsAlong f (a :: (mid ++ [b])) := by
    refine List.filter_eq_self.2 fun i hi => decide_eq_true ⟨?_, ?_⟩
    · exact (le_of_mem_findingsAlong hmid hi).1
    · exact le_of_mem_concat hmid nb (endsIn_of_mem_findingsAlong hi).2.1
  rw [hbefore, hbetween, hafter, List.nil_append, List.append_nil]

/-! ## Passes -/

namespace Grid

variable {g : Grid}

theorem visited_pairwise (g : Grid) (f : Float → Float) :
    (g.scan f).visited.Pairwise (· < ·) := by
  rw [scan_visited]
  exact g.pairwise_points

/-- The boundaries before, between and after two of them. -/
theorem exists_visited_eq (ha : a ∈ (g.scan f).visited) (hb : b ∈ (g.scan f).visited)
    (hab : a < b) : ∃ xs mid ys, (g.scan f).visited = xs ++ a :: (mid ++ b :: ys) := by
  have hxs := g.visited_pairwise f
  obtain ⟨xs, rest, hsplit⟩ := List.append_of_mem ha
  rw [hsplit] at hxs hb
  obtain ⟨-, -, hbefore⟩ := List.pairwise_append.1 hxs
  obtain hb | hb := List.mem_append.1 hb
  · have hba := hbefore b hb a List.mem_cons_self
    exact absurd (Binary64.le_of_lt hba) (Binary64.not_le_of_lt hab)
  · obtain rfl | hb := List.mem_cons.1 hb
    · exact absurd (le_self (not_isNaN_of_lt hab).1) (Binary64.not_le_of_lt hab)
    · obtain ⟨mid, ys, rfl⟩ := List.append_of_mem hb
      exact ⟨xs, mid, ys, hsplit⟩

theorem contains_of_mem_between {mid : List Float}
    (hsplit : (g.scan f).visited = xs ++ a :: (mid ++ b :: ys)) (hx : c ∈ a :: (mid ++ [b])) :
    c ∈ (g.scan f).visited ∧ Interval.contains ⟨a, b⟩ c = true := by
  have hxs := g.visited_pairwise f
  have hmem : c ∈ (g.scan f).visited := by
    rw [hsplit]
    simp only [List.mem_cons, List.mem_append, List.not_mem_nil, or_false] at hx ⊢
    tauto
  rw [hsplit] at hxs
  have hmid : (a :: mid ++ [b]).Pairwise (· < ·) := hxs.sublist (by simp)
  have hab : a < b := (List.pairwise_cons.1 hmid).1 b (by simp)
  refine ⟨hmem, Interval.contains_eq_true.2 ⟨?_, le_of_mem_concat hmid (not_isNaN_of_lt hab).2 hx⟩⟩
  obtain rfl | hx := List.mem_cons.1 hx
  · exact le_self (not_isNaN_of_lt hab).1
  · exact Binary64.le_of_lt ((List.pairwise_cons.1 hmid).1 c hx)

/-- The brackets between two boundaries are counted by what the boundaries show. -/
theorem countP_within {mid : List Float}
    (hsplit : (g.scan f).visited = xs ++ a :: (mid ++ b :: ys)) (hz : (f a == 0) = false) :
    (g.collect f).countP (fun w => w.Within ⟨a, b⟩) =
      (findingsAlong f (a :: (mid ++ [b]))).length := by
  have hxs := g.visited_pairwise f
  rw [hsplit] at hxs
  rw [← filter_findings_within hxs hz, ← hsplit, scan_visited, ← collect_eq_findings,
    ← List.countP_eq_length_filter, List.countP_map]
  rfl

theorem exists_within (ha : a ∈ (g.scan f).visited) (hb : b ∈ (g.scan f).visited) (hab : a < b)
    (hnan : ∀ x ∈ (g.scan f).visited, Interval.contains ⟨a, b⟩ x = true → (f x).isNaN = false)
    (hsign : oppositeSigns (f a) (f b) = true) : ∃ w ∈ g.collect f, w.Within ⟨a, b⟩ := by
  obtain ⟨xs, mid, ys, hsplit⟩ := exists_visited_eq ha hb hab
  have hz := not_beq_zero_of_ordinal (ordinal_ne_zero_of_oppositeSigns hsign).1
  have hne : findingsAlong f (a :: (mid ++ [b])) ≠ [] := by
    refine findingsAlong_ne_nil (fun x hx => ?_) ?_ hsign
    · obtain ⟨hx, hin⟩ := contains_of_mem_between hsplit hx
      exact hnan x hx hin
    · rw [← List.cons_append, List.getLast?_concat]
      rfl
  have hpos := List.length_pos_of_ne_nil hne
  rw [← countP_within hsplit hz, List.countP_pos_iff] at hpos
  obtain ⟨w, hw, hin⟩ := hpos
  exact ⟨w, hw, of_decide_eq_true hin⟩

theorem odd_countP_within (ha : a ∈ (g.scan f).visited) (hb : b ∈ (g.scan f).visited) (hab : a < b)
    (hne : ∀ x ∈ (g.scan f).visited, Interval.contains ⟨a, b⟩ x = true → ordinal (f x) ≠ 0) :
    Odd ((g.collect f).countP fun w => w.Within ⟨a, b⟩) ↔
      oppositeSigns (f a) (f b) = true := by
  obtain ⟨xs, mid, ys, hsplit⟩ := exists_visited_eq ha hb hab
  have hmid : ∀ x ∈ a :: (mid ++ [b]), ordinal (f x) ≠ 0 := fun x hx => by
    obtain ⟨hx, hin⟩ := contains_of_mem_between hsplit hx
    exact hne x hx hin
  rw [countP_within hsplit (not_beq_zero_of_ordinal (hmid a List.mem_cons_self))]
  refine odd_length_findingsAlong hmid ?_
  rw [← List.cons_append, List.getLast?_concat]
  rfl

theorem lt_of_getLast? (hb : b ∈ (g.scan f).visited.getLast?) : g.lo < b := by
  have hlt : g.lo < g.hi := g.bounds.lo_lt_hi
  rw [scan_visited] at hb
  obtain hlast | ⟨hhi, hlast⟩ := g.getLast?_points
  · cases hlast.symm.trans hb
    exact hlt
  · cases hlast.symm.trans hb
    rw [hhi] at hlt
    exact Binary64.lt_of_lt_of_le hlt (by decide)

theorem lo_mem_visited (g : Grid) (f : Float → Float) : g.lo ∈ (g.scan f).visited := by
  rw [scan_visited]
  exact List.mem_cons_self

theorem collect_ne_nil (hnan : ∀ x ∈ (g.scan f).visited, (f x).isNaN = false)
    (hb : b ∈ (g.scan f).visited.getLast?) (hsign : oppositeSigns (f g.lo) (f b) = true) :
    g.collect f ≠ [] := by
  obtain ⟨w, hw, -⟩ := exists_within (g.lo_mem_visited f) (List.mem_of_getLast? hb)
    (lt_of_getLast? hb) (fun x hx _ => hnan x hx) hsign
  exact List.ne_nil_of_mem hw

/-- Opposite signs at two boundaries with no NaN from the one to the other have a bracket between
them, and without a zero as well the number of brackets between them is odd exactly if the signs are
opposite. So a pass with opposite signs at its ends finds something; its last boundary is the upper
bound, unless that is `-0.0`. -/
theorem sign_changes_kept (g : Grid) (f : Float → Float) :
    (∀ a ∈ (g.scan f).visited, ∀ b ∈ (g.scan f).visited, a < b →
      (∀ x ∈ (g.scan f).visited, Interval.contains ⟨a, b⟩ x = true → (f x).isNaN = false) →
        (oppositeSigns (f a) (f b) = true → ∃ w ∈ g.collect f, w.Within ⟨a, b⟩) ∧
        ((∀ x ∈ (g.scan f).visited, Interval.contains ⟨a, b⟩ x = true → (f x == 0) = false) →
          (Odd ((g.collect f).countP fun w => w.Within ⟨a, b⟩) ↔
            oppositeSigns (f a) (f b) = true))) ∧
    ((∀ x ∈ (g.scan f).visited, (f x).isNaN = false) →
      (∀ b ∈ (g.scan f).visited.getLast?, oppositeSigns (f g.lo) (f b) = true →
        g.collect f ≠ []) ∧
      (g.hi ≠ -0.0 → oppositeSigns (f g.lo) (f g.hi) = true → g.collect f ≠ [])) := by
  refine ⟨fun a ha b hb hab hnan => ⟨exists_within ha hb hab hnan, fun hne => ?_⟩, fun hnan => ?_⟩
  · exact odd_countP_within ha hb hab fun x hx hin =>
      ordinal_ne_zero_of_not_isNaN (hnan x hx hin) (hne x hx hin)
  · refine ⟨fun b hb hsign => collect_ne_nil hnan hb hsign, fun hhi hsign => ?_⟩
    refine collect_ne_nil hnan (b := g.hi) ?_ hsign
    rw [scan_visited]
    obtain hlast | ⟨hzero, -⟩ := g.getLast?_points
    · exact hlast
    · exact absurd hzero hhi

/-- `x - 9007199254740996` is zero at the middle boundary and `x - 9007199254740994` at none, and both
change sign from the lower bound to the upper. -/
theorem sign_changes_kept_wideWindows :
    ((∀ x ∈ (wideWindows.scan (· - 9007199254740996)).visited,
        (x - 9007199254740996).isNaN = false) ∧
      ∃ w ∈ wideWindows.collect (· - 9007199254740996),
        w.Within ⟨9007199254740992, 9007199254741000⟩) ∧
    ((∀ x ∈ (wideWindows.scan (· - 9007199254740994)).visited,
        (x - 9007199254740994).isNaN = false ∧ (x - 9007199254740994 == 0) = false) ∧
      Odd ((wideWindows.collect (· - 9007199254740994)).countP
        fun w => w.Within ⟨9007199254740992, 9007199254741000⟩)) ∧
    wideWindows.hi ≠ -0.0 ∧ wideWindows.collect (· - 9007199254740994) ≠ [] := by
  have hvisited (f : Float → Float) : (wideWindows.scan f).visited =
      [9007199254740992, 9007199254740996, 9007199254741000] :=
    (scan_visited _ f).trans points_wideWindows
  have hmem (f : Float → Float) : 9007199254740992 ∈ (wideWindows.scan f).visited ∧
      9007199254741000 ∈ (wideWindows.scan f).visited := by
    rw [hvisited]
    simp
  have hnan : ∀ x ∈ (wideWindows.scan (· - 9007199254740996)).visited,
      (x - 9007199254740996).isNaN = false := by
    rw [hvisited]
    decide +kernel
  have hsigned : ∀ x ∈ (wideWindows.scan (· - 9007199254740994)).visited,
      (x - 9007199254740994).isNaN = false ∧ (x - 9007199254740994 == 0) = false := by
    rw [hvisited]
    decide +kernel
  have hhi : wideWindows.hi ≠ -0.0 := by decide +kernel
  refine ⟨⟨hnan, ?_⟩, ⟨hsigned, ?_⟩, hhi, ?_⟩
  · have hzero := (sign_changes_kept wideWindows (· - 9007199254740996)).1
      _ (hmem _).1 _ (hmem _).2 (by decide +kernel) fun x hx _ => hnan x hx
    exact hzero.1 (by decide +kernel)
  · have hcount := (sign_changes_kept wideWindows (· - 9007199254740994)).1
      _ (hmem _).1 _ (hmem _).2 (by decide +kernel) fun x hx _ => (hsigned x hx).1
    exact (hcount.2 fun x hx _ => (hsigned x hx).2).2 (by decide +kernel)
  · have hends := (sign_changes_kept wideWindows (· - 9007199254740994)).2
      fun x hx => (hsigned x hx).1
    exact hends.2 hhi (by decide +kernel)

/-- `1 / x + 2` is positive at -1 and negative at `-0.0`, the upper bound. The pass ends at `0.0`,
where it is positive, and finds nothing. -/
theorem missed_unitBelowZero :
    let f : Float → Float := fun x => 1 / x + 2
    (∀ x ∈ (unitBelowZero.scan f).visited, (f x).isNaN = false) ∧
      oppositeSigns (f unitBelowZero.lo) (f unitBelowZero.hi) = true ∧
      unitBelowZero.collect f = [] := by
  intro f
  have hvisited : (unitBelowZero.scan f).visited = [-1, 0.0] :=
    (scan_visited _ _).trans points_unitBelowZero
  refine ⟨?_, by decide +kernel, ?_⟩
  · rw [hvisited]
    decide +kernel
  · have hat : findingsAt f (-1) = [] := by rw [findingsAt, if_neg (by decide +kernel)]
    have hbetween : findingsBetween f (-1) 0.0 = [] := by
      rw [findingsBetween, if_neg (by decide +kernel), if_neg (by decide +kernel)]
    have hfind := unitBelowZero.collect_eq_findings f
    rw [points_unitBelowZero, findings_cons, findingsAlong_cons_cons, hat, hbetween] at hfind
    exact List.map_eq_nil_iff.1 hfind

end Grid

end ZeroSearch
