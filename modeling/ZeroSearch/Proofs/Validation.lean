import Mathlib
import ZeroSearch.Proofs.Endings
import ZeroSearch.Proofs.Entries

/-!
# Brackets looked at again

What makes a bracket is asked in three places: when the ends are admitted (`Bracket.ofEnds`), when a
solver opens the bracket (`Enclosure.ofBracket`) and, of the values on a grid, when a scan finds it.
The first two evaluate the same two ends in the same order, ask the same of the values and give the
same faults (`Bracket.ofBracket_eq_ofEnds`). A scan asks less, since it takes an infinite value for a
sign like any other. So what a scan finds is admitted again unless a value at an end is infinite, and
then that is the fault.
-/

namespace ZeroSearch

open Binary64 Float.Model

/-- What admitting the ends of `b` for `g` again says, and what opening `b` for `g` has to do with
it. -/
structure Bracket.Revalidated (b : Bracket) (g : Float → Float) : Prop where
  admitted : (Bracket.ofEnds g b.lo b.hi).result = .ok b ↔
    (g b.lo).isFinite = true ∧ (g b.hi).isFinite = true ∧
      ((g b.lo == 0) = true ∨ (g b.hi == 0) = true ∨ oppositeSigns (g b.lo) (g b.hi) = true)
  same : ∀ c, (Bracket.ofEnds g b.lo b.hi).result = .ok c → c = b
  opened : ∀ e, (Enclosure.ofBracket g b).result = .ok e ↔
    (Bracket.ofEnds g b.lo b.hi).result = .ok b ∧ e = ⟨b.toInterval, g b.lo, g b.hi⟩
  refused : ∀ fault, (Enclosure.ofBracket g b).result = .error fault ↔
    (Bracket.ofEnds g b.lo b.hi).result = .error fault
  fault : ∀ fault, (Bracket.ofEnds g b.lo b.hi).result = .error fault →
    fault.report.iterations = 0 ∧ ∀ (method : Method) (cap : UInt64) (p : Policy),
      (method.solve g b cap p).EndsOnOpening b (.failed fault)
  evaluated : (Bracket.ofEnds g b.lo b.hi).queries = [.value b.lo, .value b.hi] ∧
    (Enclosure.ofBracket g b).queries = [.value b.lo, .value b.hi] ∧
    ∀ (method : Method) (cap : UInt64) (p : Policy),
      [.value b.lo, .value b.hi] <+: (method.solve g b cap p).queries

/-! ## Admitting and opening -/

theorem Enclosure.isNone_endpointRoot (e : Enclosure) :
    e.endpointRoot.isNone = (e.fLo != 0 && e.fHi != 0) := by
  unfold endpointRoot bne
  cases e.fLo == 0 <;> cases e.fHi == 0 <;> rfl

namespace Bracket

variable {f g : Float → Float} {b : Bracket}

theorem valid_ends (b : Bracket) : b.lo.isFinite = true ∧ b.hi.isFinite = true ∧ b.lo ≤ b.hi :=
  ⟨b.lo_finite, b.hi_finite, b.lo_le_hi⟩

theorem queries_ofEnds (g : Float → Float) (b : Bracket) :
    (ofEnds g b.lo b.hi).queries = [.value b.lo, .value b.hi] := by
  rw [ofEnds_of_valid b.valid_ends]

theorem ofEnds_of_not_isFinite (h : ¬ ((g b.lo).isFinite = true ∧ (g b.hi).isFinite = true)) :
    (ofEnds g b.lo b.hi).result =
      .error (.nonFinite 0 (if (g b.lo).isFinite then b.hi else b.lo)) := by
  rw [ofEnds_of_valid b.valid_ends]
  dsimp only
  cases hlo : (g b.lo).isFinite with
  | false => rfl
  | true =>
    cases hhi : (g b.hi).isFinite with
    | false => rfl
    | true => exact absurd ⟨hlo, hhi⟩ h

theorem ofEnds_of_isFinite (hlo : (g b.lo).isFinite = true) (hhi : (g b.hi).isFinite = true) :
    (ofEnds g b.lo b.hi).result =
      if g b.lo != 0 && g b.hi != 0 && !oppositeSigns (g b.lo) (g b.hi) then .error .notABracket
      else .ok b := by
  rw [ofEnds_of_valid b.valid_ends]
  dsimp only
  rw [hlo, hhi]
  rfl

/-- A solver opens a bracket for `g` exactly if its ends are admitted for `g`. -/
theorem ofBracket_eq_ofEnds (g : Float → Float) (b : Bracket) :
    (Enclosure.ofBracket g b).result =
      (ofEnds g b.lo b.hi).result.map fun c => ⟨c.toInterval, g c.lo, g c.hi⟩ := by
  by_cases hfin : (g b.lo).isFinite = true ∧ (g b.hi).isFinite = true
  · rw [Enclosure.ofBracket_of_isFinite hfin.1 hfin.2, ofEnds_of_isFinite hfin.1 hfin.2,
      Enclosure.isNone_endpointRoot]
    dsimp only
    cases g b.lo != 0 && g b.hi != 0 && !oppositeSigns (g b.lo) (g b.hi) <;> rfl
  · rw [Enclosure.ofBracket_of_not_isFinite hfin, ofEnds_of_not_isFinite hfin]
    rfl

theorem ofEnds_eq_ok {c : Bracket} (h : (ofEnds g b.lo b.hi).result = .ok c) : c = b :=
  eq_of_toInterval (toInterval_of_ofEnds h)

theorem ofEnds_eq_ok_iff :
    (ofEnds g b.lo b.hi).result = .ok b ↔ (g b.lo).isFinite = true ∧ (g b.hi).isFinite = true ∧
      ((g b.lo == 0) = true ∨ (g b.hi == 0) = true ∨
        oppositeSigns (g b.lo) (g b.hi) = true) := by
  by_cases hfin : (g b.lo).isFinite = true ∧ (g b.hi).isFinite = true
  · rw [ofEnds_of_isFinite hfin.1 hfin.2]
    unfold bne
    cases g b.lo == 0 <;> cases g b.hi == 0 <;> cases oppositeSigns (g b.lo) (g b.hi) <;>
      simp [hfin]
  · rw [ofEnds_of_not_isFinite hfin]
    exact iff_of_false (fun h => by cases h) fun h => hfin ⟨h.1, h.2.1⟩

theorem iterations_of_ofEnds {fault : Fault} (h : (ofEnds g b.lo b.hi).result = .error fault) :
    fault.report.iterations = 0 := by
  have hopen := ofBracket_eq_ofEnds g b
  rw [h] at hopen
  obtain rfl | rfl | rfl := Enclosure.fault_of_ofBracket hopen <;> rfl

theorem revalidated (b : Bracket) (g : Float → Float) : b.Revalidated g where
  admitted := ofEnds_eq_ok_iff
  same _ h := ofEnds_eq_ok h
  opened e := by
    rw [ofBracket_eq_ofEnds]
    cases h : (ofEnds g b.lo b.hi).result with
    | error fault => simp [Except.map]
    | ok c =>
      obtain rfl := ofEnds_eq_ok h
      simp [Except.map, eq_comm]
  refused fault := by
    rw [ofBracket_eq_ofEnds]
    cases (ofEnds g b.lo b.hi).result <;> simp [Except.map]
  fault fault h := by
    have hopen := ofBracket_eq_ofEnds g b
    rw [h] at hopen
    refine ⟨iterations_of_ofEnds h, fun method cap p => ?_⟩
    rw [method.solve_eq, Rule.solve_of_refused hopen]
    exact (Run.endsOnOpening b _).map _
  evaluated := by
    refine ⟨queries_ofEnds g b, Enclosure.queries_ofBracket g b, fun method cap p => ?_⟩
    rw [method.solve_eq, Run.queries_map, Run.queries, Rule.opening_solve]
    exact List.prefix_append _ _

/-! ## Brackets of a scan -/

/-- What a scan finds is a zero, or its values have signs and so are numbers or infinities. -/
theorem ofEnds_of_marked (hb : b.Marked f) :
    (ofEnds f b.lo b.hi).result =
      if (f b.lo).isInf then .error (.nonFinite 0 b.lo)
      else if (f b.hi).isInf then .error (.nonFinite 0 b.hi)
      else .ok b := by
  obtain ⟨heq, hz⟩ | ⟨-, hsigns⟩ := hb
  · have hlo := isFinite_of_beq_zero hz
    have hhi : (f b.hi).isFinite = true := heq ▸ hlo
    rw [isInf_eq (not_isNaN_of_isFinite hlo), isInf_eq (not_isNaN_of_isFinite hhi), hlo, hhi,
      ofEnds_eq_ok_iff.2 ⟨hlo, hhi, .inl hz⟩]
    rfl
  · have ⟨nlo, nhi⟩ := not_isNaN_of_oppositeSigns hsigns
    rw [isInf_eq nlo, isInf_eq nhi]
    by_cases hfin : (f b.lo).isFinite = true ∧ (f b.hi).isFinite = true
    · rw [ofEnds_eq_ok_iff.2 ⟨hfin.1, hfin.2, .inr (.inr hsigns)⟩, hfin.1, hfin.2]
      rfl
    · rw [ofEnds_of_not_isFinite hfin]
      cases hlo : (f b.lo).isFinite with
      | false => rfl
      | true =>
        cases hhi : (f b.hi).isFinite with
        | false => rfl
        | true => exact absurd ⟨hlo, hhi⟩ hfin

end Bracket

/-- Every bracket is opened for a function if it is admitted for it, with the same values at the
ends, and otherwise refused with the same fault. What a scan of a function finds is admitted for it
unless a value at an end is infinite; then that is the fault. -/
theorem validations_agree (f g : Float → Float) :
    (∀ b : Bracket, b.Revalidated g) ∧
      ∀ (grid : Grid), ∀ b ∈ grid.collect f,
        (Bracket.ofEnds f b.lo b.hi).result =
          if (f b.lo).isInf then .error (.nonFinite 0 b.lo)
          else if (f b.hi).isInf then .error (.nonFinite 0 b.hi)
          else .ok b :=
  ⟨fun b => b.revalidated g,
    fun _ _ hb => Bracket.ofEnds_of_marked (Grid.marked_of_mem_collect hb)⟩

/-- The function `1 / x` changes its sign between -1 and the zero that ends the grid, where it is
infinite; `x + 0.5` does so with finite values. -/
theorem validations_agree_unitBelowZero :
    (∃ b ∈ Grid.unitBelowZero.collect (1 / ·), b.toInterval = ⟨-1, 0.0⟩ ∧
      (Bracket.ofEnds (1 / ·) b.lo b.hi).result = .error (.nonFinite 0 0.0)) ∧
    ∃ b ∈ Grid.unitBelowZero.collect (· + 0.5), b.toInterval = ⟨-1, 0.0⟩ ∧
      (Bracket.ofEnds (· + 0.5) b.lo b.hi).result = .ok b := by
  have hfound (f : Float → Float) (hbetween : findingsBetween f (-1) 0.0 = [⟨-1, 0.0⟩]) :
      ∃ b ∈ Grid.unitBelowZero.collect f, b.toInterval = ⟨-1, 0.0⟩ := by
    have hmem : ⟨-1, 0.0⟩ ∈ (Grid.unitBelowZero.collect f).map Bracket.toInterval := by
      rw [Grid.collect_eq_findings, Grid.points_unitBelowZero, findings_cons,
        findingsAlong_cons_cons, hbetween]
      simp
    exact List.mem_map.1 hmem
  constructor
  · obtain ⟨b, hb, hi⟩ := hfound (1 / ·) (by
      rw [findingsBetween, if_neg (by decide +kernel), if_pos (by decide +kernel)])
    have hagree := (validations_agree (1 / ·) (1 / ·)).2 Grid.unitBelowZero b hb
    rw [hi, if_neg (by decide +kernel), if_pos (by decide +kernel)] at hagree
    exact ⟨b, hb, hi, by rw [hi]; exact hagree⟩
  · obtain ⟨b, hb, hi⟩ := hfound (· + 0.5) (by
      rw [findingsBetween, if_neg (by decide +kernel), if_pos (by decide +kernel)])
    have hagree := (validations_agree (· + 0.5) (· + 0.5)).2 Grid.unitBelowZero b hb
    rw [if_neg (by rw [hi]; decide +kernel), if_neg (by rw [hi]; decide +kernel)] at hagree
    exact ⟨b, hb, hi, hagree⟩

end ZeroSearch
