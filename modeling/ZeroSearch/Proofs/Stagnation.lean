import Mathlib
import ZeroSearch.Proofs.Damping

/-!
# Until an end stagnates

The Illinois method is plain false position until two rounds one after the other replace the same
end. Damping changes a weight only then, and the weight counts from the next round on. So the two
methods have all rounds in common up to the second of these two, and a run that ends there or before
is the same run (`illinois_agrees_until_stagnation`).
-/

namespace ZeroSearch

/-! ## Stagnation -/

/-- The ends that the rounds of a run replaced, round by round. -/
def Run.sides (run : Run Enclosure) : List (Option Side) := run.rounds.map Round.replaced

/-- Rounds number `n - 1` and `n` replaced the same end. -/
def Run.StagnatesAt (run : Run Enclosure) (n : Nat) : Prop :=
  ∃ k side, n = k + 2 ∧ run.sides[k]? = some (some side) ∧ run.sides[k + 1]? = some (some side)

/-- The runs open alike and have their first `n` rounds in common, and they are the same run if
there are no more. -/
structure Run.AgreesUntil {σ : Type} (run other : Run σ) (n : Nat) : Prop where
  opening : run.opening = other.opening
  rounds : run.rounds.take n = other.rounds.take n
  whole : run.rounds.length ≤ n → run = other

/-- What comes after `last` is not the same end again. -/
def Changes (last next : Option Side) : Prop := ∀ side, ¬ (last = some side ∧ next = some side)

theorem changes_none (next : Option Side) : Changes none next := by
  rintro side ⟨⟨⟩, -⟩

theorem Run.isChain_sides {run : Run Enclosure} {n : Nat}
    (h : ∀ k < n + 1, ¬ run.StagnatesAt k) : (none :: run.sides.take n).IsChain Changes := by
  refine List.isChain_cons.2 ⟨fun next _ => changes_none next, ?_⟩
  refine List.isChain_iff_getElem.2 fun k hk side ⟨hlast, hnext⟩ => ?_
  rw [List.length_take] at hk
  refine h (k + 2) (by omega) ⟨k, side, rfl, ?_, ?_⟩
  · rw [List.getElem?_eq_getElem (by omega), ← hlast, List.getElem_take]
  · rw [List.getElem?_eq_getElem (by omega), ← hnext, List.getElem_take]

namespace Run

variable {σ : Type} {run other : Run σ} {n : Nat}

theorem AgreesUntil.refl (run : Run σ) (n : Nat) : run.AgreesUntil run n := ⟨rfl, rfl, fun _ => rfl⟩

/-- The run with one more round before its rounds. -/
def cons (r : Round σ) (run : Run σ) : Run σ := ⟨run.opening, r :: run.rounds, run.outcome⟩

/-- The run with other evaluations before its rounds. -/
def openedBy (opening : List Query) (run : Run σ) : Run σ := ⟨opening, run.rounds, run.outcome⟩

theorem AgreesUntil.cons (h : run.AgreesUntil other n) (r : Round σ) :
    (run.cons r).AgreesUntil (other.cons r) (n + 1) where
  opening := h.opening
  rounds := congrArg (List.cons r) h.rounds
  whole hlen := congrArg (Run.cons r) (h.whole (Nat.le_of_succ_le_succ hlen))

theorem AgreesUntil.openedBy (h : run.AgreesUntil other n) (opening : List Query) :
    (run.openedBy opening).AgreesUntil (other.openedBy opening) n where
  opening := rfl
  rounds := h.rounds
  whole hlen := congrArg (Run.openedBy opening) (h.whole hlen)

end Run

/-! ## Rounds -/

namespace Damping

/-- The memory as long as no end was kept twice in a row. -/
def once : Option Side → Damping
  | none => initial
  | some .lower => ⟨0, 1, 1, 1⟩
  | some .upper => ⟨1, 0, 1, 1⟩

theorem update_once {last : Option Side} {gone : Side} (h : Changes last (some gone))
    (damped : Bool) : update damped gone (once last) = once (some gone) := by
  have hne : last ≠ some gone := fun heq => h gone ⟨heq, rfl⟩
  cases gone with
  | lower =>
    obtain _ | _ | _ := last
    · cases damped <;> rfl
    · exact absurd rfl hne
    · cases damped <;> rfl
  | upper =>
    obtain _ | _ | _ := last
    · cases damped <;> rfl
    · cases damped <;> rfl
    · exact absurd rfl hne

end Damping

section

variable {f : Float → Float} {p : Policy} {cap i : UInt64} {s t u : Pursuit Damping}

/-- Damping makes no difference to a round, apart from what is remembered after it. -/
theorem round_whether_damped (f : Float → Float) (p : Policy) (i : UInt64) (s : Pursuit Damping) :
    (∃ (r : Round Enclosure) (o : Outcome), ∀ damped, ∃ q,
      (falsePositionRule damped).iteration.round f p i s = (q, .stop o) ∧
        q.map Pursuit.enclosure = r) ∨
    ∃ (r : Round Enclosure) (x : Float), r.replaced = some (s.enclosure.replaced (f x)) ∧
      ∀ damped, ∃ q, (falsePositionRule damped).iteration.round f p i s =
        (q, .go ⟨s.enclosure.narrow x (f x), x,
          s.memory.update damped (s.enclosure.replaced (f x))⟩) ∧ q.map Pursuit.enclosure = r := by
  let x := s.enclosure.secantInside s.memory
  let o : Observation := ⟨(falsePositionRule false).previous i s.enclosure s.latest x, x, f x, i⟩
  let e := s.enclosure.narrow x (f x)
  -- What is remembered is all that depends on `damped`.
  let t (damped : Bool) : Pursuit Damping :=
    ⟨e, x, s.memory.update damped (s.enclosure.replaced (f x))⟩
  have hround (damped : Bool) : (falsePositionRule damped).iteration.round f p i s =
      if !(f x).isFinite then
        (⟨i, s, [.value x], none, none⟩, .stop (.failed (.nonFinite i x)))
      else if f x == 0 then (⟨i, s, [.value x], none, none⟩, .stop (.found ⟨x, i, 0⟩))
      else if p.accepts o then
        (⟨i, s, [.value x], some o, some (t damped)⟩, .stop (.found ⟨x, i, (f x).abs⟩))
      else (⟨i, s, [.value x], some o, some (t damped)⟩, .go (t damped)) := rfl
  split at hround
  · exact .inl ⟨_, _, fun damped => ⟨_, hround damped, rfl⟩⟩
  split at hround
  · exact .inl ⟨_, _, fun damped => ⟨_, hround damped, rfl⟩⟩
  split at hround
  · exact .inl ⟨⟨i, s.enclosure, [.value x], some o, some e⟩, _,
      fun damped => ⟨_, hround damped, rfl⟩⟩
  · exact .inr ⟨⟨i, s.enclosure, [.value x], some o, some e⟩, x, rfl,
      fun damped => ⟨_, hround damped, rfl⟩⟩

/-! ## Runs -/

/-- What shows of the rounds from iteration `i` and state `s` on. -/
def remainder (damped : Bool) (f : Float → Float) (p : Policy) (cap : UInt64) (budget : Nat)
    (i : UInt64) (s : Pursuit Damping) : Run Enclosure :=
  let (rounds, outcome) := (falsePositionRule damped).iteration.loop f p cap budget i s []
  ⟨[], rounds.map (Round.map Pursuit.enclosure), outcome⟩

theorem remainder_of_capped (h : ¬ i ≤ cap) (damped : Bool) (budget : Nat) :
    remainder damped f p cap (budget + 1) i s =
      ⟨[], [], .failed (.iterationsExceeded cap s.latest)⟩ := by
  rw [remainder, Iteration.loop_of_capped h]
  rfl

theorem remainder_of_stop {damped : Bool} {q : Round (Pursuit Damping)} {o : Outcome} (h : i ≤ cap)
    (hround : (falsePositionRule damped).iteration.round f p i s = (q, .stop o)) (budget : Nat) :
    remainder damped f p cap (budget + 1) i s = ⟨[], [q.map Pursuit.enclosure], o⟩ := by
  rw [remainder, Iteration.loop_of_stop h hround]
  rfl

theorem remainder_of_go {damped : Bool} {q : Round (Pursuit Damping)} (h : i ≤ cap)
    (hround : (falsePositionRule damped).iteration.round f p i s = (q, .go t)) (budget : Nat) :
    remainder damped f p cap (budget + 1) i s =
      (remainder damped f p cap budget (i + 1) t).cons (q.map Pursuit.enclosure) := by
  rw [remainder, Iteration.loop_of_go h hround]
  rfl

/-- Where there is no round, only the latest point shows. -/
theorem remainder_agrees_zero {budget : Nat} (hlatest : t.latest = u.latest) :
    (remainder false f p cap budget i t).AgreesUntil (remainder true f p cap budget i u) 0 where
  opening := rfl
  rounds := rfl
  whole hlen := by
    cases budget with
    | zero => rfl
    | succ budget =>
      by_cases hi : i ≤ cap
      · obtain ⟨r, o, hround⟩ | ⟨r, x, -, hround⟩ := round_whether_damped f p i t
        · obtain ⟨q, hq, -⟩ := hround false
          rw [remainder_of_stop hi hq] at hlen
          cases hlen
        · obtain ⟨q, hq, -⟩ := hround false
          rw [remainder_of_go hi hq] at hlen
          cases hlen
      · rw [remainder_of_capped hi, remainder_of_capped hi, hlatest]

/-- The induction is on the budget, and `last` is the end that the round before replaced. As long as
ends change the states are the same; the round after that still is, and its memory is not. -/
theorem remainder_agrees (budget : Nat) {last : Option Side} {n : Nat} (hs : s.memory = .once last)
    (hchain : (last :: (remainder false f p cap budget i s).sides.take n).IsChain Changes) :
    (remainder false f p cap budget i s).AgreesUntil (remainder true f p cap budget i s)
      (n + 1) := by
  induction budget generalizing i s last n with
  | zero => exact .refl _ _
  | succ budget ih =>
    by_cases hi : i ≤ cap
    · obtain ⟨r, o, hround⟩ | ⟨r, x, hr, hround⟩ := round_whether_damped f p i s
      · obtain ⟨q, hq, rfl⟩ := hround false
        obtain ⟨q', hq', heq⟩ := hround true
        rw [remainder_of_stop hi hq, remainder_of_stop hi hq', heq]
        exact .refl _ _
      · obtain ⟨q, hq, rfl⟩ := hround false
        obtain ⟨q', hq', heq⟩ := hround true
        rw [remainder_of_go hi hq] at hchain
        rw [remainder_of_go hi hq, remainder_of_go hi hq', heq]
        refine Run.AgreesUntil.cons ?_ _
        cases n with
        | zero =>
          -- This round may have replaced the same end as the one before it.
          exact remainder_agrees_zero rfl
        | succ n =>
          rw [Run.sides, Run.cons, List.map_cons, List.take_succ_cons, hr] at hchain
          obtain ⟨hchanges, hrest⟩ := List.isChain_cons_cons.1 hchain
          rw [hs, Damping.update_once hchanges] at hrest ⊢
          rw [Damping.update_once hchanges]
          exact ih rfl hrest
    · rw [remainder_of_capped hi, remainder_of_capped hi]
      exact .refl _ _

theorem solve_eq_remainder {b : Bracket} {e : Enclosure} (h : (Enclosure.ofBracket f b).result = .ok e)
    (hroot : e.endpointRoot = none) (damped : Bool) :
    ((falsePositionRule damped).solve f b cap p).map Pursuit.enclosure =
      (remainder damped f p cap (cap.toNat + 1) 1 ((falsePositionRule damped).start e)).openedBy
        [.value b.lo, .value b.hi] := by
  rw [Rule.solve_of_opened h hroot]
  rfl

theorem agreesUntil_of_not_stagnates {b : Bracket} {n : Nat}
    (h : ∀ k < n + 1, ¬ (Method.falsePosition.solve f b cap p).StagnatesAt k) :
    (Method.falsePosition.solve f b cap p).AgreesUntil (Method.illinois.solve f b cap p)
      (n + 1) := by
  rw [Method.solve, falsePosition] at h
  rw [Method.solve, Method.solve, falsePosition, illinois]
  cases he : (Enclosure.ofBracket f b).result with
  | error fault =>
    rw [Rule.solve_of_refused he, Rule.solve_of_refused he]
    exact .refl _ _
  | ok e =>
    cases hroot : e.endpointRoot with
    | some x =>
      rw [Rule.solve_of_endpointRoot he hroot, Rule.solve_of_endpointRoot he hroot]
      exact .refl _ _
    | none =>
      have hchain := Run.isChain_sides h
      rw [solve_eq_remainder he hroot] at hchain
      rw [solve_eq_remainder he hroot, solve_eq_remainder he hroot]
      refine Run.AgreesUntil.openedBy (remainder_agrees _ ?_ hchain) _
      rfl

end

/-- The runs of plain false position and of the Illinois method have their rounds in common through
the first one that replaces the same end as the round before, and they are the same run if the plain
one has no such round before its last. -/
theorem illinois_agrees_until_stagnation (f : Float → Float) (b : Bracket) (cap : UInt64)
    (p : Policy) :
    (∀ n, IsLeast {k | (Method.falsePosition.solve f b cap p).StagnatesAt k} n →
      (Method.falsePosition.solve f b cap p).AgreesUntil (Method.illinois.solve f b cap p) n) ∧
    ((∀ n < (Method.falsePosition.solve f b cap p).rounds.length,
        ¬ (Method.falsePosition.solve f b cap p).StagnatesAt n) →
      Method.falsePosition.solve f b cap p = Method.illinois.solve f b cap p) := by
  constructor
  · rintro n ⟨hn, hleast⟩
    obtain ⟨k, -, rfl, -⟩ := hn
    exact agreesUntil_of_not_stagnates fun j hj hstagnates =>
      absurd (hleast hstagnates) (by omega)
  · intro h
    refine (agreesUntil_of_not_stagnates fun k hk hstagnates => ?_).whole le_tsub_add
    have hk' := hstagnates
    obtain ⟨j, -, rfl, -⟩ := hk'
    exact h (j + 2) (by omega) hstagnates

/-- On `x * x - 1.25` between 1 and 2 the first two rounds replace the lower end and the third
rounds differ; on a jump at one third between 0 and 1 the ends take turns. -/
theorem illinois_agrees_until_stagnation_of_square_and_jump :
    (∃ plain damped : Run Enclosure,
      plain = Method.falsePosition.solve (fun x => x * x - 1.25) ⟨⟨1, 2⟩, rfl, rfl, by decide⟩ 3
        (.step 0) ∧
      damped = Method.illinois.solve (fun x => x * x - 1.25) ⟨⟨1, 2⟩, rfl, rfl, by decide⟩ 3
        (.step 0) ∧
      IsLeast {k | plain.StagnatesAt k} 2 ∧ plain.AgreesUntil damped 2 ∧
      plain.queries ≠ damped.queries) ∧
    ∃ plain : Run Enclosure,
      plain = Method.falsePosition.solve (fun x => if x < 1 / 3 then -1 else 1)
        ⟨⟨0, 1⟩, rfl, rfl, by decide⟩ 4 (.step 0) ∧
      plain.rounds.length = 4 ∧ (∀ n < 4, ¬ plain.StagnatesAt n) ∧
      plain = Method.illinois.solve (fun x => if x < 1 / 3 then -1 else 1)
        ⟨⟨0, 1⟩, rfl, rfl, by decide⟩ 4 (.step 0) := by
  have hleast : IsLeast {k | (Method.falsePosition.solve (fun x => x * x - 1.25)
      ⟨⟨1, 2⟩, rfl, rfl, by decide⟩ 3 (.step 0)).StagnatesAt k} 2 := by
    refine ⟨⟨0, .lower, rfl, by decide +kernel, by decide +kernel⟩, ?_⟩
    rintro n ⟨k, -, rfl, -⟩
    exact Nat.le_add_left 2 k
  have hchanges : ∀ n < 4, ¬ (Method.falsePosition.solve (fun x => if x < 1 / 3 then -1 else 1)
      ⟨⟨0, 1⟩, rfl, rfl, by decide⟩ 4 (.step 0)).StagnatesAt n := by
    have hsides : (Method.falsePosition.solve (fun x => if x < 1 / 3 then -1 else 1)
        ⟨⟨0, 1⟩, rfl, rfl, by decide⟩ 4 (.step 0)).sides =
          [some .upper, some .lower, some .upper, some .lower] := by
      decide +kernel
    rintro n hn ⟨k, side, rfl, hlast, hnext⟩
    rw [hsides] at hlast hnext
    obtain rfl | rfl : k = 0 ∨ k = 1 := by omega
    · cases hlast
      cases hnext
    · cases hlast
      cases hnext
  have hlength : (Method.falsePosition.solve (fun x => if x < 1 / 3 then -1 else 1)
      ⟨⟨0, 1⟩, rfl, rfl, by decide⟩ 4 (.step 0)).rounds.length = 4 := by
    decide +kernel
  refine ⟨⟨_, _, rfl, rfl, hleast, ?_, by decide +kernel⟩, _, rfl, hlength, hchanges, ?_⟩
  · exact (illinois_agrees_until_stagnation _ _ _ _).1 2 hleast
  · exact (illinois_agrees_until_stagnation _ _ _ _).2 (hlength ▸ hchanges)

end ZeroSearch
