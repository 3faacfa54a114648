import Mathlib
import ZeroSearch.Proofs.Halving
import ZeroSearch.Proofs.SignInvariant

/-!
# Damping

What false position remembers is a function of the ends that gave way before: each end was kept as
often as the rounds just before replaced the other one, and its weight is halved for the second of
them and for every further one (`damping_follows_history`). Halving is exact down to the least
positive float and then gives zero. The values at the ends are never scaled, so the weights show in
the point that is chosen and nowhere else.
-/

namespace ZeroSearch

open Binary64

/-! ## Powers of one half -/

/-- One, halved `n` times. -/
def halvings : Nat → Float
  | 0 => 1
  | n + 1 => halvings n * 0.5

theorem exists_level_zpow {e : Int} (hlow : -1074 ≤ e) (hhigh : e ≤ 0) :
    ∃ n, clamp n = n ∧ level n = 2 ^ e := by
  by_cases hnormal : -1022 ≤ e
  · refine ⟨(e - 52 + 1074) * 0x10000000000000 + (0x10000000000000 : Nat), ?_, ?_⟩
    · unfold clamp
      omega
    · rw [level_eq (by omega) (by norm_num) fun _ => le_rfl, zpow_sub₀ (by norm_num)]
      exact mul_div_cancel₀ _ (by norm_num)
  · obtain ⟨k, hk⟩ := Int.eq_ofNat_of_zero_le (a := e + 1074) (by omega)
    have hle : 2 ^ k ≤ 0x20000000000000 :=
      calc 2 ^ k ≤ 2 ^ 53 := Nat.pow_le_pow_right (by norm_num) (by omega)
        _ = 0x20000000000000 := by norm_num
    refine ⟨(2 ^ k : Nat), ?_, ?_⟩
    · generalize 2 ^ k = m at hle ⊢
      unfold clamp
      omega
    · rw [level_of_le hle, Nat.cast_pow, Nat.cast_ofNat, quantum, ← zpow_natCast,
        ← zpow_add₀ (by norm_num), ← hk, add_neg_cancel_right]

theorem half_zpow {x : Float} (hx : x.isFinite = true) {n : Nat} (hn : n < 1074)
    (h : toRat x = 2 ^ (-(n : Int))) : toRat (x * 0.5) = 2 ^ (-((n + 1 : Nat) : Int)) := by
  obtain ⟨k, hk, hlevel⟩ := exists_level_zpow (e := -((n + 1 : Nat) : Int)) (by omega) (by omega)
  have hr := half_rounded hx
  have hhalf : toRat x / 2 = level k := by
    rw [h, hlevel, show -((n + 1 : Nat) : Int) = -(n : Int) - 1 by omega,
      zpow_sub_one₀ (by norm_num)]
    rfl
  rw [hhalf] at hr
  rw [toRat, hr.ordinal_of_level hk, hlevel]

theorem isFinite_halvings (n : Nat) : (halvings n).isFinite = true := by
  induction n with
  | zero => rfl
  | succ n ih => exact half_isFinite ih

theorem toRat_halvings {n : Nat} (hn : n ≤ 1074) : toRat (halvings n) = 2 ^ (-(n : Int)) := by
  induction n with
  | zero =>
    rw [toRat_of_whole (k := 1) (by decide +kernel) (by decide)]
    simp
  | succ n ih => exact half_zpow (isFinite_halvings n) (by omega) (ih (by omega))

/-- Half of the least positive float is a tie, which goes to zero. -/
theorem halvings_eq_zero {n : Nat} (hn : 1074 < n) : halvings n = 0 := by
  induction n, hn using Nat.le_induction with
  | base =>
    have hleast : halvings 1074 = .ofBits 1 := by
      have hlevel : level (ordinal (halvings 1074)) = level 1 :=
        (toRat_halvings le_rfl).trans level_one.symm
      have hord := level_inj.1 hlevel
      exact eq_of_ordinal_eq (by omega) (hord.trans (by decide +kernel))
    show halvings 1074 * 0.5 = 0
    rw [hleast]
    decide +kernel
  | succ n _ ih =>
    show halvings n * 0.5 = 0
    rw [ih]
    decide +kernel

/-! ## Histories -/

/-- How many of the latest rounds in a row moved the other end; the ends are listed newest first. -/
def keptFor (side : Side) (past : List Side) : Nat := (past.takeWhile (· ≠ side)).length

/-- The end that a round replaced, if it came to that. -/
def Round.replaced (r : Round Enclosure) : Option Side :=
  r.observation.map fun o => r.before.replaced o.value

/-- The ends that the first `n` rounds replaced, newest first. -/
def Run.history (run : Run Enclosure) (n : Nat) : List Side :=
  ((run.rounds.take n).filterMap Round.replaced).reverse

theorem keptFor_cons (side gone : Side) (past : List Side) :
    keptFor side (gone :: past) = if side = gone then 0 else keptFor side past + 1 := by
  unfold keptFor
  by_cases h : side = gone
  · simp [h]
  · simp [h, Ne.symm h]

theorem keptFor_le (side : Side) (past : List Side) : keptFor side past ≤ past.length :=
  (List.takeWhile_prefix _).length_le

/-- The latest round replaced one end and kept the other. -/
theorem existsUnique_kept {past : List Side} (h : past ≠ []) : ∃! side, keptFor side past ≠ 0 := by
  obtain ⟨gone, past, rfl⟩ := List.exists_cons_of_ne_nil h
  simp only [keptFor_cons]
  cases gone with
  | lower => exact ⟨.upper, by simp, fun side hside => by cases side <;> simp_all⟩
  | upper => exact ⟨.lower, by simp, fun side hside => by cases side <;> simp_all⟩

theorem keptFor_eq_zero (past : List Side) : keptFor .lower past = 0 ∨ keptFor .upper past = 0 := by
  cases past with
  | nil => exact .inl rfl
  | cons gone past => cases gone <;> simp [keptFor_cons]

/-! ## Memories -/

namespace Damping

variable {d : Damping} {damped : Bool} {past : List Side}

def kept (d : Damping) : Side → UInt64
  | .lower => d.keptLo
  | .upper => d.keptHi

def weight (d : Damping) : Side → Float
  | .lower => d.weightLo
  | .upper => d.weightHi

/-- `w` is the weight of an end that was kept `n` times in a row. -/
structure Weighs (damped : Bool) (n : Nat) (w : Float) : Prop where
  finite : w.isFinite = true
  whole : damped = false ∨ n ≤ 1 → w = 1
  power : damped = true → 2 ≤ n → n - 1 ≤ 1074 → toRat w = 2 ^ (-((n - 1 : Nat) : Int))
  vanished : damped = true → 1074 < n - 1 → w = 0

def weightAfter (damped : Bool) (n : Nat) : Float := if damped then halvings (n - 1) else 1

theorem weightAfter_weighs (damped : Bool) (n : Nat) : Weighs damped n (weightAfter damped n) := by
  cases damped with
  | false => exact ⟨isFinite_halvings 0, fun _ => rfl, by rintro ⟨⟩, by rintro ⟨⟩⟩
  | true =>
    refine ⟨isFinite_halvings _, fun h => ?_, fun _ _ hn => toRat_halvings hn,
      fun _ hn => halvings_eq_zero hn⟩
    obtain h | h := h
    · cases h
    · show halvings (n - 1) = 1
      rw [show n - 1 = 0 by omega]
      rfl

theorem weaken_weightAfter {k : UInt64} {n : Nat} (hk : k.toNat = n + 1) :
    weaken damped k (weightAfter damped n) = weightAfter damped (n + 1) := by
  cases damped with
  | false => rfl
  | true =>
    have hle : (2 ≤ k) ↔ 1 ≤ n := by
      rw [UInt64.le_iff_toNat_le, hk]
      show 2 ≤ n + 1 ↔ 1 ≤ n
      omega
    unfold weaken weightAfter
    cases n with
    | zero =>
      -- Kept for the first time: the weight stays at 1.
      simp [hle]
    | succ n => simp [hle, halvings]

/-- The memory after the ends `past` gave way, newest first. -/
structure Remembers (d : Damping) (damped : Bool) (past : List Side) : Prop where
  kept : ∀ side, (d.kept side).toNat = keptFor side past
  weight : ∀ side, d.weight side = weightAfter damped (keptFor side past)

theorem initial_remembers (damped : Bool) : initial.Remembers damped [] where
  kept side := by cases side <;> rfl
  weight side := by cases side <;> cases damped <;> rfl

theorem kept_update (damped : Bool) (gone : Side) (d : Damping) (side : Side) :
    (update damped gone d).kept side = if side = gone then 0 else d.kept side + 1 := by
  cases gone <;> cases side <;> rfl

theorem weight_update (damped : Bool) (gone : Side) (d : Damping) (side : Side) :
    (update damped gone d).weight side =
      if side = gone then 1 else weaken damped (d.kept side + 1) (d.weight side) := by
  cases gone <;> cases side <;> rfl

theorem Remembers.update (h : d.Remembers damped past) (hroom : past.length + 1 < 2 ^ 64)
    (gone : Side) : (update damped gone d).Remembers damped (gone :: past) := by
  have hsucc (side : Side) : (d.kept side + 1).toNat = keptFor side past + 1 := by
    have hle := keptFor_le side past
    rw [Iteration.toNat_succ (by rw [h.kept]; omega), h.kept]
  constructor
  · intro side
    rw [kept_update, keptFor_cons]
    split
    · rfl
    · exact hsucc side
  · intro side
    rw [weight_update, keptFor_cons]
    split
    · cases damped <;> rfl
    · rw [h.weight, weaken_weightAfter (hsucc side)]

end Damping

/-! ## Rounds -/

/-- Where the line through `(lo, gLo)` and `(hi, gHi)` meets zero. -/
def lineZero (lo hi gLo gHi : Float) : Float := hi - gHi * (hi - lo) / (gHi - gLo)

/-- What a round finds after the ends `past` gave way, newest first, and what it does with it. The
point is on the line through the weighted values of `f` at the ends, or the middle. -/
structure Round.DampedBy (r : Round (Pursuit Damping)) (damped : Bool) (f : Float → Float)
    (past : List Side) : Prop where
  kept : ∀ side, (r.before.memory.kept side).toNat = keptFor side past
  one_kept : past ≠ [] → ∃! side, r.before.memory.kept side ≠ 0
  weight : ∀ side, Damping.Weighs damped (keptFor side past) (r.before.memory.weight side)
  one_weighted : r.before.memory.weightLo = 1 ∨ r.before.memory.weightHi = 1
  value_lo : r.before.enclosure.fLo = f r.before.enclosure.lo
  value_hi : r.before.enclosure.fHi = f r.before.enclosure.hi
  point : ∃ x, x = lineZero r.before.enclosure.lo r.before.enclosure.hi
      (f r.before.enclosure.lo * r.before.memory.weightLo)
      (f r.before.enclosure.hi * r.before.memory.weightHi) ∧
    r.queries = [.value (
      if x.isFinite ∧ r.before.enclosure.lo < x ∧ x < r.before.enclosure.hi then x
      else midpoint r.before.enclosure.lo r.before.enclosure.hi)]
  narrowed : ∀ t ∈ r.after, ∃ side ∈ (r.map Pursuit.enclosure).replaced, ∃ x,
    r.queries = [.value x] ∧ t.enclosure = r.before.enclosure.replace x (f x) side

/-- The ends that the rounds replaced, in order. -/
def sidesOf (rounds : List (Round (Pursuit Damping))) : List Side :=
  rounds.filterMap fun r => (r.map Pursuit.enclosure).replaced

/-- The state in which round number `i` begins, after the rounds `past`. -/
structure Pursuit.RemembersPast (s : Pursuit Damping) (damped : Bool) (f : Float → Float)
    (opened : Enclosure) (past : List (Round (Pursuit Damping))) (i : UInt64) : Prop where
  number : i.toNat = past.length + 1
  replaced : (sidesOf past).length = past.length
  memory : s.memory.Remembers damped (sidesOf past).reverse
  straddles : s.enclosure.Straddles f opened

section

variable {damped : Bool} {f : Float → Float} {p : Policy} {cap i : UInt64} {b : Bracket}
  {s t : Pursuit Damping} {r : Round (Pursuit Damping)} {next : Iteration.Next (Pursuit Damping)}
  {past : List (Round (Pursuit Damping))} {opened : Enclosure} {n : Nat}

theorem sidesOf_concat {side : Side} (h : (r.map Pursuit.enclosure).replaced = some side) :
    sidesOf (past ++ [r]) = sidesOf past ++ [side] := by
  simp [sidesOf, h]

theorem history_map_enclosure (run : Run (Pursuit Damping)) (n : Nat) :
    (run.map Pursuit.enclosure).history n = (sidesOf (run.rounds.take n)).reverse := by
  rw [Run.history, Run.map, ← List.map_take, List.filterMap_map]
  rfl

theorem remembersPast_start (h : (Enclosure.ofBracket f b).result = .ok opened)
    (hroot : opened.endpointRoot = none) :
    ((falsePositionRule damped).start opened).RemembersPast damped f opened [] 1 :=
  ⟨rfl, rfl, Damping.initial_remembers damped, Enclosure.straddles_of_ofBracket h hroot⟩

theorem remembersPast_of_go (hcap : cap.toNat + 1 < 2 ^ 64)
    (hs : s.RemembersPast damped f opened past i) (hi : i ≤ cap)
    (h : (falsePositionRule damped).iteration.Step f p i s r (.go t)) :
    t.RemembersPast damped f opened (past ++ [r]) (i + 1) := by
  have hle := UInt64.le_iff_toNat_le.1 hi
  have hnumber := hs.number
  have hlen : (sidesOf past).reverse.length = past.length := by
    rw [List.length_reverse, hs.replaced]
  have hstraddles := Rule.straddles_of_go hs.straddles h
  cases h with
  | @rejected x hx hfin hz ha =>
    refine ⟨?_, ?_, ?_, hstraddles⟩
    · rw [Iteration.toNat_succ (by omega), hnumber, List.length_append, List.length_singleton]
    · rw [sidesOf_concat rfl, List.length_append, List.length_append, hs.replaced]
      rfl
    · rw [sidesOf_concat rfl, List.reverse_append]
      exact hs.memory.update (by omega) _

theorem dampedBy_of_step (hs : s.RemembersPast damped f opened past i)
    (h : (falsePositionRule damped).iteration.Step f p i s r next) :
    r.DampedBy damped f (sidesOf past).reverse := by
  have hq := Rule.queries_of_step h
  obtain ⟨x, -, hx, hafter⟩ := Rule.completed_of_step h
  obtain rfl := h.before_eq
  refine ⟨hs.memory.kept, fun hne => ?_, fun side => ?_, ?_, hs.straddles.value_lo,
    hs.straddles.value_hi, ⟨_, rfl, ?_⟩, fun t ht => ?_⟩
  · simpa only [← hs.memory.kept, Ne, ← UInt64.toNat_zero, UInt64.toNat_inj] using
      existsUnique_kept hne
  · rw [hs.memory.weight]
    exact Damping.weightAfter_weighs _ _
  · have hzero {n : Nat} (hn : n = 0) : Damping.weightAfter damped n = 1 :=
      (Damping.weightAfter_weighs damped n).whole (.inr (by omega))
    exact (keptFor_eq_zero (sidesOf past).reverse).imp
      (fun h => (hs.memory.weight .lower).trans (hzero h))
      (fun h => (hs.memory.weight .upper).trans (hzero h))
  · rw [hq, ← hs.straddles.value_lo, ← hs.straddles.value_hi]
    rfl
  · obtain ⟨-, -, hnone⟩ | ⟨-, -, hobs, m, hsome⟩ := hafter
    · rw [hnone] at ht
      cases ht
    · rw [hsome] at ht
      cases ht
      refine ⟨r.before.enclosure.replaced (f x), ?_, x, hx, Enclosure.narrow_eq_replace ..⟩
      rw [Round.replaced, Round.map, hobs]
      rfl

/-- In every run of false position, damped or not, each round finds its counters and weights as the
ends replaced by the rounds before have made them. -/
theorem damping_follows_history (damped : Bool) (f : Float → Float) (b : Bracket) {cap : UInt64}
    (p : Policy) (hcap : cap.toNat + 1 < 2 ^ 64) {n : Nat} {r : Round (Pursuit Damping)}
    (hr : ((falsePositionRule damped).solve f b cap p).rounds[n]? = some r) :
    ((((falsePositionRule damped).solve f b cap p).map Pursuit.enclosure).history n).length = n ∧
      r.DampedBy damped f
        ((((falsePositionRule damped).solve f b cap p).map Pursuit.enclosure).history n) := by
  obtain ⟨e, hopen, hroot, hsolve⟩ :=
    Rule.opened_of_rounds (List.ne_nil_of_mem (List.mem_of_getElem? hr))
  rw [hsolve] at hr
  rw [history_map_enclosure, hsolve]
  have hrun := (falsePositionRule damped).iteration.run_course f p cap
    [.value b.lo, .value b.hi] ((falsePositionRule damped).start e)
  obtain ⟨i, s, next, hs, hstep⟩ := hrun.history
    (P := fun past i s => s.RemembersPast damped f e past i) (remembersPast_of_go hcap) []
    (remembersPast_start hopen hroot) hr
  have hlt := (List.getElem?_eq_some_iff.1 hr).1
  have hlen := hs.replaced
  rw [List.nil_append] at hs hlen
  refine ⟨?_, dampedBy_of_step hs hstep⟩
  rw [List.length_reverse, hlen, List.length_take]
  omega

end

/-- The third round of the Illinois method on `x * x - 1.25` between 1 and 2 finds the upper end
kept twice. -/
theorem damping_follows_history_of_square :
    (3 : UInt64).toNat + 1 < 2 ^ 64 ∧
    ∃ r, ((falsePositionRule true).solve (fun x => x * x - 1.25) ⟨⟨1, 2⟩, rfl, rfl, by decide⟩ 3
        (.step 0)).rounds[2]? = some r ∧
      r.DampedBy true (fun x => x * x - 1.25) [.lower, .lower] := by
  have hcap : (3 : UInt64).toNat + 1 < 2 ^ 64 := by decide
  have hlen : 2 < ((falsePositionRule true).solve (fun x => x * x - 1.25)
      ⟨⟨1, 2⟩, rfl, rfl, by decide⟩ 3 (.step 0)).rounds.length := by
    decide +kernel
  have hhistory : (((falsePositionRule true).solve (fun x => x * x - 1.25)
      ⟨⟨1, 2⟩, rfl, rfl, by decide⟩ 3 (.step 0)).map Pursuit.enclosure).history 2 =
        [.lower, .lower] := by
    decide +kernel
  obtain ⟨-, hdamped⟩ := damping_follows_history true (fun x => x * x - 1.25)
    ⟨⟨1, 2⟩, rfl, rfl, by decide⟩ (.step 0) hcap (List.getElem?_eq_getElem hlen)
  exact ⟨hcap, _, List.getElem?_eq_getElem hlen, hhistory ▸ hdamped⟩

end ZeroSearch
