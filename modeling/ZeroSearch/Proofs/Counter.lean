import Mathlib
import ZeroSearch.Proofs.Acceptance

/-!
# The counter of a loop

Rounds are numbered by a 64-bit counter, and a run goes on while its number is at most the cap. A
cap below the greatest count is passed after as many rounds as it says. So it ends every run, and no
number comes up twice (`Run.Counted`). A run has all the rounds that its cap leaves room for, unless
one of them ends it (`Iteration.loop_reaches`).

The greatest count itself is never passed. Where nothing else ends a run with that cap, the counter
wraps around to 0 and the rounds go on for as long as there is a budget (`Iteration.loop_endless`).
All solvers have such runs (`solvers_overrun_greatestCount`).
-/

namespace ZeroSearch

variable {σ τ : Type}

/-- The run has ended after no more rounds than its cap says, and they are numbered from 1 on. -/
structure Run.Counted (run : Run σ) (cap : UInt64) : Prop where
  length_le : run.rounds.length ≤ cap.toNat
  finished : run.outcome ≠ .unfinished
  numbered : ∀ n r, run.rounds[n]? = some r → r.iteration.toNat = n + 1
  asked_ne_zero : ∀ o ∈ run.observations, o.iteration ≠ 0
  asked_nodup : (run.observations.map Observation.iteration).Nodup

namespace Run

variable {run : Run σ} {f : Float → Float} {p : Policy} {cap : UInt64} {origins : List Float}

theorem Protocol.iteration_ne_zero (h : run.Protocol f p cap origins) :
    ∀ o ∈ run.observations, o.iteration ≠ 0 := by
  intro o ho hzero
  obtain ⟨n, hn⟩ := List.mem_iff_getElem?.1 ho
  have hnumber := h.numbered n o hn
  rw [hzero, UInt64.toNat_zero] at hnumber
  omega

theorem Protocol.nodup_iterations (h : run.Protocol f p cap origins) :
    (run.observations.map Observation.iteration).Nodup := by
  refine List.pairwise_map.2 (List.pairwise_iff_getElem.2 fun j k hj hk hlt heq => ?_)
  have h₁ := h.numbered j _ (List.getElem?_eq_getElem hj)
  have h₂ := h.numbered k _ (List.getElem?_eq_getElem hk)
  rw [heq] at h₁
  omega

theorem Protocol.counted (h : run.Protocol f p cap origins) (hlen : run.rounds.length ≤ cap.toNat)
    (hfin : run.outcome ≠ .unfinished)
    (hnum : ∀ n r, run.rounds[n]? = some r → r.iteration.toNat = n + 1) : run.Counted cap :=
  ⟨hlen, hfin, hnum, h.iteration_ne_zero, h.nodup_iterations⟩

/-- A run that ends before its first round has no number to repeat. -/
theorem counted_of_no_rounds {run : Run σ} (hrounds : run.rounds = [])
    (hfin : run.outcome ≠ .unfinished) : run.Counted cap := by
  have hobs : run.observations = [] := by rw [observations, hrounds, List.filterMap_nil]
  constructor
  · rw [hrounds]
    exact Nat.zero_le _
  · exact hfin
  · rw [hrounds]
    rintro n r ⟨⟩
  · rw [hobs]
    rintro o ⟨⟩
  · rw [hobs]
    exact List.nodup_nil

theorem Counted.map (h : run.Counted cap) (g : σ → τ) : (run.map g).Counted cap where
  length_le := by
    rw [Run.map, List.length_map]
    exact h.length_le
  finished := h.finished
  numbered n r hr := by
    rw [Run.map, List.getElem?_map, Option.map_eq_some_iff] at hr
    obtain ⟨q, hq, rfl⟩ := hr
    exact h.numbered n q hq
  asked_ne_zero := by
    rw [observations_map]
    exact h.asked_ne_zero
  asked_nodup := by
    rw [observations_map]
    exact h.asked_nodup

end Run

/-! ## Rounds by number -/

namespace Iteration

variable {m : Iteration σ} {f : Float → Float} {p : Policy} {i cap : UInt64} {s : σ}
  {rs : List (Round σ)} {r : Round σ} {o : Outcome}

/-- This holds for every cap, with numbers that wrap around. -/
theorem Course.numbered (h : m.Course f p cap i s rs o) {n : Nat} (hn : rs[n]? = some r) :
    r.iteration = i + .ofNat n := by
  induction h generalizing n with
  | cut => cases hn
  | capped => cases hn
  | last hi hstep =>
    cases n with
    | zero =>
      cases hn
      rw [hstep.iteration_eq]
      exact (UInt64.add_zero _).symm
    | succ n => cases hn
  | next hi hstep hrest ih =>
    cases n with
    | zero =>
      cases hn
      rw [hstep.iteration_eq]
      exact (UInt64.add_zero _).symm
    | succ n =>
      rw [ih hn, UInt64.ofNat_add, UInt64.add_assoc, UInt64.add_comm 1]
      rfl

theorem Course.length_le (hcap : cap.toNat + 1 < 2 ^ 64) (h : m.Course f p cap i s rs o)
    (hi : i.toNat ≤ cap.toNat + 1) : i.toNat + rs.length ≤ cap.toNat + 1 := by
  induction h with
  | cut => exact hi
  | capped => exact hi
  | last hle =>
    have := UInt64.le_iff_toNat_le.1 hle
    rw [List.length_singleton]
    omega
  | @next i s t r rs o hle hstep hrest ih =>
    have hle' := UInt64.le_iff_toNat_le.1 hle
    have hsucc := toNat_succ (i := i) (by omega)
    have := ih (by omega)
    rw [List.length_cons]
    omega

theorem run_counted (m : Iteration σ) (f : Float → Float) (p : Policy)
    (hcap : cap.toNat + 1 < 2 ^ 64) (opening : List Query) (s : σ) :
    (m.run f p cap opening s).rounds.length ≤ cap.toNat ∧
      ∀ n r, (m.run f p cap opening s).rounds[n]? = some r → r.iteration.toNat = n + 1 := by
  have hrun := m.run_course f p cap opening s
  have hone : (1 : UInt64).toNat = 1 := rfl
  have hlen := hrun.length_le hcap (by omega)
  refine ⟨by omega, fun n r hn => ?_⟩
  have hlt : n < (m.run f p cap opening s).rounds.length := (List.getElem?_eq_some_iff.1 hn).1
  rw [hrun.numbered hn, UInt64.toNat_add, UInt64.toNat_ofNat', hone]
  omega

/-- No round comes after one whose observation the policy accepts. -/
theorem Course.length_of_accepts (h : m.Course f p cap i s rs o) {n : Nat} (hn : rs[n]? = some r)
    {obs : Observation} (hobs : r.observation = some obs) (ha : p.accepts obs = true) :
    rs.length = n + 1 := by
  induction h generalizing n with
  | cut => cases hn
  | capped => cases hn
  | last hi hstep =>
    obtain ⟨rfl, -⟩ : n = 0 ∧ _ = r := by simpa [List.getElem?_singleton] using hn
    rfl
  | next hi hstep hrest ih =>
    cases n with
    | zero =>
      cases hn
      cases hstep.of_accepts hobs ha
    | succ n => rw [List.length_cons, ih hn]

/-- There are as many rounds as the cap and the budget allow, unless one of them ends the run. -/
theorem loop_reaches (m : Iteration σ) (f : Float → Float) (p : Policy) {n budget : Nat}
    (hn : n ≤ budget) (hcap : i.toNat + n ≤ cap.toNat + 1) (s : σ) :
    n ≤ (m.loop f p cap budget i s []).1.length ∨
      ∃ r ∈ (m.loop f p cap budget i s []).1, ∃ j t o, m.Step f p j t r (.stop o) := by
  induction n generalizing i s budget with
  | zero => exact .inl (Nat.zero_le _)
  | succ n ih =>
    obtain ⟨budget, rfl⟩ : ∃ rest, budget = rest + 1 := ⟨budget - 1, by omega⟩
    have hle : i ≤ cap := UInt64.le_iff_toNat_le.2 (by omega)
    have hstep := m.round_step f p i s
    cases hround : m.round f p i s with
    | mk r next =>
      rw [hround] at hstep
      cases next with
      | stop o =>
        rw [loop_of_stop hle hround]
        exact .inr ⟨r, List.mem_singleton_self r, i, s, o, hstep⟩
      | go t =>
        rw [loop_of_go hle hround]
        obtain rfl | hpos := Nat.eq_zero_or_pos n
        · exact .inl (by rw [List.length_cons]; omega)
        have hlt := cap.toNat_lt
        have hsucc := toNat_succ (i := i) (by omega)
        have hroom : (i + 1).toNat + n ≤ cap.toNat + 1 := by omega
        obtain h | ⟨q, hq, h⟩ := ih (Nat.le_of_succ_le_succ hn) hroom t
        · exact .inl (by rw [List.length_cons]; omega)
        · exact .inr ⟨q, List.mem_cons_of_mem _ hq, h⟩

/-- Loops with budgets that suffice are the same. -/
theorem loop_budget (m : Iteration σ) (f : Float → Float) (p : Policy)
    (hcap : cap.toNat + 1 < 2 ^ 64) {budget budget' : Nat} (hi : i.toNat ≤ cap.toNat + 1)
    (hbudget : cap.toNat + 1 < i.toNat + budget) (hbudget' : cap.toNat + 1 < i.toNat + budget')
    (s : σ) : m.loop f p cap budget i s [] = m.loop f p cap budget' i s [] := by
  induction budget generalizing i s budget' with
  | zero => omega
  | succ budget ih =>
    obtain ⟨rest, rfl⟩ : ∃ rest, budget' = rest + 1 := ⟨budget' - 1, by omega⟩
    by_cases hle : i ≤ cap
    · cases hround : m.round f p i s with
      | mk r next =>
        cases next with
        | stop o => rw [loop_of_stop hle hround, loop_of_stop hle hround]
        | go t =>
          have hle' := UInt64.le_iff_toNat_le.1 hle
          have hsucc := toNat_succ (i := i) (by omega)
          have hrest : cap.toNat + 1 < (i + 1).toNat + rest := by omega
          rw [loop_of_go hle hround, loop_of_go hle hround, ih (by omega) (by omega) hrest t]
    · rw [loop_of_capped hle, loop_of_capped hle]

/-- The budget of a run plays no part where the counter can pass the cap. -/
theorem runWithin_eq_run (m : Iteration σ) (f : Float → Float) (p : Policy)
    (hcap : cap.toNat + 1 < 2 ^ 64) {budget : Nat} (hbudget : cap.toNat < budget)
    (opening : List Query) (s : σ) :
    m.runWithin f p cap budget opening s = m.run f p cap opening s := by
  have hone : (1 : UInt64).toNat = 1 := rfl
  unfold run runWithin
  rw [m.loop_budget f p hcap (i := 1) (by omega) (by omega : cap.toNat + 1 < 1 + budget)
    (by omega : cap.toNat + 1 < 1 + (cap.toNat + 1))]

end Iteration

/-! ## Solvers -/

section

variable {f : Float → Float} {p : Policy} {cap : UInt64}

theorem Rule.solve_counted {μ : Type} {rule : Rule μ} (hrule : rule.iteration.Sequential)
    (b : Bracket) (hcap : cap.toNat + 1 < 2 ^ 64) : (rule.solve f b cap p).Counted cap := by
  have hfin := rule.solve_finishes (f := f) (b := b) (p := p) hcap
  cases h : (Enclosure.ofBracket f b).result with
  | error fault =>
    rw [solve_of_refused h] at hfin ⊢
    exact Run.counted_of_no_rounds rfl hfin
  | ok e =>
    cases hroot : e.endpointRoot with
    | some x =>
      rw [solve_of_endpointRoot h hroot] at hfin ⊢
      exact Run.counted_of_no_rounds rfl hfin
    | none =>
      have hcalls : (rule.solve f b cap p).Protocol f p cap
          ((rule.solve f b cap p).observations.map Observation.previous) :=
        Transcript.protocol (solve_transcript hrule b hcap)
          fun o ho => List.mem_map_of_mem (List.mem_of_head? ho)
      rw [solve_of_opened h hroot] at hfin hcalls ⊢
      obtain ⟨hlen, hnum⟩ := rule.iteration.run_counted f p hcap [.value b.lo, .value b.hi]
        (rule.start e)
      exact hcalls.counted hlen hfin hnum

theorem Method.solve_counted (method : Method) (b : Bracket) (hcap : cap.toNat + 1 < 2 ^ 64) :
    (method.solve f b cap p).Counted cap := by
  rw [method.solve_eq]
  exact (Rule.solve_counted method.rule_sequential b hcap).map _

theorem OpenMethod.solve_counted (d : OpenMethod) (start : Float) (hcap : cap.toNat + 1 < 2 ^ 64) :
    (d.solve f start cap p).Counted cap := by
  have hcalls := d.solve_protocol (f := f) (p := p) start hcap
  unfold solve at hcalls ⊢
  dsimp only at hcalls ⊢
  split
  · exact Run.counted_of_no_rounds rfl (by rintro ⟨⟩)
  · split
    · exact Run.counted_of_no_rounds rfl (by rintro ⟨⟩)
    · split
      · exact Run.counted_of_no_rounds rfl (by rintro ⟨⟩)
      · rename_i hstart hfinite hzero
        rw [if_neg hstart, if_neg hfinite, if_neg hzero] at hcalls
        obtain ⟨hlen, hnum⟩ := d.iteration.run_counted f p hcap [.value start] ⟨start, f start⟩
        exact hcalls.counted hlen (d.iteration.run_finishes f p hcap _ _) hnum

end

/-- A cap below the greatest count ends the runs of all five solvers, with any function, policy and
start, and no budget that goes beyond the cap changes a run. -/
theorem solvers_stop_at_cap (f : Float → Float) (p : Policy) {cap : UInt64}
    (hcap : cap.toNat + 1 < 2 ^ 64) :
    (∀ (method : Method) (b : Bracket), (method.solve f b cap p).Counted cap) ∧
    (∀ (d1 : Float → Float) (start : Float), (newton f d1 start cap p).Counted cap) ∧
    (∀ (d1 d2 : Float → Float) (start : Float), (halley f d1 d2 start cap p).Counted cap) ∧
    ∀ {σ : Type} (m : Iteration σ) (opening : List Query) (s : σ) (budget : Nat),
      cap.toNat < budget →
        m.runWithin f p cap budget opening s = m.run f p cap opening s :=
  ⟨fun method b => method.solve_counted b hcap,
    fun d1 start => (newtonMethod d1).solve_counted start hcap,
    fun d1 d2 start => (halleyMethod d1 d2).solve_counted start hcap,
    fun m opening s _ hbudget => m.runWithin_eq_run f p hcap hbudget opening s⟩

/-- A run of two rounds that stays at 1, where the function has the value 1. -/
theorem solvers_stop_at_cap_of_one :
    (2 : UInt64).toNat + 1 < 2 ^ 64 ∧
      (newton (fun _ => 1) (fun _ => 1e20) 1 2 .never).rounds.length = 2 ∧
      (newton (fun _ => 1) (fun _ => 1e20) 1 2 .never).Counted 2 := by
  have hcap : (2 : UInt64).toNat + 1 < 2 ^ 64 := by decide
  exact ⟨hcap, by decide +kernel,
    (solvers_stop_at_cap (fun _ => 1) .never hcap).2.1 (fun _ => 1e20) 1⟩

/-! ## The greatest count -/

/-- The greatest value of a counter. -/
def greatestCount : UInt64 := 0xffffffffffffffff

theorem le_greatestCount (i : UInt64) : i ≤ greatestCount :=
  UInt64.le_iff_toNat_le.2 (Nat.le_of_lt_succ i.toNat_lt)

/-- The run has more rounds than a counter can number and no end. -/
structure Run.Overruns (run : Run σ) : Prop where
  lt_length : greatestCount.toNat < run.rounds.length
  asked_zero : ∃ o ∈ run.observations, o.iteration = 0
  unfinished : run.outcome = .unfinished

theorem Run.Overruns.map {run : Run σ} (h : run.Overruns) (g : σ → τ) : (run.map g).Overruns where
  lt_length := by
    rw [Run.map, List.length_map]
    exact h.lt_length
  asked_zero := by
    rw [observations_map]
    exact h.asked_zero
  unfinished := h.unfinished

namespace Iteration

variable {m : Iteration σ} {f : Float → Float} {p : Policy} {i : UInt64} {s : σ} {P : σ → Prop}

/-- The cap of greatest count never ends a loop whose rounds all ask for another one. -/
theorem loop_endless
    (hgo : ∀ {i s r next}, P s → m.Step f p i s r next → ∃ t, next = .go t ∧ P t)
    (budget : Nat) (hs : P s) :
    (m.loop f p greatestCount budget i s []).1.length = budget ∧
      (m.loop f p greatestCount budget i s []).2 = .unfinished := by
  induction budget generalizing i s with
  | zero => exact ⟨rfl, rfl⟩
  | succ budget ih =>
    have hstep := m.round_step f p i s
    cases hround : m.round f p i s with
    | mk r next =>
      rw [hround] at hstep
      obtain ⟨t, rfl, ht⟩ := hgo hs hstep
      obtain ⟨hlen, hout⟩ := ih (i := i + 1) ht
      rw [loop_of_go (le_greatestCount i) hround, List.length_cons, hlen]
      exact ⟨rfl, hout⟩

theorem Step.observation_of_go {r : Round σ} {t : σ} (h : m.Step f p i s r (.go t)) :
    ∃ o, r.observation = some o ∧ o.iteration = r.iteration := by
  cases h with
  | rejected => exact ⟨_, rfl, rfl⟩

/-- The round with the index `greatestCount` has the number 0. -/
theorem run_overruns
    (hgo : ∀ {i s r next}, P s → m.Step f p i s r next → ∃ t, next = .go t ∧ P t)
    (opening : List Query) (hs : P s) : (m.run f p greatestCount opening s).Overruns := by
  obtain ⟨hlen, hout⟩ : (m.run f p greatestCount opening s).rounds.length =
      greatestCount.toNat + 1 ∧ (m.run f p greatestCount opening s).outcome = .unfinished :=
    loop_endless (i := 1) hgo (greatestCount.toNat + 1) hs
  have hlt : greatestCount.toNat < (m.run f p greatestCount opening s).rounds.length := by
    rw [hlen]
    exact Nat.lt_succ_self _
  refine ⟨hlt, ?_, hout⟩
  have hrun := m.run_course f p greatestCount opening s
  have hlast := List.getElem?_eq_getElem hlt
  obtain ⟨i, t, next, ht, hstep⟩ := hrun.rounds (P := P)
    (fun {i s r t} hs hstep => by
      obtain ⟨t', heq, ht'⟩ := hgo hs hstep
      cases heq
      exact ht') hs _ (List.mem_of_getElem? hlast)
  obtain ⟨u, rfl, -⟩ := hgo ht hstep
  obtain ⟨o, ho, hnumber⟩ := hstep.observation_of_go
  refine ⟨o, List.mem_filterMap.2 ⟨_, List.mem_of_getElem? hlast, ho⟩, ?_⟩
  rw [hnumber, hrun.numbered hlast]
  rfl

end Iteration

/-- Where no value ends a run, and no policy, every round asks for another one. -/
theorem Rule.go_of_never {μ : Type} {rule : Rule μ} {f : Float → Float}
    (hfin : ∀ x, (f x).isFinite = true) (hne : ∀ x, (f x == 0) = false) {i : UInt64}
    {s : Pursuit μ} {r : Round (Pursuit μ)} {next : Iteration.Next (Pursuit μ)}
    (h : rule.iteration.Step f .never i s r next) : ∃ t, next = .go t := by
  cases h with
  | refused hx => cases hx
  | nonFinite hx hfx => cases (hfin _).symm.trans hfx
  | zero hx hfx hz => cases (hne _).symm.trans hz
  | accepted hx hfx hz ha => cases ha
  | rejected => exact ⟨_, rfl⟩

/-- The function has the value 1 everywhere, and the step from 1 is lost in rounding. -/
theorem OpenMethod.run_overruns {d : OpenMethod}
    (hstable : (d.correction ⟨1, 1⟩).isUnstable = false)
    (hlost : 1 - (d.correction ⟨1, 1⟩).quotient = 1) :
    (d.solve (fun _ => 1) 1 greatestCount .never).Overruns := by
  have hone (i : UInt64) : d.iteration.propose i ⟨1, 1⟩ = .ok 1 := by
    simp only [iteration, hstable, hlost, Bool.false_eq_true, if_false]
    rfl
  have hopen : d.solve (fun _ => 1) 1 greatestCount .never =
      d.iteration.run (fun _ => 1) .never greatestCount [.value 1] ⟨1, 1⟩ := rfl
  rw [hopen]
  refine Iteration.run_overruns (P := fun s => s = ⟨1, 1⟩) ?_ _ rfl
  rintro i s r next rfl hstep
  cases hstep with
  | refused hx => cases hx.symm.trans (hone i)
  | nonFinite hx hfx => cases hfx
  | zero hx hfx hz => cases hz
  | accepted hx hfx hz ha => cases ha
  | rejected hx =>
    cases hx.symm.trans (hone i)
    exact ⟨_, rfl, rfl⟩

/-- With the greatest count as its cap no solver ends on a function that gives it no reason to: the
bracketing methods on one that jumps over zero, the open methods on one with a steep slope. -/
theorem solvers_overrun_greatestCount :
    (∀ method : Method, (method.solve (fun x => if x < 0 then -1 else 1)
      ⟨⟨-1, 1⟩, rfl, rfl, by decide⟩ greatestCount .never).Overruns) ∧
    (newton (fun _ => 1) (fun _ => 1e20) 1 greatestCount .never).Overruns ∧
    (halley (fun _ => 1) (fun _ => 1e20) (fun _ => 0) 1 greatestCount .never).Overruns := by
  refine ⟨fun method => ?_, OpenMethod.run_overruns (by decide +kernel) (by decide +kernel),
    OpenMethod.run_overruns (by decide +kernel) (by decide +kernel)⟩
  have hopen : (Enclosure.ofBracket (fun x => if x < 0 then -1 else 1)
      ⟨⟨-1, 1⟩, rfl, rfl, by decide⟩).result = .ok ⟨⟨-1, 1⟩, -1, 1⟩ := rfl
  rw [method.solve_eq, Rule.solve_of_opened hopen rfl]
  refine (Iteration.run_overruns (P := fun _ => True) (fun _ hstep => ?_) _ trivial).map _
  have hgo := Rule.go_of_never (fun x => ?_) (fun x => ?_) hstep
  · exact hgo.imp fun _ h => ⟨h, trivial⟩
  · split <;> rfl
  · split <;> rfl

end ZeroSearch
