import Mathlib
import ZeroSearch.Iteration

/-!
# The course of an iteration

What one round can do (`Iteration.Step`), and what a whole run is made of: rounds, each from the
state that the one before left, and an ending. A run is a course for every budget
(`Iteration.loop_course`), so what a round preserves holds at the head of every round and in the
state that the cap stops. A cap that the counter can pass ends every run (`run_finishes`).
-/

namespace ZeroSearch

/-- Every round begins with the state that the one before left, and the first with `s`. -/
structure Run.Linked {σ : Type} (s : σ) (run : Run σ) : Prop where
  first : ∀ r ∈ run.rounds.head?, r.before = s
  next : run.rounds.IsChain fun r q => r.after = some q.before

theorem Run.Linked.map {σ τ : Type} {s : σ} {run : Run σ} (h : run.Linked s) (g : σ → τ) :
    (run.map g).Linked (g s) := by
  constructor
  · intro r hr
    rw [Run.map, List.head?_map, Option.mem_map] at hr
    obtain ⟨q, hq, rfl⟩ := hr
    exact congrArg g (h.first q hq)
  · refine (List.isChain_map (Round.map g)).2 (h.next.imp fun r q hrq => ?_)
    rw [Round.map, Round.map, hrq, Option.map_some]

theorem Run.queries_mono {σ : Type} {run long : Run σ} (hopening : run.opening = long.opening)
    (h : run.rounds <+: long.rounds) : run.queries <+: long.queries := by
  rw [queries, queries, hopening]
  exact (List.prefix_append_right_inj _).2 (h.flatMap _)

theorem Run.observations_mono {σ : Type} {run long : Run σ} (h : run.rounds <+: long.rounds) :
    run.observations <+: long.observations := h.filterMap _

namespace Iteration

variable {σ : Type} {m : Iteration σ} {f g : Float → Float} {p : Policy} {i cap : UInt64}
  {s t : σ} {r : Round σ} {next : Next σ} {rs : List (Round σ)} {o : Outcome}

/-! ## One round -/

/-- The five ways a round can go. Only the last two put an observation to the policy. -/
inductive Step (m : Iteration σ) (f : Float → Float) (p : Policy) (i : UInt64) (s : σ) :
    Round σ → Next σ → Prop where
  | refused {fault : Fault} : m.propose i s = .error fault →
      Step m f p i s ⟨i, s, m.queries s, none, none⟩ (.stop (.failed fault))
  | nonFinite {x : Float} : m.propose i s = .ok x → (f x).isFinite = false →
      Step m f p i s ⟨i, s, m.queries s ++ [.value x], none, none⟩
        (.stop (.failed (.nonFinite i x)))
  | zero {x : Float} : m.propose i s = .ok x → (f x).isFinite = true → (f x == 0) = true →
      Step m f p i s ⟨i, s, m.queries s ++ [.value x], none, none⟩ (.stop (.found ⟨x, i, 0⟩))
  | accepted {x : Float} : m.propose i s = .ok x → (f x).isFinite = true → (f x == 0) = false →
      p.accepts ⟨m.previous i s x, x, f x, i⟩ = true →
      Step m f p i s
        ⟨i, s, m.queries s ++ [.value x], some ⟨m.previous i s x, x, f x, i⟩,
          some (m.absorb s x (f x))⟩
        (.stop (.found ⟨x, i, (f x).abs⟩))
  | rejected {x : Float} : m.propose i s = .ok x → (f x).isFinite = true → (f x == 0) = false →
      p.accepts ⟨m.previous i s x, x, f x, i⟩ = false →
      Step m f p i s
        ⟨i, s, m.queries s ++ [.value x], some ⟨m.previous i s x, x, f x, i⟩,
          some (m.absorb s x (f x))⟩
        (.go (m.absorb s x (f x)))

theorem round_step (m : Iteration σ) (f : Float → Float) (p : Policy) (i : UInt64) (s : σ) :
    m.Step f p i s (m.round f p i s).1 (m.round f p i s).2 := by
  unfold round
  cases hx : m.propose i s with
  | error fault => exact .refused hx
  | ok x =>
    cases hfin : (f x).isFinite with
    | false =>
      simp only [hfin, Bool.not_false, if_true]
      exact .nonFinite hx hfin
    | true =>
      cases hz : f x == 0 with
      | true =>
        simp only [hfin, hz, Bool.not_true, Bool.false_eq_true, if_false, if_true]
        exact .zero hx hfin hz
      | false =>
        cases ha : p.accepts ⟨m.previous i s x, x, f x, i⟩ with
        | true =>
          simp only [hfin, hz, ha, Bool.not_true, Bool.false_eq_true, if_false, if_true]
          exact .accepted hx hfin hz ha
        | false =>
          simp only [hfin, hz, ha, Bool.not_true, Bool.false_eq_true, if_false]
          exact .rejected hx hfin hz ha

theorem Step.before_eq (h : m.Step f p i s r next) : r.before = s := by cases h <;> rfl

/-- A run goes on from the state that the round left. -/
theorem Step.after_of_go (h : m.Step f p i s r (.go t)) : r.after = some t := by cases h; rfl

theorem Step.iteration_eq (h : m.Step f p i s r next) : r.iteration = i := by cases h <;> rfl

/-- A round leaves a state exactly if it puts an observation to the policy, and it does so unless
there is no point to evaluate or the value there ends the run. -/
theorem Step.completed (h : m.Step f p i s r next) :
    ((∀ x, m.propose i s = .ok x → (f x).isFinite = false ∨ (f x == 0) = true) ∧
        r.observation = none ∧ r.after = none) ∨
      ∃ x, m.propose i s = .ok x ∧ (f x).isFinite = true ∧ (f x == 0) = false ∧
        r.observation = some ⟨m.previous i s x, x, f x, i⟩ ∧
        r.after = some (m.absorb s x (f x)) := by
  cases h with
  | refused hx =>
    refine .inl ⟨fun x hx' => ?_, rfl, rfl⟩
    cases hx.symm.trans hx'
  | nonFinite hx hfin =>
    refine .inl ⟨fun x hx' => ?_, rfl, rfl⟩
    cases hx.symm.trans hx'
    exact .inl hfin
  | zero hx hfin hz =>
    refine .inl ⟨fun x hx' => ?_, rfl, rfl⟩
    cases hx.symm.trans hx'
    exact .inr hz
  | accepted hx hfin hz => exact .inr ⟨_, hx, hfin, hz, rfl, rfl⟩
  | rejected hx hfin hz => exact .inr ⟨_, hx, hfin, hz, rfl, rfl⟩

/-- A run ends with the first observation that the policy accepts. -/
theorem Step.of_accepts (h : m.Step f p i s r next) {obs : Observation}
    (hobs : r.observation = some obs) (ha : p.accepts obs = true) :
    next = .stop (.found ⟨obs.current, i, obs.value.abs⟩) := by
  cases h with
  | refused => cases hobs
  | nonFinite => cases hobs
  | zero => cases hobs
  | accepted =>
    cases hobs
    rfl
  | rejected hx hfin hz hr =>
    cases hobs
    rw [ha] at hr
    cases hr

/-! ## Runs -/

/-- The rounds from iteration `i` and state `s` on, and how they end. -/
inductive Course (m : Iteration σ) (f : Float → Float) (p : Policy) (cap : UInt64) :
    UInt64 → σ → List (Round σ) → Outcome → Prop where
  | cut {i : UInt64} {s : σ} : Course m f p cap i s [] .unfinished
  | capped {i : UInt64} {s : σ} : ¬ i ≤ cap →
      Course m f p cap i s [] (.failed (.iterationsExceeded cap (m.latest s)))
  | last {i : UInt64} {s : σ} {r : Round σ} {o : Outcome} : i ≤ cap →
      m.Step f p i s r (.stop o) → Course m f p cap i s [r] o
  | next {i : UInt64} {s t : σ} {r : Round σ} {rs : List (Round σ)} {o : Outcome} : i ≤ cap →
      m.Step f p i s r (.go t) → Course m f p cap (i + 1) t rs o → Course m f p cap i s (r :: rs) o

theorem loop_of_capped (h : ¬ i ≤ cap) (budget : Nat) :
    m.loop f p cap (budget + 1) i s [] = ([], .failed (.iterationsExceeded cap (m.latest s))) := by
  rw [loop, if_neg h]
  rfl

theorem loop_of_stop (h : i ≤ cap) (hround : m.round f p i s = (r, .stop o)) (budget : Nat) :
    m.loop f p cap (budget + 1) i s [] = ([r], o) := by
  rw [loop, if_pos h, hround]
  rfl

theorem loop_of_go (h : i ≤ cap) (hround : m.round f p i s = (r, .go t)) (budget : Nat) :
    m.loop f p cap (budget + 1) i s [] =
      (r :: (m.loop f p cap budget (i + 1) t []).1, (m.loop f p cap budget (i + 1) t []).2) := by
  rw [loop, if_pos h, hround]
  dsimp only
  rw [loop_past]
  rfl

theorem loop_course (m : Iteration σ) (f : Float → Float) (p : Policy) (cap : UInt64)
    (budget : Nat) (i : UInt64) (s : σ) :
    m.Course f p cap i s (m.loop f p cap budget i s []).1 (m.loop f p cap budget i s []).2 := by
  induction budget generalizing i s with
  | zero => exact .cut
  | succ budget ih =>
    by_cases hi : i ≤ cap
    · have hstep := m.round_step f p i s
      cases hround : m.round f p i s with
      | mk r next =>
        rw [hround] at hstep
        cases next with
        | stop o =>
          rw [loop_of_stop hi hround]
          exact .last hi hstep
        | go t =>
          rw [loop_of_go hi hround]
          exact .next hi hstep (ih (i + 1) t)
    · rw [loop_of_capped hi]
      exact .capped hi

theorem run_course (m : Iteration σ) (f : Float → Float) (p : Policy) (cap : UInt64)
    (opening : List Query) (s : σ) :
    m.Course f p cap 1 s (m.run f p cap opening s).rounds (m.run f p cap opening s).outcome :=
  m.loop_course f p cap (cap.toNat + 1) 1 s

/-- What a round preserves of the rounds before it, its number and its state holds where any round
begins. -/
theorem Course.history {P : List (Round σ) → UInt64 → σ → Prop}
    (hP : ∀ {past i s r t}, P past i s → i ≤ cap → m.Step f p i s r (.go t) →
      P (past ++ [r]) (i + 1) t)
    (h : m.Course f p cap i s rs o) (past : List (Round σ)) (hs : P past i s) {n : Nat}
    (hn : rs[n]? = some r) : ∃ i s next, P (past ++ rs.take n) i s ∧ m.Step f p i s r next := by
  induction h generalizing past n with
  | cut => cases hn
  | capped => cases hn
  | last hi hstep =>
    obtain ⟨rfl, rfl⟩ : n = 0 ∧ _ = r := by simpa [List.getElem?_singleton] using hn
    exact ⟨_, _, _, by rwa [List.take_zero, List.append_nil], hstep⟩
  | @next i s t q rs o hi hstep hrest ih =>
    cases n with
    | zero =>
      cases hn
      exact ⟨_, _, _, by rwa [List.take_zero, List.append_nil], hstep⟩
    | succ n =>
      obtain ⟨j, u, next, hu, hstep'⟩ := ih _ (hP hs hi hstep) hn
      refine ⟨j, u, next, ?_, hstep'⟩
      rwa [List.append_assoc, List.singleton_append, ← List.take_succ_cons] at hu

/-- What every round preserves holds where any round begins. -/
theorem Course.rounds {P : σ → Prop}
    (hP : ∀ {i s r t}, P s → m.Step f p i s r (.go t) → P t)
    (h : m.Course f p cap i s rs o) (hs : P s) :
    ∀ r ∈ rs, ∃ i s next, P s ∧ m.Step f p i s r next := by
  intro r hr
  obtain ⟨n, hn⟩ := List.mem_iff_getElem?.1 hr
  exact h.history (P := fun _ _ s => P s) (fun hs _ hstep => hP hs hstep) [] hs hn

/-- A run is cut off, stopped by the cap, or ended by one of its rounds. -/
theorem Course.ending {P : σ → Prop}
    (hP : ∀ {i s r t}, P s → m.Step f p i s r (.go t) → P t)
    (h : m.Course f p cap i s rs o) (hs : P s) :
    o = .unfinished ∨ (∃ t, P t ∧ o = .failed (.iterationsExceeded cap (m.latest t))) ∨
      ∃ r ∈ rs, ∃ i s, P s ∧ m.Step f p i s r (.stop o) := by
  induction h with
  | cut => exact .inl rfl
  | capped hi => exact .inr (.inl ⟨_, hs, rfl⟩)
  | last hi hstep => exact .inr (.inr ⟨_, List.mem_singleton_self _, _, _, hs, hstep⟩)
  | next hi hstep hrest ih =>
    obtain h | h | ⟨r, hr, h⟩ := ih (hP hs hstep)
    · exact .inl h
    · exact .inr (.inl h)
    · exact .inr (.inr ⟨r, List.mem_cons_of_mem _ hr, h⟩)

theorem Course.head_before (h : m.Course f p cap i s rs o) : ∀ r ∈ rs.head?, r.before = s := by
  intro r hr
  cases h with
  | cut => cases hr
  | capped => cases hr
  | last hi hstep =>
    cases hr
    exact hstep.before_eq
  | next hi hstep hrest =>
    cases hr
    exact hstep.before_eq

/-- Every round begins with the state that the one before left. -/
theorem Course.linked (h : m.Course f p cap i s rs o) :
    rs.IsChain fun r q => r.after = some q.before := by
  induction h with
  | cut => exact .nil
  | capped => exact .nil
  | last => exact .singleton _
  | next hi hstep hrest ih =>
    refine List.isChain_cons.2 ⟨fun q hq => ?_, ih⟩
    rw [hstep.after_of_go, hrest.head_before q hq]

theorem run_linked (m : Iteration σ) (f : Float → Float) (p : Policy) (cap : UInt64)
    (opening : List Query) (s : σ) : (m.run f p cap opening s).Linked s :=
  ⟨(m.run_course f p cap opening s).head_before, (m.run_course f p cap opening s).linked⟩

theorem Course.outcome_of_accepts (h : m.Course f p cap i s rs o) (hr : r ∈ rs)
    {obs : Observation} (hobs : r.observation = some obs) (ha : p.accepts obs = true) :
    o = .found ⟨obs.current, r.iteration, obs.value.abs⟩ := by
  induction h with
  | cut => cases hr
  | capped => cases hr
  | last hi hstep =>
    rw [List.mem_singleton] at hr
    subst hr
    cases hstep.of_accepts hobs ha
    rw [hstep.iteration_eq]
  | next hi hstep hrest ih =>
    obtain rfl | hr := List.mem_cons.1 hr
    · cases hstep.of_accepts hobs ha
    · exact ih hr

/-! ## Budgets -/

theorem toNat_succ (h : i.toNat + 1 < 2 ^ 64) : (i + 1).toNat = i.toNat + 1 := by
  rw [UInt64.toNat_add, UInt64.toNat_one]
  omega

theorem Step.ne_unfinished (h : m.Step f p i s r (.stop o)) : o ≠ .unfinished := by
  cases h <;> exact fun h => by cases h

theorem loop_finishes (hcap : cap.toNat + 1 < 2 ^ 64) {budget : Nat}
    (hi : i.toNat ≤ cap.toNat + 1) (hbudget : cap.toNat + 1 < i.toNat + budget) (s : σ) :
    (m.loop f p cap budget i s []).2 ≠ .unfinished := by
  induction budget generalizing i s with
  | zero => omega
  | succ budget ih =>
    by_cases hle : i ≤ cap
    · have hstep := m.round_step f p i s
      cases hround : m.round f p i s with
      | mk r next =>
        rw [hround] at hstep
        cases next with
        | stop o =>
          rw [loop_of_stop hle hround]
          exact hstep.ne_unfinished
        | go t =>
          have hle' : i.toNat ≤ cap.toNat := UInt64.le_iff_toNat_le.1 hle
          have hsucc := toNat_succ (i := i) (by omega)
          rw [loop_of_go hle hround]
          exact ih (by omega) (by omega) t
    · rw [loop_of_capped hle]
      exact fun h => by cases h

/-- The budget of a run is enough for every cap that the counter can pass. -/
theorem run_finishes (m : Iteration σ) (f : Float → Float) (p : Policy)
    (hcap : cap.toNat + 1 < 2 ^ 64) (opening : List Query) (s : σ) :
    (m.run f p cap opening s).outcome ≠ .unfinished := by
  have hone : (1 : UInt64).toNat = 1 := rfl
  show (m.loop f p cap (cap.toNat + 1) 1 s []).2 ≠ .unfinished
  exact loop_finishes hcap (by omega) (by omega) s

/-- Let `P n i s` say that after iteration `i` at most `n` more are needed. Then there is a root, and
every cap that leaves room for its iterations gives it. -/
theorem loop_finds {P : Nat → UInt64 → σ → Prop}
    (hgo : ∀ {n i s r t}, P n i s → i.toNat + n < 2 ^ 64 → m.Step f p i s r (.go t) →
      ∃ k < n, P k (i + 1) t)
    (hstop : ∀ {n i s r o}, P n i s → m.Step f p i s r (.stop o) →
      ∃ root, o = .found root ∧ root.iterations = i)
    {n : Nat} (hs : P n i s) (hroom : i.toNat + n < 2 ^ 64) :
    ∃ root : Root, i.toNat ≤ root.iterations.toNat ∧ root.iterations.toNat ≤ i.toNat + n ∧
      ∀ cap budget, root.iterations ≤ cap → cap.toNat + 1 < i.toNat + budget →
        (m.loop f p cap budget i s []).2 = .found root := by
  induction n using Nat.strong_induction_on generalizing i s with
  | h n ih =>
    have hstep := m.round_step f p i s
    cases hround : m.round f p i s with
    | mk r next =>
      rw [hround] at hstep
      cases next with
      | stop o =>
        obtain ⟨root, rfl, rfl⟩ := hstop hs hstep
        refine ⟨root, le_rfl, Nat.le_add_right _ _, fun cap budget hcap hbudget => ?_⟩
        have hcap' := UInt64.le_iff_toNat_le.1 hcap
        obtain ⟨budget, rfl⟩ := Nat.exists_eq_add_of_lt (show 0 < budget by omega)
        rw [Nat.zero_add, loop_of_stop hcap hround]
      | go t =>
        obtain ⟨k, hk, ht⟩ := hgo hs hroom hstep
        have hsucc := toNat_succ (i := i) (by omega)
        obtain ⟨root, hge, hle, hfound⟩ := ih k hk ht (by omega)
        refine ⟨root, by omega, by omega, fun cap budget hcap hbudget => ?_⟩
        have hcap' := UInt64.le_iff_toNat_le.1 hcap
        obtain ⟨budget, rfl⟩ := Nat.exists_eq_add_of_lt (show 0 < budget by omega)
        rw [Nat.zero_add, loop_of_go (UInt64.le_iff_toNat_le.2 (by omega)) hround]
        exact hfound cap budget hcap (by omega)

theorem run_finds {P : Nat → UInt64 → σ → Prop}
    (hgo : ∀ {n i s r t}, P n i s → i.toNat + n < 2 ^ 64 → m.Step f p i s r (.go t) →
      ∃ k < n, P k (i + 1) t)
    (hstop : ∀ {n i s r o}, P n i s → m.Step f p i s r (.stop o) →
      ∃ root, o = .found root ∧ root.iterations = i)
    {n : Nat} (hs : P n 1 s) (hroom : n + 1 < 2 ^ 64) (opening : List Query) :
    ∃ root : Root, root.iterations.toNat ≤ n + 1 ∧
      ∀ cap, root.iterations ≤ cap → (m.run f p cap opening s).outcome = .found root := by
  have hone : (1 : UInt64).toNat = 1 := rfl
  obtain ⟨root, -, hle, hfound⟩ := loop_finds hgo hstop hs (by omega)
  refine ⟨root, by omega, fun cap hcap => ?_⟩
  exact hfound cap (cap.toNat + 1) hcap (by omega)

/-! ## Dependence on the function -/

/-- Functions that agree wherever a run can look give the same run. -/
theorem loop_congr {P : σ → Prop}
    (hP : ∀ {i s r t}, P s → m.Step f p i s r (.go t) → P t)
    (hfg : ∀ {i s x}, P s → m.propose i s = .ok x → f x = g x)
    (budget : Nat) (hs : P s) (past : List (Round σ)) :
    m.loop f p cap budget i s past = m.loop g p cap budget i s past := by
  induction budget generalizing i s past with
  | zero => rfl
  | succ budget ih =>
    have hround : m.round f p i s = m.round g p i s := by
      unfold round
      cases hx : m.propose i s with
      | error fault => rfl
      | ok x => simp only [hfg hs hx]
    rw [loop, loop, ← hround]
    have hstep := m.round_step f p i s
    generalize m.round f p i s = result at hstep ⊢
    obtain ⟨r, o | t⟩ := result
    · rfl
    · dsimp only
      rw [ih (hP hs hstep)]

theorem run_congr {P : σ → Prop}
    (hP : ∀ {i s r t}, P s → m.Step f p i s r (.go t) → P t)
    (hfg : ∀ {i s x}, P s → m.propose i s = .ok x → f x = g x)
    (hs : P s) (opening : List Query) :
    m.run f p cap opening s = m.run g p cap opening s := by
  unfold run runWithin
  rw [loop_congr hP hfg _ hs]

end Iteration

end ZeroSearch
