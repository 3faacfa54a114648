import Mathlib
import ZeroSearch.Policy

/-!
# Lazy policies

A test may do more than answer: one that a caller made can count its calls or write down what it is
shown. So the places in the tree at which an observation arrives, and their order, can be seen from
outside (`Policy.reached`). `Policy.consult` evaluates a tree leaf by leaf, with anything done at a
leaf before it answers. What it does is what the reached leaves do, one after the other, and what it
answers is the value of the tree (`Policy.consult_eq`). A leaf that is not reached has no part in
it: any policy can stand in its place (`Policy.graft_agrees`).
-/

namespace ZeroSearch

/-! ## Places -/

inductive Operand where
  | first
  | second
  deriving DecidableEq

/-- The way down from the root of a tree. -/
abbrev Place := List Operand

/-- Some policy has `π` in its first operand and `ρ` in its second one. -/
def Place.LeftOf (π ρ : Place) : Prop := ∃ τ : Place, τ ++ [.first] <+: π ∧ τ ++ [.second] <+: ρ

/-- A test with its place. The same test may stand at several places of a tree. -/
structure Leaf where
  place : Place
  test : Criterion

/-- The leaf of an operand as a leaf of the whole policy. -/
def Leaf.under (d : Operand) (l : Leaf) : Leaf := ⟨d :: l.place, l.test⟩

namespace Place

variable {π ρ : Place}

theorem LeftOf.cons (h : LeftOf π ρ) (d : Operand) : LeftOf (d :: π) (d :: ρ) := by
  obtain ⟨τ, hfirst, hsecond⟩ := h
  exact ⟨d :: τ, List.cons_prefix_cons.2 ⟨rfl, hfirst⟩, List.cons_prefix_cons.2 ⟨rfl, hsecond⟩⟩

theorem leftOf_of_operands (π ρ : Place) : LeftOf (.first :: π) (.second :: ρ) :=
  ⟨[], ⟨π, rfl⟩, ⟨ρ, rfl⟩⟩

theorem LeftOf.ne (h : LeftOf π ρ) : π ≠ ρ := by
  rintro rfl
  obtain ⟨τ, hfirst, hsecond⟩ := h
  have hpre := List.prefix_of_prefix_length_le hfirst hsecond (by simp)
  have heq := hpre.eq_of_length (by simp)
  simp at heq

/-- The policies that have a place in their second operand: the root, if the way starts there, and
those further down. -/
theorem forall_second_cons {P : Place → Prop} {d : Operand} :
    (∀ τ : Place, τ ++ [.second] <+: d :: π → P τ) ↔
      (d = .second → P []) ∧ ∀ τ : Place, τ ++ [.second] <+: π → P (d :: τ) := by
  constructor
  · intro h
    refine ⟨?_, fun τ hτ => h (d :: τ) (List.cons_prefix_cons.2 ⟨rfl, hτ⟩)⟩
    rintro rfl
    exact h [] ⟨π, rfl⟩
  · rintro ⟨hroot, hbelow⟩ τ hτ
    cases τ with
    | nil => exact hroot (List.cons_prefix_cons.1 hτ).1.symm
    | cons e τ =>
      obtain ⟨rfl, hrest⟩ := List.cons_prefix_cons.1 hτ
      exact hbelow τ hrest

end Place

@[simp]
theorem Leaf.cons_mem_map_under {d e : Operand} {π : Place} {c : Criterion} {ls : List Leaf} :
    (⟨d :: π, c⟩ : Leaf) ∈ ls.map (under e) ↔ e = d ∧ ⟨π, c⟩ ∈ ls := by
  rw [List.mem_map]
  constructor
  · rintro ⟨⟨ρ, b⟩, hmem, heq⟩
    cases heq
    exact ⟨rfl, hmem⟩
  · rintro ⟨rfl, hmem⟩
    exact ⟨_, hmem, rfl⟩

@[simp]
theorem Leaf.root_not_mem_map_under {e : Operand} {c : Criterion} {ls : List Leaf} :
    (⟨[], c⟩ : Leaf) ∉ ls.map (under e) := by
  rw [List.mem_map]
  rintro ⟨l, -, heq⟩
  cases heq

theorem Leaf.map_place_under (d : Operand) (ls : List Leaf) :
    (ls.map (under d)).map place = (ls.map place).map (d :: ·) := by
  rw [List.map_map, List.map_map]
  rfl

theorem Leaf.map_test_under (d : Operand) (ls : List Leaf) :
    (ls.map (under d)).map test = ls.map test := by
  rw [List.map_map]
  rfl

section

variable {m : Type → Type} [Monad m]

/-- A leaf that does `act` and then answers as its test does. -/
def Leaf.answerAfter (act : Leaf → Observation → m Unit) (l : Leaf) (o : Observation) : m Bool := do
  act l o
  return l.test.accepts o

theorem Leaf.answerAfter_under (act : Leaf → Observation → m Unit) (d : Operand) :
    (fun l : Leaf => answerAfter act (l.under d)) = answerAfter fun l => act (l.under d) :=
  rfl

end

namespace Policy

/-! ## Leaves -/

/-- The policy at a place of the tree. -/
def subtree? : Policy → Place → Option Policy
  | p, [] => some p
  | test _, _ :: _ => none
  | both p _, .first :: π | either p _, .first :: π => p.subtree? π
  | both _ q, .second :: π | either _ q, .second :: π => q.subtree? π

/-- All leaves, from left to right. -/
def leaves : Policy → List Leaf
  | test c => [⟨[], c⟩]
  | both p q | either p q => p.leaves.map (.under .first) ++ q.leaves.map (.under .second)

/-- The leaves that are put to `o`, in order. -/
def reached : Policy → Observation → List Leaf
  | test c, _ => [⟨[], c⟩]
  | both p q, o =>
    (p.reached o).map (.under .first) ++
      if p.accepts o then (q.reached o).map (.under .second) else []
  | either p q, o =>
    (p.reached o).map (.under .first) ++
      if p.accepts o then [] else (q.reached o).map (.under .second)

/-- The answer of the first operand leaves it to the second one. -/
def PassesOn : Policy → Observation → Prop
  | test _, _ => False
  | both p _, o => p.accepts o = true
  | either p _, o => p.accepts o = false

variable {p : Policy} {o : Observation}

theorem mem_leaves {l : Leaf} : l ∈ p.leaves ↔ p.subtree? l.place = some (.test l.test) := by
  obtain ⟨π, c⟩ := l
  induction p generalizing π with
  | test b => cases π <;> simp [leaves, subtree?, eq_comm]
  | both p q ihp ihq | either p q ihp ihq =>
    match π with
    | [] => simp [leaves, subtree?]
    | .first :: π => simp [leaves, subtree?, ihp]
    | .second :: π => simp [leaves, subtree?, ihq]

theorem pairwise_leaves (p : Policy) : (p.leaves.map Leaf.place).Pairwise Place.LeftOf := by
  induction p with
  | test c => exact List.pairwise_singleton _ _
  | both p q ihp ihq | either p q ihp ihq =>
    rw [leaves, List.map_append, Leaf.map_place_under, Leaf.map_place_under, List.pairwise_append]
    refine ⟨ihp.map _ fun _ _ h => h.cons .first, ihq.map _ fun _ _ h => h.cons .second, ?_⟩
    intro π hπ ρ hρ
    obtain ⟨π, -, rfl⟩ := List.mem_map.1 hπ
    obtain ⟨ρ, -, rfl⟩ := List.mem_map.1 hρ
    exact Place.leftOf_of_operands π ρ

theorem reached_sublist (p : Policy) (o : Observation) : (p.reached o).Sublist p.leaves := by
  induction p with
  | test c => exact List.Sublist.refl _
  | both p q ihp ihq | either p q ihp ihq =>
    rw [reached, leaves]
    refine (ihp.map _).append ?_
    split <;> simp [ihq.map]

theorem nodup_reached (p : Policy) (o : Observation) : ((p.reached o).map Leaf.place).Nodup :=
  (p.pairwise_leaves.imp Place.LeftOf.ne).sublist ((p.reached_sublist o).map _)

theorem mem_reached {l : Leaf} : l ∈ p.reached o ↔ l ∈ p.leaves ∧
    ∀ π : Place, π ++ [.second] <+: l.place → ∃ q, p.subtree? π = some q ∧ q.PassesOn o := by
  obtain ⟨π, c⟩ := l
  induction p generalizing π with
  | test b => cases π <;> simp [reached, leaves]
  | both p q ihp ihq | either p q ihp ihq =>
    match π with
    | [] => cases h : p.accepts o <;> simp [reached, leaves, h]
    | .first :: π =>
      cases h : p.accepts o <;>
        simp [reached, leaves, subtree?, Place.forall_second_cons, ihp, h]
    | .second :: π =>
      cases h : p.accepts o <;>
        simp [reached, leaves, subtree?, Place.forall_second_cons, PassesOn, ihq, h]

theorem map_test_reached (p : Policy) (o : Observation) :
    (p.reached o).map Leaf.test = p.asked o := by
  induction p with
  | test c => rfl
  | both p q ihp ihq | either p q ihp ihq =>
    rw [reached, asked, List.map_append, Leaf.map_test_under, ihp, apply_ite (List.map _),
      Leaf.map_test_under, ihq, List.map_nil]

/-! ## Evaluation -/

section

variable {m : Type → Type} [Monad m]

/-- Evaluates the tree from the left, with `ask` for its leaves. Each leaf is shown the same
observation. -/
def consult : Policy → (Leaf → Observation → m Bool) → Observation → m Bool
  | test c, ask, o => ask ⟨[], c⟩ o
  | both p q, ask, o => do
    if ← p.consult (fun l => ask (l.under .first)) o then
      q.consult (fun l => ask (l.under .second)) o
    else return false
  | either p q, ask, o => do
    if ← p.consult (fun l => ask (l.under .first)) o then return true
    else q.consult (fun l => ask (l.under .second)) o

theorem consult_eq [LawfulMonad m] (p : Policy) (act : Leaf → Observation → m Unit)
    (o : Observation) :
    p.consult (Leaf.answerAfter act) o = do
      (p.reached o).forM fun l => act l o
      return p.accepts o := by
  induction p generalizing act with
  | test c => simp [consult, reached, accepts, Leaf.answerAfter]
  | both p q ihp ihq | either p q ihp ihq =>
    have hp := ihp fun l => act (l.under .first)
    have hq := ihq fun l => act (l.under .second)
    rw [consult, Leaf.answerAfter_under, Leaf.answerAfter_under, hp, hq]
    cases h : p.accepts o <;> simp [reached, accepts, h]

end

/-! ## Replacement -/

/-- A policy in the place of every leaf. -/
def graft : Policy → (Leaf → Policy) → Policy
  | test c, g => g ⟨[], c⟩
  | both p q, g =>
    both (p.graft fun l => g (l.under .first)) (q.graft fun l => g (l.under .second))
  | either p q, g =>
    either (p.graft fun l => g (l.under .first)) (q.graft fun l => g (l.under .second))

/-- It makes no difference what stands in the place of a leaf that is not reached. -/
theorem graft_agrees {g : Leaf → Policy} (h : ∀ l ∈ p.reached o, g l = .test l.test) :
    (p.graft g).accepts o = p.accepts o ∧ (p.graft g).reached o = p.reached o := by
  induction p generalizing g with
  | test c =>
    rw [graft, h ⟨[], c⟩ (List.mem_singleton_self _)]
    exact ⟨rfl, rfl⟩
  | both p q ihp ihq =>
    rw [reached, List.forall_mem_append, List.forall_mem_map] at h
    obtain ⟨hfirst, hsecond⟩ := h
    obtain ⟨haccepts, hreached⟩ := ihp hfirst
    rw [graft, accepts, accepts, reached, reached, haccepts, hreached]
    cases hp : p.accepts o with
    | false => exact ⟨rfl, rfl⟩
    | true =>
      rw [if_pos hp, List.forall_mem_map] at hsecond
      obtain ⟨haccepts, hreached⟩ := ihq hsecond
      rw [haccepts, hreached]
      exact ⟨rfl, rfl⟩
  | either p q ihp ihq =>
    rw [reached, List.forall_mem_append, List.forall_mem_map] at h
    obtain ⟨hfirst, hsecond⟩ := h
    obtain ⟨haccepts, hreached⟩ := ihp hfirst
    rw [graft, accepts, accepts, reached, reached, haccepts, hreached]
    cases hp : p.accepts o with
    | true => exact ⟨rfl, rfl⟩
    | false =>
      rw [hp, if_neg Bool.false_ne_true, List.forall_mem_map] at hsecond
      obtain ⟨haccepts, hreached⟩ := ihq hsecond
      rw [haccepts, hreached]
      exact ⟨rfl, rfl⟩

/-- The tree with other policies for the leaves that `o` does not reach. -/
def replaceUnreached (p : Policy) (o : Observation) (g : Leaf → Policy) : Policy :=
  p.graft fun l => if l.place ∈ (p.reached o).map Leaf.place then test l.test else g l

theorem replaceUnreached_agrees (p : Policy) (o : Observation) (g : Leaf → Policy) :
    (p.replaceUnreached o g).accepts o = p.accepts o ∧
      (p.replaceUnreached o g).reached o = p.reached o :=
  graft_agrees fun _ hl => if_pos (List.mem_map_of_mem hl)

end Policy

/-- What it means that a policy is put to `o` lazily. -/
structure Policy.AsksLazily (p : Policy) (o : Observation) : Prop where
  /-- The evaluation does what the reached leaves do, in order and each once, and its answer is the
  value of the tree. -/
  consults : ∀ {m : Type → Type} [Monad m] [LawfulMonad m] (act : Leaf → Observation → m Unit),
    p.consult (Leaf.answerAfter act) o = do
      (p.reached o).forM fun l => act l o
      return p.accepts o
  asks : (p.reached o).map Leaf.test = p.asked o
  mem_leaves : ∀ l, l ∈ p.leaves ↔ p.subtree? l.place = some (.test l.test)
  leftToRight : (p.leaves.map Leaf.place).Pairwise Place.LeftOf
  sublist : (p.reached o).Sublist p.leaves
  once : ((p.reached o).map Leaf.place).Nodup
  /-- A leaf is reached if, wherever it is in a second operand, the first one passes on. -/
  mem_reached : ∀ l, l ∈ p.reached o ↔ l ∈ p.leaves ∧
    ∀ π : Place, π ++ [.second] <+: l.place → ∃ q, p.subtree? π = some q ∧ q.PassesOn o
  replaced : ∀ g : Leaf → Policy,
    (p.replaceUnreached o g).accepts o = p.accepts o ∧
      (p.replaceUnreached o g).reached o = p.reached o

/-- Every policy is put to every observation lazily. -/
theorem policies_ask_lazily (p : Policy) (o : Observation) : p.AsksLazily o where
  consults act := p.consult_eq act o
  asks := p.map_test_reached o
  mem_leaves _ := Policy.mem_leaves
  leftToRight := p.pairwise_leaves
  sublist := p.reached_sublist o
  once := p.nodup_reached o
  mem_reached _ := Policy.mem_reached
  replaced g := p.replaceUnreached_agrees o g

/-- The step is too long, the value is within 0.125 of zero and the iteration is not the seventh, so
four tests are asked. The fifth is not, and could be one that accepts everything. -/
theorem policies_ask_lazily_of_nested :
    let seventh : Policy := .test (.custom none fun o => o.iteration == 7)
    let p : Policy := .either (.both (.combined 0.25 0.125) seventh) ({} : Settings).policy
    let o : Observation := ⟨1, 2, 0.0625, 3⟩
    ((p.consult (m := StateM (List Place))
        (Leaf.answerAfter fun l _ => modify (· ++ [l.place])) o).run []).run =
      (false, [[.first, .first, .first], [.first, .first, .second], [.first, .second],
        [.second, .first]]) ∧
    p.leaves.length = 5 ∧
    (p.replaceUnreached o fun _ => .test (.custom none fun _ => true)).accepts o = false := by
  intro seventh p o
  have hlazy := policies_ask_lazily p o
  refine ⟨?_, rfl, ?_⟩
  · rw [hlazy.consults]
    decide +kernel
  · rw [(hlazy.replaced _).1]
    decide +kernel

end ZeroSearch
