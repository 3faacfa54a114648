import Mathlib
import ZeroSearch.Proofs.Boundaries
import ZeroSearch.Proofs.Entries
import ZeroSearch.Proofs.Legs
import ZeroSearch.Session

/-!
# Cursors in a session

Any number of cursors, started, advanced and copied in any order. A `Ledger` keeps an account for
each name: how often its cursor was advanced since its pass was started, and which boundaries were
evaluated for that; a copy takes both over. Nothing else enters an account, and it tells where the
cursor stands: after `n` advances at bracket number `n` of the pass or at the end, with the boundaries
evaluated that lead up to that bracket and none beyond it (`cursors_stand_in_pass`).

The cursors of a pass are those of its legs, so the proof is that the cursor under each name is the
one of leg number `n` (`Ledger.Balanced`), and that legs come upon the brackets in order
(`Grid.current_leg`).
-/

namespace ZeroSearch

variable {g : Grid} {f : Float → Float}

/-! ## Legs and brackets -/

namespace Grid

variable {n : Nat}

/-- Advancing at the end stays there and evaluates nothing. -/
theorem advance_leg_of_none (h : (g.leg f n).cursor.current = none) :
    (g.leg f n).cursor.advance f = ⟨[], (g.leg f n).cursor⟩ := by
  have hend : ¬ (g.leg f n).cursor.x < g.hi :=
    pointsAfter_eq_nil.1 ((g.leg_invariant f n).done h)
  rw [Cursor.advance, Cursor.seek_of_end hend, ← h]

theorem drop_collect (g : Grid) (f : Float → Float) (n : Nat) :
    (g.collect f).drop n = (scanFrom f (g.leg f n) []).brackets := by
  induction n with
  | zero => rfl
  | succ n ih =>
    rw [← List.tail_drop, ih]
    cases h : (g.leg f n).cursor.current with
    | none =>
      have hnext : (g.leg f (n + 1)).cursor.current = none := by
        rw [leg, advance_leg_of_none h]
        exact h
      rw [scanFrom_of_none h, scanFrom_of_none hnext]
      rfl
    | some b =>
      rw [scanFrom_of_some h]
      rfl

/-- The cursor of leg number `n` stands at bracket number `n`, or at the end if there are no more. -/
theorem current_leg (g : Grid) (f : Float → Float) (n : Nat) :
    (g.leg f n).cursor.current = (g.collect f)[n]? := by
  rw [← List.head?_drop, drop_collect]
  cases h : (g.leg f n).cursor.current with
  | none => rw [scanFrom_of_none h]; rfl
  | some b => rw [scanFrom_of_some h]; rfl

theorem evaluated_isPrefix (g : Grid) (f : Float → Float) (n : Nat) :
    g.evaluated f n <+: (g.scan f).visited := by
  rw [scan_visited]
  exact ⟨_, (g.leg_invariant f n).points.symm⟩

theorem evaluated_of_none (h : (g.leg f n).cursor.current = none) :
    g.evaluated f n = (g.scan f).visited := by
  have hinv := g.leg_invariant f n
  rw [scan_visited, hinv.points, hinv.done h, List.append_nil]

theorem leg_completes (g : Grid) (f : Float → Float) (n : Nat) : (g.leg f n).Completes := by
  cases n with
  | zero => exact Cursor.start_completes g f
  | succ n => exact Cursor.seek_completes f _

theorem getLast?_evaluated {b : Bracket} (h : (g.leg f n).cursor.current = some b) :
    (g.evaluated f n).getLast? = some b.hi := by
  have hlast := g.leg_completes f n b h
  cases n with
  | zero => exact hlast
  | succ n => rw [evaluated, List.getLast?_append, hlast]; rfl

/-- The boundaries evaluated on the way to a bracket are those up to its upper end. -/
theorem evaluated_of_some {b : Bracket} (h : (g.leg f n).cursor.current = some b) :
    ∃ k, (g.scan f).visited[k]? = some b.hi ∧
      g.evaluated f n = (g.scan f).visited.take (k + 1) := by
  have hlast := getLast?_evaluated h
  obtain ⟨rest, hrest⟩ := g.evaluated_isPrefix f n
  have hpos := List.length_pos_of_mem (List.mem_of_getLast? hlast)
  rw [List.getLast?_eq_getElem?] at hlast
  refine ⟨(g.evaluated f n).length - 1, ?_, ?_⟩
  · rw [← hrest, List.getElem?_append_left (by omega), hlast]
  · rw [← hrest, Nat.sub_add_cancel hpos, List.take_left]

end Grid

/-! ## Accounts -/

/-- What was done for a cursor since its pass was started. -/
structure Account where
  advances : Nat
  evaluated : List Float

/-- A session, with an account for the cursor under each name. -/
structure Ledger (g : Grid) (ι : Type) where
  session : Session g ι
  account? : ι → Option Account

namespace Ledger

variable {ι : Type} {l : Ledger g ι} {id : ι} {t : Account}

def empty : Ledger g ι := ⟨.empty, fun _ => none⟩

/-- The cursor under a name is the one that its account tells. -/
structure Balanced (l : Ledger g ι) (f : Float → Float) : Prop where
  cursor : ∀ id, l.session.cursor? id =
    (l.account? id).map fun t => (g.leg f t.advances).cursor
  evaluated : ∀ id, ∀ t ∈ l.account? id, t.evaluated = g.evaluated f t.advances

theorem Balanced.none (h : l.Balanced f) (hid : l.account? id = none) :
    l.session.cursor? id = none := by
  rw [h.cursor, hid, Option.map_none]

theorem Balanced.some (h : l.Balanced f) (hid : l.account? id = some t) :
    l.session.cursor? id = some (g.leg f t.advances).cursor := by
  rw [h.cursor, hid, Option.map_some]

theorem empty_balanced : (empty : Ledger g ι).Balanced f where
  cursor _ := rfl
  evaluated _ _ ht := by cases ht

variable [DecidableEq ι]

/-- The evaluations that an action adds to those of the session. -/
def spent (f : Float → Float) (l : Ledger g ι) (a : Action ι) : List Float :=
  (l.session.perform f a).2.visited.drop l.session.visited.length

/-- The accounts after an action that took the evaluations `spent`. -/
def book (l : Ledger g ι) (spent : List Float) : Action ι → ι → Option Account
  | .start id => Function.update l.account? id (some ⟨0, spent⟩)
  | .advance id => Function.update l.account? id
      ((l.account? id).map fun t => ⟨t.advances + 1, t.evaluated ++ spent⟩)
  | .copy id source =>
    match l.account? source with
    | some t => Function.update l.account? id (some t)
    | none => l.account?
  | .look _ => l.account?
  | .collect => l.account?

def perform (f : Float → Float) (l : Ledger g ι) (a : Action ι) : Ledger g ι :=
  ⟨(l.session.perform f a).2, l.book (l.spent f a) a⟩

/-- The session and the accounts after some actions. -/
def after (f : Float → Float) (actions : List (Action ι)) : Ledger g ι :=
  actions.foldl (perform f) empty

/-- A cursor is put under a name together with its account. -/
theorem Balanced.place (h : l.Balanced f) (id : ι) {leg : Leg g}
    (hleg : leg.cursor = (g.leg f t.advances).cursor)
    (ht : t.evaluated = g.evaluated f t.advances) :
    (⟨l.session.place id leg, Function.update l.account? id t⟩ : Ledger g ι).Balanced f := by
  constructor
  · intro other
    by_cases hother : other = id
    · subst hother
      simp only [Session.place, if_true, Function.update_self, Option.map_some, hleg]
    · simp only [Session.place, if_neg hother, Function.update_of_ne hother]
      exact h.cursor other
  · intro other u hu
    by_cases hother : other = id
    · subst hother
      simp only [Function.update_self, Option.mem_def, Option.some_inj] at hu
      exact hu ▸ ht
    · simp only [Function.update_of_ne hother] at hu
      exact h.evaluated other u hu

theorem spent_start (f : Float → Float) (l : Ledger g ι) (id : ι) :
    l.spent f (.start id) = g.evaluated f 0 := List.drop_left

theorem spent_advance (h : l.Balanced f) (hid : l.account? id = some t) :
    l.spent f (.advance id) = (g.leg f (t.advances + 1)).visited := by
  simp only [spent, Session.perform, h.some hid]
  exact List.drop_left

/-- One case for each action: whatever it does to a cursor it does to the account. -/
theorem Balanced.perform (h : l.Balanced f) (a : Action ι) : (l.perform f a).Balanced f := by
  cases a with
  | start id => exact h.place id (t := ⟨0, _⟩) rfl (spent_start f l id)
  | advance id =>
    cases hid : l.account? id with
    | none =>
      have hbook : l.book (l.spent f (.advance id)) (.advance id) = l.account? := by
        simp only [book, hid, Option.map_none]
        rw [← hid, Function.update_eq_self]
      have hsame : l.perform f (.advance id) = l := by
        unfold Ledger.perform
        rw [hbook]
        simp only [Session.perform, h.none hid]
      rwa [hsame]
    | some t =>
      unfold Ledger.perform
      simp only [book, hid, Session.perform, h.some hid, Option.map_some]
      refine h.place id (t := ⟨t.advances + 1, _⟩) rfl ?_
      rw [spent_advance h hid, h.evaluated id t hid]
      rfl
  | copy id source =>
    cases hsource : l.account? source with
    | none =>
      unfold Ledger.perform
      simp only [book, hsource, Session.perform, h.none hsource]
      exact h
    | some t =>
      unfold Ledger.perform
      simp only [book, hsource, Session.perform, h.some hsource]
      exact h.place id rfl (h.evaluated source t hsource)
  | look id =>
    have hsame : l.perform f (.look id) = l := by
      unfold Ledger.perform
      cases hid : l.session.cursor? id <;> simp only [book, Session.perform, hid]
    rwa [hsame]
  | collect => exact ⟨h.cursor, h.evaluated⟩

theorem after_balanced (f : Float → Float) (actions : List (Action ι)) :
    (after f actions : Ledger g ι).Balanced f := by
  unfold after
  suffices ∀ l : Ledger g ι, l.Balanced f → (actions.foldl (perform f) l).Balanced f from
    this empty empty_balanced
  intro l h
  induction actions generalizing l with
  | nil => exact h
  | cons a actions ih => exact ih (l.perform f a) (h.perform a)

end Ledger

/-! ## Actions -/

/-- The name that an action is about. -/
def Action.subject {ι : Type} : Action ι → Option ι
  | start id => some id
  | advance id => some id
  | copy id _ => some id
  | look id => some id
  | collect => none

namespace Session

variable {ι : Type} [DecidableEq ι] {s : Session g ι} {a : Action ι} {c : Cursor g} {id : ι}

theorem perform_advance_of_some (f : Float → Float) (h : s.cursor? id = some c) :
    s.perform f (.advance id) = (.position (c.advance f).cursor, s.place id (c.advance f)) := by
  simp only [perform, h]

theorem stays_of_unknown (h : s.perform f a = (.unknown, s)) :
    (s.perform f a).2 = s ∧ ∀ c, (s.perform f a).1 = .position c →
      ∃ id, a.subject = some id ∧ s.cursor? id = some c := by
  rw [h]
  exact ⟨rfl, fun c hc => by cases hc⟩

/-- An action puts a cursor under the name that it is about, or it changes nothing, or it makes a pass
of its own. -/
theorem perform_cases (f : Float → Float) (s : Session g ι) (a : Action ι) :
    (∃ id leg, a.subject = some id ∧ s.perform f a = (.position leg.cursor, s.place id leg) ∧
      (leg.visited = [] ∨ a = .start id ∨ a = .advance id)) ∨
    ((s.perform f a).2 = s ∧ ∀ c, (s.perform f a).1 = .position c →
      ∃ id, a.subject = some id ∧ s.cursor? id = some c) ∨
    a = .collect := by
  cases a with
  | start id => exact .inl ⟨id, _, rfl, rfl, .inr (.inl rfl)⟩
  | advance id =>
    cases hid : s.cursor? id with
    | none => exact .inr (.inl (stays_of_unknown (by simp only [perform, hid])))
    | some c => exact .inl ⟨id, _, rfl, perform_advance_of_some f hid, .inr (.inr rfl)⟩
  | copy id source =>
    cases hid : s.cursor? source with
    | none => exact .inr (.inl (stays_of_unknown (by simp only [perform, hid])))
    | some c => exact .inl ⟨id, ⟨[], c⟩, rfl, by simp only [perform, hid], .inl rfl⟩
  | look id =>
    cases hid : s.cursor? id with
    | none => exact .inr (.inl (stays_of_unknown (by simp only [perform, hid])))
    | some c =>
      have hsome : s.perform f (.look id) = (.position c, s) := by simp only [perform, hid]
      refine .inr (.inl ⟨congrArg Prod.snd hsome, fun d hd => ?_⟩)
      rw [hsome] at hd
      cases hd
      exact ⟨id, rfl, hid⟩
  | collect => exact .inr (.inr rfl)

theorem cursor_of_place (s : Session g ι) (id : ι) (leg : Leg g) :
    (s.place id leg).cursor? id = some leg.cursor := if_pos rfl

theorem cursor_of_place_other (leg : Leg g) {other : ι} (h : other ≠ id) :
    (s.place id leg).cursor? other = s.cursor? other := if_neg h

/-- A reply shows the cursor that the action is about, as it is after the action. -/
theorem cursor_of_reply (h : (s.perform f a).1 = .position c) :
    ∃ id ∈ a.subject, (s.perform f a).2.cursor? id = some c := by
  obtain ⟨id, leg, hid, hplace, -⟩ | ⟨hsame, hshown⟩ | rfl := s.perform_cases f a
  · rw [hplace] at h ⊢
    cases h
    exact ⟨id, hid, s.cursor_of_place id leg⟩
  · rw [hsame]
    exact hshown c h
  · cases h

/-- No other cursor moves. -/
theorem cursor_of_other (f : Float → Float) (s : Session g ι) (h : id ∉ a.subject) :
    (s.perform f a).2.cursor? id = s.cursor? id := by
  obtain ⟨other, leg, hother, hplace, -⟩ | ⟨hsame, -⟩ | rfl := s.perform_cases f a
  · rw [hplace]
    refine cursor_of_place_other leg fun heq => h ?_
    rw [heq]
    exact hother
  · rw [hsame]
  · rfl

/-- Evaluations are only added, and only by starting, advancing and collecting. -/
theorem visited_perform (f : Float → Float) (s : Session g ι) (a : Action ι) :
    ∃ xs, (s.perform f a).2.visited = s.visited ++ xs ∧
      (xs = [] ∨ (∃ id, a = .start id ∨ a = .advance id) ∨ a = .collect) := by
  obtain ⟨id, leg, -, hplace, honly⟩ | ⟨hsame, -⟩ | rfl := s.perform_cases f a
  · refine ⟨leg.visited, by rw [hplace, place], ?_⟩
    obtain hnil | ha := honly
    · exact .inl hnil
    · exact .inr (.inl ⟨id, ha⟩)
  · exact ⟨[], by rw [hsame, List.append_nil], .inl rfl⟩
  · exact ⟨_, rfl, .inr (.inr rfl)⟩

/-- To advance a cursor whose leg is empty changes nothing. -/
theorem perform_advance_of_stay (h : s.cursor? id = some c) (hc : c.advance f = ⟨[], c⟩) :
    s.perform f (.advance id) = (.position c, s) := by
  have hplace : s.place id ⟨[], c⟩ = s := by
    unfold place
    rw [List.append_nil]
    congr
    funext other
    split
    · rename_i heq
      rw [heq, h]
    · rfl
  rw [perform_advance_of_some f h, hc, hplace]

end Session

/-! ## Sessions -/

/-- Where a cursor with the account `t` stands in the pass, and which boundaries were evaluated for it:
those up to its bracket, or all if it is at the end, in order and each once. -/
structure Cursor.StandsAt (c : Cursor g) (f : Float → Float) (t : Account) : Prop where
  current : c.current = (g.collect f)[t.advances]?
  upTo : ∀ b ∈ c.current, ∃ k, (g.scan f).visited[k]? = some b.hi ∧
    t.evaluated = (g.scan f).visited.take (k + 1)
  finished : c.current = none → t.evaluated = (g.scan f).visited
  increasing : t.evaluated.Pairwise (· < ·)

theorem Grid.standsAt_leg (g : Grid) (f : Float → Float) {t : Account}
    (ht : t.evaluated = g.evaluated f t.advances) :
    (g.leg f t.advances).cursor.StandsAt f t where
  current := g.current_leg f t.advances
  upTo b hb := by
    rw [ht]
    exact evaluated_of_some hb
  finished h := by
    rw [ht]
    exact evaluated_of_none h
  increasing := by
    have hpre := g.evaluated_isPrefix f t.advances
    rw [scan_visited] at hpre
    rw [ht]
    exact g.pairwise_points.sublist hpre.sublist

/-- After any actions every cursor stands where its own account tells, and it stays at the end. An
action shows and moves the cursor that it names and no other. -/
theorem cursors_stand_in_pass (g : Grid) (f : Float → Float) {ι : Type} [DecidableEq ι]
    (actions : List (Action ι)) :
    let l : Ledger g ι := .after f actions
    (∀ id, l.account? id = none → l.session.cursor? id = none) ∧
    (∀ id, ∀ t ∈ l.account? id, ∃ c, l.session.cursor? id = some c ∧ c.StandsAt f t ∧
      (c.current = none → l.session.perform f (.advance id) = (.position c, l.session))) ∧
    ∀ a : Action ι,
      (∀ c, (l.session.perform f a).1 = .position c →
        ∃ id ∈ a.subject, (l.session.perform f a).2.cursor? id = some c) ∧
      (∀ id, id ∉ a.subject → (l.session.perform f a).2.cursor? id = l.session.cursor? id) ∧
      (l.session.perform f a).2.visited = l.session.visited ++ l.spent f a ∧
      (l.spent f a = [] ∨ (∃ id, a = .start id ∨ a = .advance id) ∨ a = .collect) := by
  intro l
  have hl : l.Balanced f := Ledger.after_balanced f actions
  refine ⟨fun id hid => hl.none hid, fun id t hid => ?_, fun a => ?_⟩
  · have hcursor := hl.some hid
    refine ⟨_, hcursor, g.standsAt_leg f (hl.evaluated id t hid), fun hend => ?_⟩
    exact Session.perform_advance_of_stay hcursor (Grid.advance_leg_of_none hend)
  · obtain ⟨xs, hvisited, honly⟩ := l.session.visited_perform f a
    have hspent : l.spent f a = xs := by
      rw [Ledger.spent, hvisited, List.drop_left]
    rw [hspent]
    exact ⟨fun c hc => Session.cursor_of_reply hc,
      fun id hid => Session.cursor_of_other f l.session hid, hvisited, honly⟩

/-- `x - 9007199254740996` has one bracket, at the middle boundary of three. The first cursor has gone
past it, and the copy that was taken before still stands there. -/
theorem cursors_stand_in_pass_wideWindows :
    let f : Float → Float := (· - 9007199254740996)
    let l : Ledger Grid.wideWindows Bool :=
      .after f [.start true, .copy false true, .advance true]
    (∃ c, l.session.cursor? true = some c ∧ c.current = none ∧
      l.session.perform f (.advance true) = (.position c, l.session)) ∧
    ∃ c t, l.session.cursor? false = some c ∧
      c.current.map Bracket.toInterval = some ⟨9007199254740996, 9007199254740996⟩ ∧
      l.account? false = some t ∧ t.evaluated = [9007199254740992, 9007199254740996] := by
  intro f l
  obtain ⟨-, hcursors, -⟩ := cursors_stand_in_pass Grid.wideWindows f
    [.start true, .copy false true, .advance true]
  have hcollect : (Grid.wideWindows.collect f).map Bracket.toInterval =
      [⟨9007199254740996, 9007199254740996⟩] := by
    have hat : findingsAt f 9007199254740992 = [] := if_neg (by decide +kernel)
    have hfirst : findingsBetween f 9007199254740992 9007199254740996 =
        [⟨9007199254740996, 9007199254740996⟩] := if_pos (by decide +kernel)
    have hsecond : findingsBetween f 9007199254740996 9007199254741000 = [] := by
      rw [findingsBetween, if_neg (by decide +kernel), if_neg (by decide +kernel)]
    rw [Grid.collect_eq_findings, Grid.points_wideWindows, findings_cons, findingsAlong_cons_cons,
      findingsAlong_cons_cons, hat, hfirst, hsecond]
    rfl
  have hvisited : (Grid.wideWindows.scan f).visited =
      [9007199254740992, 9007199254740996, 9007199254741000] :=
    (Grid.scan_visited _ f).trans Grid.points_wideWindows
  constructor
  · obtain ⟨c, hc, hstands, hstays⟩ := hcursors true ⟨1, _⟩ rfl
    have hend : c.current = none := by
      rw [hstands.current, List.getElem?_eq_none_iff, ← List.length_map, hcollect]
      rfl
    exact ⟨c, hc, hend, hstays hend⟩
  · obtain ⟨c, hc, hstands, -⟩ := hcursors false ⟨0, _⟩ rfl
    have hcurrent : c.current.map Bracket.toInterval =
        some ⟨9007199254740996, 9007199254740996⟩ := by
      rw [hstands.current, ← List.getElem?_map, hcollect]
      rfl
    refine ⟨c, _, hc, hcurrent, rfl, ?_⟩
    obtain ⟨b, hb, hi⟩ := Option.map_eq_some_iff.1 hcurrent
    obtain ⟨k, hk, hevaluated⟩ := hstands.upTo b hb
    rw [hvisited, hi] at hk
    rw [hvisited] at hevaluated
    obtain ⟨hlt, -⟩ := List.getElem?_eq_some_iff.1 hk
    have hcases : k = 0 ∨ k = 1 ∨ k = 2 := by
      simp only [List.length_cons, List.length_nil] at hlt
      omega
    obtain rfl | rfl | rfl := hcases
    · exact absurd hk (by decide +kernel)
    · exact hevaluated
    · exact absurd hk (by decide +kernel)

end ZeroSearch
