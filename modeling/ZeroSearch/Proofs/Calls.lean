import Mathlib
import ZeroSearch.OpenMethod
import ZeroSearch.Proofs.Solving

/-!
# Calls of the policy

What every solver keeps to when it asks its policy. The calls are numbered from 1 on, each compares
an iterate with the one before, and the first that is answered with yes is the last and decides the
outcome. Where no call is, `Outcome.Unaccepted` says how many there were: solvers count the
iteration that failed or not, depending on the fault.

`Transcript` is this for the calls from any one on. It follows the rounds of a course, and the
`Protocol` of a run is read off it.
-/

namespace ZeroSearch

/-- An outcome that a run can have when its policy was asked `n` times and never said yes. -/
def Outcome.Unaccepted (f : Float → Float) (cap : UInt64) (n : Nat) : Outcome → Prop
  | found root => (f root.x == 0) = true ∧ root.residual = 0 ∧ n = root.iterations.toNat - 1
  | failed .notABracket => n = 0
  | failed (.nonFinite iterations _) => n = iterations.toNat - 1
  | failed (.derivativeTooSmall iterations _) => n = iterations.toNat
  | failed (.iterationsExceeded iterations _) => iterations = cap ∧ n = cap.toNat
  | _ => False

/-- The calls of the policy in a run, and what they say of its outcome. The first call compares with
one of `origins`. -/
structure Run.Protocol {σ : Type} (run : Run σ) (f : Float → Float) (p : Policy) (cap : UInt64)
    (origins : List Float) : Prop where
  numbered : ∀ n o, run.observations[n]? = some o → o.iteration.toNat = n + 1
  length_le : run.observations.length ≤ cap.toNat
  first : ∀ o ∈ run.observations.head?, o.previous ∈ origins
  linked : run.observations.IsChain fun o q => q.previous = o.current
  values : ∀ o ∈ run.observations,
    o.value = f o.current ∧ o.value.isFinite = true ∧ (o.value == 0) = false
  refused : ∀ o ∈ run.observations.dropLast, p.accepts o = false
  accepted : ∀ o ∈ run.observations.getLast?, p.accepts o = true ↔
    ∃ root, run.outcome = .found root ∧ root.x = o.current ∧
      root.iterations.toNat = run.observations.length ∧ root.residual = (f o.current).abs
  otherwise : (∀ o ∈ run.observations.getLast?, p.accepts o = false) →
    run.outcome.Unaccepted f cap run.observations.length

/-! ## Transcripts -/

/-- The call after the first `n`. -/
structure Observation.Follows (o : Observation) (f : Float → Float) (cap : UInt64) (n : Nat) :
    Prop where
  iteration : o.iteration.toNat = n + 1
  le_cap : n + 1 ≤ cap.toNat
  value : o.value = f o.current
  finite : o.value.isFinite = true
  ne_zero : (o.value == 0) = false

/-- The calls after the first `n`, all of which were answered with no, and the outcome. -/
inductive Transcript (f : Float → Float) (p : Policy) (cap : UInt64) :
    Nat → List Observation → Outcome → Prop where
  | unasked {n : Nat} {o : Outcome} : n ≤ cap.toNat → o.Unaccepted f cap n →
      Transcript f p cap n [] o
  | accepted {n : Nat} {q : Observation} : q.Follows f cap n → p.accepts q = true →
      Transcript f p cap n [q] (.found ⟨q.current, q.iteration, (f q.current).abs⟩)
  | refused {n : Nat} {q : Observation} {qs : List Observation} {o : Outcome} :
      q.Follows f cap n → p.accepts q = false → (∀ r ∈ qs.head?, r.previous = q.current) →
      Transcript f p cap (n + 1) qs o → Transcript f p cap n (q :: qs) o

namespace Transcript

variable {f : Float → Float} {p : Policy} {cap : UInt64} {n : Nat} {qs : List Observation}
  {q : Observation} {o : Outcome}

theorem length_le (h : Transcript f p cap n qs o) : n + qs.length ≤ cap.toNat := by
  induction h with
  | unasked hn => exact hn
  | accepted hq => exact hq.le_cap
  | refused hq ha hhead hrest ih =>
    rw [List.length_cons]
    omega

theorem numbered (h : Transcript f p cap n qs o) {k : Nat} (hk : qs[k]? = some q) :
    q.iteration.toNat = n + k + 1 := by
  induction h generalizing k with
  | unasked => cases hk
  | accepted hq =>
    obtain ⟨rfl, rfl⟩ : k = 0 ∧ _ = q := by simpa [List.getElem?_singleton] using hk
    exact hq.iteration
  | refused hq ha hhead hrest ih =>
    cases k with
    | zero =>
      cases hk
      exact hq.iteration
    | succ k =>
      rw [ih hk]
      omega

theorem linked (h : Transcript f p cap n qs o) :
    qs.IsChain fun o q => q.previous = o.current := by
  induction h with
  | unasked => exact .nil
  | accepted => exact .singleton _
  | refused hq ha hhead hrest ih => exact List.isChain_cons.2 ⟨hhead, ih⟩

theorem values (h : Transcript f p cap n qs o) :
    ∀ q ∈ qs, q.value = f q.current ∧ q.value.isFinite = true ∧ (q.value == 0) = false := by
  induction h with
  | unasked => simp
  | accepted hq => simpa using ⟨hq.value, hq.finite, hq.ne_zero⟩
  | refused hq ha hhead hrest ih =>
    exact List.forall_mem_cons.2 ⟨⟨hq.value, hq.finite, hq.ne_zero⟩, ih⟩

theorem refused_dropLast (h : Transcript f p cap n qs o) :
    ∀ q ∈ qs.dropLast, p.accepts q = false := by
  induction h with
  | unasked => simp
  | accepted => simp
  | @refused n q qs o hq ha hhead hrest ih =>
    cases qs with
    | nil => simp
    | cons r qs =>
      rw [List.dropLast_cons_cons]
      exact List.forall_mem_cons.2 ⟨ha, ih⟩

/-- The last call decides: the outcome is the root that it accepts, or one without a yes. -/
theorem ending (h : Transcript f p cap n qs o) :
    (∃ q, qs.getLast? = some q ∧ p.accepts q = true ∧
        o = .found ⟨q.current, q.iteration, (f q.current).abs⟩) ∨
      (∀ q ∈ qs.getLast?, p.accepts q = false) ∧ o.Unaccepted f cap (n + qs.length) := by
  induction h with
  | unasked hn ho => exact .inr ⟨by simp, ho⟩
  | accepted hq ha => exact .inl ⟨_, rfl, ha, rfl⟩
  | @refused n q qs o hq ha hhead hrest ih =>
    have hlen : n + (q :: qs).length = n + 1 + qs.length := by
      rw [List.length_cons]
      omega
    rw [hlen]
    cases qs with
    | nil =>
      cases hrest with
      | unasked hn ho => exact .inr ⟨by simpa using ha, ho⟩
    | cons r qs =>
      rw [List.getLast?_cons_cons]
      exact ih

theorem protocol {σ : Type} {run : Run σ} {origins : List Float}
    (h : Transcript f p cap 0 run.observations run.outcome)
    (hfirst : ∀ o ∈ run.observations.head?, o.previous ∈ origins) :
    run.Protocol f p cap origins where
  numbered k o hk := by simpa using h.numbered hk
  length_le := by simpa using h.length_le
  first := hfirst
  linked := h.linked
  values := h.values
  refused := h.refused_dropLast
  accepted o ho := by
    have hlen : o.iteration.toNat = run.observations.length := by
      have hpos := List.length_pos_of_mem (List.mem_of_getLast? ho)
      rw [List.getLast?_eq_getElem?] at ho
      have := h.numbered ho
      omega
    obtain ⟨q, hq, ha, hout⟩ | ⟨hno, hun⟩ := h.ending
    · obtain rfl : q = o := Option.some_inj.1 (hq.symm.trans ho)
      exact iff_of_true ha ⟨_, hout, rfl, hlen, rfl⟩
    · refine iff_of_false (Bool.eq_false_iff.1 (hno o ho)) ?_
      rintro ⟨root, hout, -, hroot, -⟩
      have hpos := List.length_pos_of_mem (List.mem_of_getLast? ho)
      rw [hout] at hun
      have := hun.2.2
      omega
  otherwise hno := by
    obtain ⟨q, hq, ha, -⟩ | ⟨-, hun⟩ := h.ending
    · have := hno q hq
      rw [ha] at this
      cases this
    · rwa [Nat.zero_add] at hun

end Transcript

/-! ## Iterations -/

namespace Iteration

/-- Points are compared with the latest one, the first point apart, and a round that evaluates
nothing ends with a fault that tells its number. -/
structure Sequential {σ : Type} (m : Iteration σ) : Prop where
  latest_absorb : ∀ s x y, m.latest (m.absorb s x y) = x
  previous : ∀ i s x, i ≠ 1 → m.previous i s x = m.latest s
  fault : ∀ i s fault, m.propose i s = .error fault →
    ∃ x, fault = .derivativeTooSmall (i - 1) x ∨ fault = .nonFinite i x

variable {σ : Type} {m : Iteration σ} {f : Float → Float} {p : Policy} {i cap : UInt64} {s : σ}
  {rs : List (Round σ)} {o : Outcome}

/-- The first call that there is belongs to the first round. -/
theorem Course.previous_head (h : m.Course f p cap i s rs o) :
    ∀ q ∈ (rs.filterMap Round.observation).head?, ∃ x, q.previous = m.previous i s x := by
  intro q hq
  cases h with
  | cut => cases hq
  | capped => cases hq
  | last hi hstep =>
    cases hstep with
    | refused => cases hq
    | nonFinite => cases hq
    | zero => cases hq
    | accepted => cases hq; exact ⟨_, rfl⟩
  | next hi hstep hrest =>
    cases hstep with
    | rejected => cases hq; exact ⟨_, rfl⟩

theorem toNat_pred {n : Nat} (hi : i.toNat = n + 1) : (i - 1).toNat = n := by
  have hle : (1 : UInt64) ≤ i := UInt64.le_iff_toNat_le.2 (by rw [UInt64.toNat_one]; omega)
  rw [UInt64.toNat_sub_of_le _ _ hle, UInt64.toNat_one]
  omega

/-- The induction is on the rounds: a round that does not ask is the last one. -/
theorem Course.transcript (hm : m.Sequential) (h : m.Course f p cap i s rs o)
    (hcap : cap.toNat + 1 < 2 ^ 64) (ho : o ≠ .unfinished) {n : Nat} (hi : i.toNat = n + 1)
    (hn : n ≤ cap.toNat) :
    Transcript f p cap n (rs.filterMap Round.observation) o := by
  induction h generalizing n with
  | cut => exact absurd rfl ho
  | capped hlt =>
    have hlt' := mt UInt64.le_iff_toNat_le.2 hlt
    exact .unasked hn ⟨rfl, by omega⟩
  | last hle hstep =>
    have hle' := UInt64.le_iff_toNat_le.1 hle
    cases hstep with
    | refused hp =>
      obtain ⟨x, rfl | rfl⟩ := hm.fault _ _ _ hp
      · exact .unasked hn (toNat_pred hi).symm
      · exact .unasked hn (Nat.eq_sub_of_add_eq hi.symm)
    | nonFinite => exact .unasked hn (Nat.eq_sub_of_add_eq hi.symm)
    | zero hp hfin hz => exact .unasked hn ⟨hz, rfl, Nat.eq_sub_of_add_eq hi.symm⟩
    | accepted hp hfin hz ha => exact .accepted ⟨hi, hi ▸ hle', rfl, hfin, hz⟩ ha
  | @next i s t r rs o hle hstep hrest ih =>
    have hle' := UInt64.le_iff_toNat_le.1 hle
    have hsucc : (i + 1).toNat = n + 2 := by
      rw [toNat_succ (by omega), hi]
    cases hstep with
    | rejected hp hfin hz ha =>
      refine .refused ⟨hi, hi ▸ hle', rfl, hfin, hz⟩ ha (fun r hr => ?_) (ih ho hsucc (by omega))
      obtain ⟨x, hx⟩ := hrest.previous_head r hr
      have hne : i + 1 ≠ 1 := fun h => by
        rw [h, UInt64.toNat_one] at hsucc
        omega
      rw [hx, hm.previous _ _ _ hne, hm.latest_absorb]

theorem run_transcript (hm : m.Sequential) (f : Float → Float) (p : Policy)
    (hcap : cap.toNat + 1 < 2 ^ 64) (opening : List Query) (s : σ) :
    Transcript f p cap 0 (m.run f p cap opening s).observations
      (m.run f p cap opening s).outcome :=
  (m.run_course f p cap opening s).transcript hm hcap (m.run_finishes f p hcap opening s)
    UInt64.toNat_one (Nat.zero_le _)

end Iteration

/-! ## Solvers -/

section

variable {f : Float → Float} {p : Policy} {cap : UInt64}

theorem Transcript.opening {o : Outcome} (h : o.Unaccepted f cap 0) : Transcript f p cap 0 [] o :=
  .unasked (Nat.zero_le _) h

/-- A call is made in the first round or not at all. -/
theorem Iteration.run_first {σ : Type} (m : Iteration σ) (opening : List Query) (s : σ) :
    ∀ q ∈ (m.run f p cap opening s).observations.head?, ∃ x, q.previous = m.previous 1 s x :=
  (m.run_course f p cap opening s).previous_head

namespace Rule

variable {μ : Type} {rule : Rule μ} {b : Bracket}

theorem sequential (hrule : ∀ i e latest x, i ≠ 1 → rule.previous i e latest x = latest) :
    rule.iteration.Sequential where
  latest_absorb _ _ _ := rfl
  previous i s x hi := hrule i s.enclosure s.latest x hi
  fault _ _ _ h := by cases h

theorem solve_transcript (hrule : rule.iteration.Sequential) (b : Bracket)
    (hcap : cap.toNat + 1 < 2 ^ 64) :
    Transcript f p cap 0 (rule.solve f b cap p).observations (rule.solve f b cap p).outcome := by
  cases h : (Enclosure.ofBracket f b).result with
  | error fault =>
    rw [solve_of_refused h]
    obtain rfl | rfl | rfl := Enclosure.fault_of_ofBracket h
    · exact .opening rfl
    · exact .opening rfl
    · exact .opening rfl
  | ok e =>
    cases hroot : e.endpointRoot with
    | some x =>
      rw [solve_of_endpointRoot h hroot]
      obtain rfl := Enclosure.eq_of_ofBracket h
      obtain ⟨hz, rfl⟩ | ⟨hz, rfl⟩ := Enclosure.zero_of_endpointRoot hroot
      · exact .opening ⟨hz, rfl, rfl⟩
      · exact .opening ⟨hz, rfl, rfl⟩
    | none =>
      rw [solve_of_opened h hroot]
      exact rule.iteration.run_transcript hrule f p hcap _ _

theorem solve_first (b : Bracket) : ∀ q ∈ (rule.solve f b cap p).observations.head?,
    ∃ e : Enclosure, e.toInterval = b.toInterval ∧ ∃ x, q.previous = rule.previous 1 e e.lo x := by
  intro q hq
  cases h : (Enclosure.ofBracket f b).result with
  | error fault =>
    rw [solve_of_refused h] at hq
    cases hq
  | ok e =>
    cases hroot : e.endpointRoot with
    | some x =>
      rw [solve_of_endpointRoot h hroot] at hq
      cases hq
    | none =>
      rw [solve_of_opened h hroot] at hq
      have he := congrArg Enclosure.toInterval (Enclosure.eq_of_ofBracket h)
      exact ⟨e, he, rule.iteration.run_first _ _ q hq⟩

end Rule

namespace Method

/-- What the first point of a method can be compared with. -/
def origins : Method → Bracket → List Float
  | bisection, b => [b.lo]
  | falsePosition, b => [b.lo, b.hi]
  | illinois, b => [b.lo, b.hi]

theorem rule_sequential (method : Method) : method.rule.iteration.Sequential := by
  cases method with
  | bisection => exact Rule.sequential fun _ _ _ _ _ => rfl
  | falsePosition => exact Rule.sequential fun _ _ _ _ hi => if_neg hi
  | illinois => exact Rule.sequential fun _ _ _ _ hi => if_neg hi

theorem previous_mem_origins (method : Method) {b : Bracket} {e : Enclosure}
    (he : e.toInterval = b.toInterval) (x : Float) :
    method.rule.previous 1 e e.lo x ∈ method.origins b := by
  have hfar : e.farEnd x ∈ [b.lo, b.hi] := by
    rw [← he]
    unfold Enclosure.farEnd
    split <;> simp
  cases method with
  | bisection => exact List.mem_singleton.2 (congrArg Interval.lo he)
  | falsePosition => exact hfar
  | illinois => exact hfar

theorem solve_protocol (method : Method) (b : Bracket) (hcap : cap.toNat + 1 < 2 ^ 64) :
    (method.solve f b cap p).Protocol f p cap (method.origins b) := by
  refine Transcript.protocol ?_ ?_
  · rw [method.solve_eq, Run.observations_map, Run.outcome_map]
    exact Rule.solve_transcript method.rule_sequential b hcap
  · rw [method.solve_eq, Run.observations_map]
    intro q hq
    obtain ⟨e, he, x, hx⟩ := Rule.solve_first b q hq
    rw [hx]
    exact method.previous_mem_origins he x

end Method

namespace OpenMethod

theorem sequential (d : OpenMethod) : d.iteration.Sequential where
  latest_absorb _ _ _ := rfl
  previous _ _ _ _ := rfl
  fault i s fault h := by
    unfold iteration at h
    dsimp only at h
    split at h
    · cases h
      exact ⟨_, .inl rfl⟩
    · split at h
      · cases h
      · cases h
        exact ⟨_, .inr rfl⟩

theorem solve_protocol (d : OpenMethod) (start : Float) (hcap : cap.toNat + 1 < 2 ^ 64) :
    (d.solve f start cap p).Protocol f p cap [start] := by
  unfold solve
  split
  · exact Transcript.protocol (.opening rfl) (by rintro q ⟨⟩)
  · dsimp only
    split
    · exact Transcript.protocol (.opening rfl) (by rintro q ⟨⟩)
    · split
      · rename_i hz
        exact Transcript.protocol (.opening ⟨hz, rfl, rfl⟩) (by rintro q ⟨⟩)
      · refine Transcript.protocol (d.iteration.run_transcript d.sequential f p hcap _ _) ?_
        intro q hq
        obtain ⟨x, hx⟩ := d.iteration.run_first _ _ q hq
        exact List.mem_singleton.2 hx

end OpenMethod

end

/-- All five solvers call their policy by the protocol, with any function, policy and start, unless
the cap is the greatest count. -/
theorem solvers_keep_protocol (f : Float → Float) (p : Policy) {cap : UInt64}
    (hcap : cap.toNat + 1 < 2 ^ 64) :
    (∀ (method : Method) (b : Bracket),
      (method.solve f b cap p).Protocol f p cap (method.origins b)) ∧
    (∀ (d1 : Float → Float) (start : Float),
      (newton f d1 start cap p).Protocol f p cap [start]) ∧
    ∀ (d1 d2 : Float → Float) (start : Float),
      (halley f d1 d2 start cap p).Protocol f p cap [start] :=
  ⟨fun method b => method.solve_protocol b hcap,
    fun d1 start => (newtonMethod d1).solve_protocol start hcap,
    fun d1 d2 start => (halleyMethod d1 d2).solve_protocol start hcap⟩

/-- On `x * x - 1.25` both methods ask twice: the Illinois method between 1 and 2 is accepted, and
Newton's method from 1 runs into its cap. -/
theorem solvers_keep_protocol_of_square :
    (2 : UInt64).toNat + 1 < 2 ^ 64 ∧
    ((Method.illinois.solve (fun x => x * x - 1.25) ⟨⟨1, 2⟩, rfl, rfl, by decide⟩ 2
        (.step 0.25)).observations.length = 2 ∧
      (Method.illinois.solve (fun x => x * x - 1.25) ⟨⟨1, 2⟩, rfl, rfl, by decide⟩ 2
        (.step 0.25)).Protocol (fun x => x * x - 1.25) (.step 0.25) 2 [1, 2]) ∧
    (newton (fun x => x * x - 1.25) (fun x => 2 * x) 1 2 (.step 0)).observations.length = 2 ∧
      (newton (fun x => x * x - 1.25) (fun x => 2 * x) 1 2 (.step 0)).Protocol
        (fun x => x * x - 1.25) (.step 0) 2 [1] := by
  have hcap : (2 : UInt64).toNat + 1 < 2 ^ 64 := by decide
  refine ⟨hcap, ⟨by decide +kernel, ?_⟩, by decide +kernel, ?_⟩
  · exact (solvers_keep_protocol (fun x => x * x - 1.25) (.step 0.25) hcap).1 .illinois
      ⟨⟨1, 2⟩, rfl, rfl, by decide⟩
  · exact (solvers_keep_protocol (fun x => x * x - 1.25) (.step 0) hcap).2.1 (fun x => 2 * x) 1

end ZeroSearch
