import Multiway.Proofs.Dispatch.Requests
import Mathlib.Tactic.Common

/-!
# Requests and their events, whatever the sink

A sink makes labels of its own, and this is all that a sink has to do with the events that a list of
requests comes down to. Where the labels are numbered by a function, the events of each request are
known before any request is answered.

A transcript without a limit refuses nothing, so its run tells the events.
-/
namespace Multiway

/-- The target of a key, or the default target if there is no such key. -/
def Routes.targetOf (r : Routes) (index : ℕ) : Label := r.targets.getD index r.default

theorem Routes.target_eq {r : Routes} {index : ℕ} (h : index < r.targets.size) :
    r.target index = .ok (r.targetOf index) := by
  simp [target, targetOf, h]

theorem Routes.targetOf_of_target {r : Routes} {index : ℕ} {l : Label}
    (h : r.target index = .ok l) : r.targetOf index = l := by
  unfold target at h
  unfold targetOf
  split at h
  · next label found =>
    cases h
    rw [Array.getD_eq_getD_getElem?, found]
    rfl
  · contradiction

theorem Routes.targetOf_mem (r : Routes) (index : ℕ) :
    r.targetOf index ∈ r.targets ∨ r.targetOf index = r.default := by
  rw [targetOf, Array.getD_eq_getD_getElem?]
  cases found : r.targets[index]? with
  | none => exact Or.inr rfl
  | some l => exact Or.inl (Array.mem_of_getElem? found)

/-- The label that a reference stands for, where a function numbers the labels made. -/
def LabelRef.labelOf (label : ℕ → Label) : LabelRef → Label
  | .known l => l
  | .fresh n => label n

/-- The events of a test that decides between a key and the default target. -/
def Routes.decisionEvents (r : Routes) (index : ℕ) (condition : Condition)
    (mayFallThrough : Bool) : List Event :=
  if mayFallThrough && r.fallsTo r.default then [.test index condition (r.targetOf index)]
  else if mayFallThrough && r.fallsTo (r.targetOf index) then
    [.test index condition.negate r.default]
  else [.test index condition (r.targetOf index), .jump r.default]

/-- A decision tests its key, and goes to the target of the key or to the default target. -/
theorem Routes.mem_decisionEvents_cases {r : Routes} {index : ℕ} {condition : Condition}
    {mayFallThrough : Bool} {v : Event}
    (mem : v ∈ r.decisionEvents index condition mayFallThrough) :
    (∃ c l, v = .test index c l ∧ (l = r.targetOf index ∨ l = r.default)) ∨
      v = .jump r.default := by
  unfold decisionEvents at mem
  split_ifs at mem
  · exact Or.inl ⟨_, _, List.mem_singleton.1 mem, Or.inl rfl⟩
  · exact Or.inl ⟨_, _, List.mem_singleton.1 mem, Or.inr rfl⟩
  · rw [List.mem_cons, List.mem_singleton] at mem
    exact mem.imp_left fun test => ⟨_, _, test, Or.inl rfl⟩

/-- The events of a request, where a function numbers the labels made. -/
def Request.eventsOf (r : Routes) (label : ℕ → Label) : Request → List Event
  | .test index condition target => [.test index condition (target.labelOf label)]
  | .jump target => [.jump (target.labelOf label)]
  | .bind l => [.bind (l.labelOf label)]
  | .testToTarget index condition => [.test index condition (r.targetOf index)]
  | .testOrDefault index condition mayFallThrough =>
    r.decisionEvents index condition mayFallThrough
  | .makeLabel | .askTarget _ | .askDefault | .askFallsTo _ => []

/-- A function gives each label made its number. -/
def Numbers (label : ℕ → Label) (made : Array Label) : Prop :=
  ∀ {n : ℕ} {l : Label}, made[n]? = some l → label n = l

theorem numbers_getD (made : Array Label) (l : Label) : Numbers (made[·]?.getD l) made :=
  fun found => by simp [found]

theorem Numbers.of_append {label : ℕ → Label} {made more : Array Label}
    (numbers : Numbers label (made ++ more)) : Numbers label made := fun found => by
  have inside := (Array.getElem?_eq_some_iff.1 found).1
  exact numbers (by rwa [Array.getElem?_append_left inside])

theorem LabelRef.labelOf_of_label? {label : ℕ → Label} {made : Array Label}
    (numbers : Numbers label made) {ref : LabelRef} {l : Label} (h : ref.label? made = .ok l) :
    ref.labelOf label = l := by
  cases ref with
  | known l' =>
    cases h
    rfl
  | fresh n =>
    cases found : made[n]? with
    | none => simp [label?, found] at h
    | some l' =>
      rw [labelOf, numbers found]
      simpa [label?, found] using h

theorem Request.eventsOf_of_events {r : Routes} {label : ℕ → Label} {made : Array Label}
    (numbers : Numbers label made) {q : Request} {vs : List Event}
    (h : q.events r made = .ok vs) : q.eventsOf r label = vs := by
  have named {ref : LabelRef} {f : Label → List Event}
      (told : (ref.label? made).map f = .ok vs) : f (ref.labelOf label) = vs := by
    cases found : ref.label? made with
    | error e => simp [found, Except.map] at told
    | ok l =>
      rw [LabelRef.labelOf_of_label? numbers found]
      simpa [found, Except.map] using told
  have targeted {index : ℕ} {f : Label → List Event}
      (told : (r.target index).map f = .ok vs) : f (r.targetOf index) = vs := by
    cases found : r.target index with
    | error e => simp [found, Except.map] at told
    | ok l =>
      rw [Routes.targetOf_of_target found]
      simpa [found, Except.map] using told
  cases q with
  | test index condition target => exact named h
  | jump target => exact named h
  | bind l => exact named h
  | testToTarget index condition => exact targeted h
  | testOrDefault index condition mayFallThrough => exact targeted h
  | askTarget index => exact targeted (f := fun _ => []) h
  | askFallsTo l => exact named (f := fun _ => []) h
  | makeLabel =>
    cases h
    rfl
  | askDefault =>
    cases h
    rfl

/-- Whether the answer to a request depends on what follows the branch. -/
def Request.asksSuccessor : Request → Bool
  | .testOrDefault _ _ mayFallThrough => mayFallThrough
  | .askFallsTo _ => true
  | _ => false

namespace Sink

variable {σ : Type} {s : Sink σ} {r : Routes} {rs : List Request} {made made' : Array Label}
  {x y : σ} {vs : List Event}

/-- Labels that have been made stay, and each request for a label makes one more. -/
theorem Serves.made_eq (h : s.Serves r rs made x vs made' y) :
    ∃ more : Array Label, made' = made ++ more ∧ more.size = rs.count .makeLabel := by
  induction h with
  | done => exact ⟨#[], by simp⟩
  | @make _ _ _ _ _ _ l _ _ _ ih =>
    obtain ⟨more, rfl, size⟩ := ih
    refine ⟨#[l] ++ more, by simp, ?_⟩
    simp only [Array.size_append, size, List.count_cons_self]
    exact Nat.add_comm _ _
  | perform hr _ _ _ ih =>
    obtain ⟨more, rfl, size⟩ := ih
    exact ⟨more, rfl, by rw [size, List.count_cons_of_ne hr]⟩

/-- The events of requests are those of the labels made, whichever sink has made them. -/
theorem Serves.events_eq (h : s.Serves r rs made x vs made' y) {label : ℕ → Label}
    (numbers : Numbers label made') : vs = rs.flatMap (·.eventsOf r label) := by
  induction h with
  | done => rfl
  | make _ _ ih => exact ih numbers
  | perform _ events _ rest ih =>
    obtain ⟨more, rfl, -⟩ := rest.made_eq
    rw [List.flatMap_cons, Request.eventsOf_of_events numbers.of_append events, ih numbers]

theorem performAll_append (s : Sink σ) (us vs : List Event) (x : σ) :
    (s.performAll (us ++ vs)).run x = match (s.performAll us).run x with
      | .ok _ y => (s.performAll vs).run y
      | .error e y => .error e y := by
  induction us generalizing x with
  | nil => rfl
  | cons u us ih =>
    simp only [List.cons_append, performAll, EStateM.run_bind]
    cases (s.perform u).run x with
    | error e y => rfl
    | ok _ y => exact ih y

/-- Where no label is made, a run is the run of the events, whether it fails or not. -/
theorem run_eq_performAll (s : Sink σ) {label : ℕ → Label}
    (told : ∀ q ∈ rs, q ≠ .makeLabel ∧ q.events r #[] = .ok (q.eventsOf r label)) :
    s.run r rs = s.performAll (rs.flatMap (·.eventsOf r label)) := by
  have kept (x : σ) : EStateM.run (rs.forM fun q => discard (s.answer r q)) ⟨x, #[]⟩ =
      (Progress.onState (s.performAll (rs.flatMap (·.eventsOf r label)))).run ⟨x, #[]⟩ := by
    induction rs generalizing x with
    | nil => rfl
    | cons q rs ih =>
      have rest := ih fun q' mem => told q' (List.mem_cons_of_mem _ mem)
      obtain ⟨unlabelled, events⟩ := told q List.mem_cons_self
      simp only [List.forM_eq_forM, List.forM_cons, EStateM.run_bind] at rest ⊢
      rw [run_answer s r q unlabelled, events, List.flatMap_cons]
      simp only [run_onState, performAll_append] at rest ⊢
      cases (s.performAll (q.eventsOf r label)).run x with
      | error e y => rfl
      | ok _ y => exact rest y
  funext x
  have all := kept x
  rw [run_onState] at all
  simp only [EStateM.run, run] at all ⊢
  rw [all]
  cases s.performAll (rs.flatMap (·.eventsOf r label)) x <;> rfl

theorem answer_successor (s : Sink σ) (r : Routes) (successor : Option Label) {q : Request}
    (h : ¬q.asksSuccessor) : s.answer { r with successor } q = s.answer r q := by
  cases q with
  | testOrDefault index condition mayFallThrough =>
    obtain rfl : mayFallThrough = false := Bool.eq_false_iff.2 h
    rfl
  | askFallsTo label => exact absurd rfl h
  | _ => rfl

/-- A run whose requests do not ask for the successor is the same in front of any other label. -/
theorem run_successor (s : Sink σ) (r : Routes) (successor : Option Label) {rs : List Request}
    (h : ∀ q ∈ rs, ¬q.asksSuccessor) : s.run { r with successor } rs = s.run r rs := by
  have same : (rs.forM fun q => discard (s.answer { r with successor } q)) =
      rs.forM fun q => discard (s.answer r q) := by
    induction rs with
    | nil => rfl
    | cons q rs ih =>
      simp only [List.forM_eq_forM, List.forM_cons] at ih ⊢
      rw [s.answer_successor r successor (h q List.mem_cons_self),
        ih fun q' mem => h q' (List.mem_cons_of_mem _ mem)]
  unfold run
  rw [same]

/-- The sink refuses nothing. -/
structure Obliging (s : Sink σ) : Prop where
  perform : ∀ v x, ∃ y, (s.perform v).run x = .ok () y
  makeLabel : ∀ x, ∃ l y, s.makeLabel.run x = .ok l y

end Sink

/-- A transcript without a limit refuses nothing. -/
theorem Transcript.obliging_sink (refusal : Error) : (sink none refusal).Obliging where
  perform v x := by cases v <;> exact ⟨_, rfl⟩
  makeLabel x := ⟨_, _, rfl⟩

/-- A transcript without a limit holds what has been performed. -/
theorem Transcript.run_performAll_sink (refusal : Error) (vs : List Event) (t : Transcript) :
    ((sink none refusal).performAll vs).run t =
      .ok () { t with events := t.events ++ vs.toArray } := by
  induction vs generalizing t with
  | nil => simp [Sink.performAll]
  | cons v vs ih =>
    have kept : ((sink none refusal).perform v).run t =
        .ok () { t with events := t.events.push v } := by cases v <;> rfl
    rw [Sink.performAll, EStateM.run_bind, kept]
    simp only [ih]
    simp

end Multiway
