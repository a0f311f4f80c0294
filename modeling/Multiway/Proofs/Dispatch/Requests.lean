import Multiway.Dispatch.Transcript
import Mathlib.Tactic.Common

/-!
# What requests come down to

Every request but the one for a label comes down to a list of events, which depends on the routes
and on the labels made so far, but not on the sink. A sink that answers the request performs these
events in order. A run of requests is therefore a run of events with labels made in between, and
what each basic request does to a sink decides what a run does.
-/
namespace Multiway

/-- The label that a reference stands for, among the labels made so far. -/
def LabelRef.label? (made : Array Label) : LabelRef → Except Error Label
  | .known label => .ok label
  | .fresh n =>
    match made[n]? with
    | some label => .ok label
    | none => .error (.unknownLabel ⟨n⟩)

def Request.events (routes : Routes) (made : Array Label) : Request → Except Error (List Event)
  | .test index condition target => (target.label? made).map fun l => [.test index condition l]
  | .jump target => (target.label? made).map fun l => [.jump l]
  | .bind label => (label.label? made).map fun l => [.bind l]
  | .testToTarget index condition =>
    (routes.target index).map fun l => [.test index condition l]
  | .testOrDefault index condition mayFallThrough =>
    (routes.target index).map fun l =>
      if mayFallThrough && routes.fallsTo routes.default then [.test index condition l]
      else if mayFallThrough && routes.fallsTo l then
        [.test index condition.negate routes.default]
      else [.test index condition l, .jump routes.default]
  | .askTarget index => (routes.target index).map fun _ => []
  | .askFallsTo label => (label.label? made).map fun _ => []
  | .makeLabel | .askDefault => .ok []

namespace Sink

open Progress

variable {σ : Type}

/-- The answer to an event, as to the basic request that it is. -/
def perform (s : Sink σ) : Event → EStateM Error σ Unit
  | .test index condition target => s.test index condition target
  | .jump target => s.jump target
  | .bind label => s.bind label

/-- Performs events in order and stops at the first one that fails. -/
def performAll (s : Sink σ) : List Event → EStateM Error σ Unit
  | [] => pure ()
  | v :: vs => do
    s.perform v
    s.performAll vs

theorem run_ofExcept {α : Type} (r : Except Error α) (x : σ) :
    EStateM.run (MonadExcept.ofExcept r : EStateM Error σ α) x = match r with
      | .ok a => .ok a x
      | .error e => .error e x := by
  cases r <;> rfl

theorem run_discard {α : Type} (a : EStateM Error σ α) (x : σ) :
    EStateM.run (discard a) x = match a.run x with
      | .ok _ y => .ok () y
      | .error e y => .error e y := by
  simp only [discard, LawfulFunctor.map_const, Function.comp_apply, map_eq_pure_bind,
    EStateM.run_bind, EStateM.run_pure, Function.const_apply]
  cases a.run x <;> rfl

theorem run_onState {α : Type} (a : EStateM Error σ α) (x : σ) (made : Array Label) :
    EStateM.run (onState a) ⟨x, made⟩ = match a.run x with
      | .ok r y => .ok r ⟨y, made⟩
      | .error e y => .error e ⟨y, made⟩ := rfl

theorem run_resolve (ref : LabelRef) (x : σ) (made : Array Label) :
    EStateM.run (resolve ref) ⟨x, made⟩ = match ref.label? made with
      | .ok l => .ok l ⟨x, made⟩
      | .error e => .error e ⟨x, made⟩ := by
  cases ref with
  | known l => rfl
  | fresh n =>
    simp only [resolve, EStateM.run_bind, EStateM.run_get, LabelRef.label?]
    cases made[n]? <;> rfl

theorem run_performAll_single (s : Sink σ) (v : Event) (x : σ) :
    EStateM.run (s.performAll [v]) x = EStateM.run (s.perform v) x := by
  simp only [performAll, EStateM.run_bind, EStateM.run_pure]
  cases EStateM.run (s.perform v) x <;> rfl

theorem run_testOrDefault (s : Sink σ) (routes : Routes) (index : ℕ) (condition : Condition)
    (mayFallThrough : Bool) (x : σ) (made : Array Label) :
    EStateM.run (s.testOrDefault routes index condition mayFallThrough) x =
      match (Request.testOrDefault index condition mayFallThrough).events routes made with
      | .ok vs => (s.performAll vs).run x
      | .error e => .error e x := by
  simp only [testOrDefault, Request.events, EStateM.run_bind, run_ofExcept]
  cases routes.target index with
  | error e => rfl
  | ok l =>
    simp only [Except.map]
    split_ifs
    · simp only [run_performAll_single, perform]
    · simp only [run_performAll_single, perform]
    · simp only [performAll, perform, EStateM.run_bind, EStateM.run_pure]
      cases EStateM.run (s.test index condition l) x with
      | error e y => rfl
      | ok _ y =>
        simp only
        cases EStateM.run (s.jump routes.default) y <;> rfl

/-- A sink answers a request by performing its events. -/
theorem run_answer (s : Sink σ) (routes : Routes) (r : Request) (hr : r ≠ .makeLabel) (x : σ)
    (made : Array Label) :
    EStateM.run (discard (s.answer routes r)) ⟨x, made⟩ =
      match r.events routes made with
      | .ok vs => (onState (s.performAll vs)).run ⟨x, made⟩
      | .error e => .error e ⟨x, made⟩ := by
  cases r with
  | makeLabel => exact absurd rfl hr
  | test index condition target =>
    simp only [answer, run_discard, EStateM.run_bind, run_resolve, Request.events]
    cases target.label? made with
    | error e => rfl
    | ok l =>
      simp only [Except.map, run_onState, run_performAll_single, perform]
      cases EStateM.run (s.test index condition l) x <;> rfl
  | jump target =>
    simp only [answer, run_discard, EStateM.run_bind, run_resolve, Request.events]
    cases target.label? made with
    | error e => rfl
    | ok l =>
      simp only [Except.map, run_onState, run_performAll_single, perform]
      cases EStateM.run (s.jump l) x <;> rfl
  | bind label =>
    simp only [answer, run_discard, EStateM.run_bind, run_resolve, Request.events]
    cases label.label? made with
    | error e => rfl
    | ok l =>
      simp only [Except.map, run_onState, run_performAll_single, perform]
      cases EStateM.run (s.bind l) x <;> rfl
  | testToTarget index condition =>
    simp only [answer, run_discard, EStateM.run_bind, run_ofExcept, Request.events]
    cases routes.target index with
    | error e => rfl
    | ok l =>
      simp only [Except.map, run_onState, run_performAll_single, perform]
      cases EStateM.run (s.test index condition l) x <;> rfl
  | testOrDefault index condition mayFallThrough =>
    simp only [answer, run_discard, EStateM.run_bind, run_onState,
      run_testOrDefault s routes index condition mayFallThrough x made]
    cases (Request.testOrDefault index condition mayFallThrough).events routes made with
    | error e => rfl
    | ok vs =>
      simp only
      cases EStateM.run (s.performAll vs) x <;> rfl
  | askTarget index =>
    simp only [answer, run_discard, EStateM.run_bind, run_ofExcept, Request.events]
    cases routes.target index <;> rfl
  | askDefault => rfl
  | askFallsTo label =>
    simp only [answer, run_discard, EStateM.run_bind, run_resolve, Request.events]
    cases label.label? made <;> rfl

theorem run_answer_makeLabel (s : Sink σ) (routes : Routes) (x : σ) (made : Array Label) :
    EStateM.run (discard (s.answer routes .makeLabel)) ⟨x, made⟩ =
      match EStateM.run s.makeLabel x with
      | .ok l y => .ok () ⟨y, made.push l⟩
      | .error e y => .error e ⟨y, made⟩ := by
  simp only [answer, run_discard, EStateM.run_bind, run_onState, record]
  cases EStateM.run s.makeLabel x <;> rfl

/-! ## Runs -/

/-- Requests are served: they come down to the events `vs` and the labels `made'`, and performing
the one and making the other leads from the state `x` to the state `y`. -/
inductive Serves (s : Sink σ) (routes : Routes) :
    List Request → Array Label → σ → List Event → Array Label → σ → Prop
  | done {made : Array Label} {x : σ} : Serves s routes [] made x [] made x
  | make {rs : List Request} {made made' : Array Label} {x y z : σ} {l : Label}
      {vs : List Event} : s.makeLabel.run x = .ok l y →
      Serves s routes rs (made.push l) y vs made' z →
      Serves s routes (.makeLabel :: rs) made x vs made' z
  | perform {r : Request} {rs : List Request} {made made' : Array Label} {x y z : σ}
      {us vs : List Event} : r ≠ .makeLabel → r.events routes made = .ok us →
      (s.performAll us).run x = .ok () y → Serves s routes rs made y vs made' z →
      Serves s routes (r :: rs) made x (us ++ vs) made' z

theorem serves_of_forM (s : Sink σ) (routes : Routes) {rs : List Request} {made made' : Array Label}
    {x y : σ}
    (h : EStateM.run (rs.forM fun r => discard (s.answer routes r)) ⟨x, made⟩ = .ok () ⟨y, made'⟩) :
    ∃ vs, s.Serves routes rs made x vs made' y := by
  induction rs generalizing made x with
  | nil =>
    cases h
    exact ⟨[], .done⟩
  | cons r rs ih =>
    simp only [List.forM_eq_forM, List.forM_cons, EStateM.run_bind] at h
    by_cases hr : r = .makeLabel
    · subst hr
      rw [run_answer_makeLabel] at h
      cases label : EStateM.run s.makeLabel x with
      | error e x' => simp [label] at h
      | ok l x' =>
        simp only [label] at h
        obtain ⟨vs, rest⟩ := ih h
        exact ⟨vs, .make label rest⟩
    · rw [run_answer s routes r hr] at h
      cases events : r.events routes made with
      | error e => simp [events] at h
      | ok us =>
        simp only [events, run_onState] at h
        cases performed : EStateM.run (s.performAll us) x with
        | error e x' => simp [performed] at h
        | ok _ x' =>
          simp only [performed] at h
          obtain ⟨vs, rest⟩ := ih h
          exact ⟨us ++ vs, .perform hr events performed rest⟩

theorem Serves.forM {s : Sink σ} {routes : Routes} {rs : List Request} {made made' : Array Label}
    {x y : σ} {vs : List Event} (h : s.Serves routes rs made x vs made' y) :
    EStateM.run (rs.forM fun r => discard (s.answer routes r)) ⟨x, made⟩ = .ok () ⟨y, made'⟩ := by
  induction h with
  | done => rfl
  | make label _ ih =>
    simp only [List.forM_eq_forM, List.forM_cons, EStateM.run_bind] at ih ⊢
    rw [run_answer_makeLabel, label]
    exact ih
  | perform hr events performed _ ih =>
    simp only [List.forM_eq_forM, List.forM_cons, EStateM.run_bind] at ih ⊢
    rw [run_answer _ _ _ hr, events]
    simp only [run_onState, performed]
    exact ih

/-- A run succeeds exactly if its requests are served. -/
theorem run_eq_ok_iff {s : Sink σ} {routes : Routes} {rs : List Request} {x y : σ} :
    s.run routes rs x = .ok () y ↔ ∃ vs made, s.Serves routes rs #[] x vs made y := by
  constructor
  · intro h
    simp only [run] at h
    cases performed : EStateM.run (rs.forM fun r => discard (s.answer routes r)) ⟨x, #[]⟩ with
    | error e p =>
      rw [EStateM.run] at performed
      simp [performed] at h
    | ok _ p =>
      obtain ⟨z, made⟩ := p
      obtain ⟨vs, served⟩ := serves_of_forM s routes performed
      rw [EStateM.run] at performed
      simp only [performed, EStateM.Result.ok.injEq, true_and] at h
      subst h
      exact ⟨vs, made, served⟩
  · rintro ⟨vs, made, served⟩
    have performed := served.forM
    rw [EStateM.run] at performed
    simp only [run, performed]

theorem Serves.append {s : Sink σ} {routes : Routes} {rs rs' : List Request}
    {made made' made'' : Array Label} {x y z : σ} {vs vs' : List Event}
    (first : s.Serves routes rs made x vs made' y)
    (rest : s.Serves routes rs' made' y vs' made'' z) :
    s.Serves routes (rs ++ rs') made x (vs ++ vs') made'' z := by
  induction first with
  | done => exact rest
  | make label _ ih => exact .make label (ih rest)
  | perform hr events performed _ ih =>
    rw [List.append_assoc]
    exact .perform hr events performed (ih rest)

/-- One request is served if its events are performed. -/
theorem Serves.single {s : Sink σ} {routes : Routes} {r : Request} {made : Array Label} {x y : σ}
    {vs : List Event} (hr : r ≠ .makeLabel) (events : r.events routes made = .ok vs)
    (performed : (s.performAll vs).run x = .ok () y) : s.Serves routes [r] made x vs made y := by
  simpa using Serves.perform hr events performed .done

/-! ## What every served list of requests does

A relation between the states before and after some events and the labels made meanwhile that holds
of each basic request, and of one after the other, holds of every list of requests that is served.
-/

/-- Each basic request that succeeds leads from one state to another in a certain way. -/
structure Traces (s : Sink σ) (R : σ → List Event → List Label → σ → Prop) : Prop where
  nil : ∀ x, R x [] [] x
  append : ∀ {x y z : σ} {us vs : List Event} {ls ms : List Label},
    R x us ls y → R y vs ms z → R x (us ++ vs) (ls ++ ms) z
  perform : ∀ {v : Event} {x y : σ}, (s.perform v).run x = .ok () y → R x [v] [] y
  makeLabel : ∀ {l : Label} {x y : σ}, s.makeLabel.run x = .ok l y → R x [] [l] y

theorem Traces.performAll {s : Sink σ} {R : σ → List Event → List Label → σ → Prop}
    (traces : s.Traces R) {vs : List Event} {x y : σ}
    (performed : (s.performAll vs).run x = .ok () y) : R x vs [] y := by
  induction vs generalizing x with
  | nil =>
    cases performed
    exact traces.nil _
  | cons v vs ih =>
    rw [Sink.performAll, EStateM.run_bind] at performed
    cases first : (s.perform v).run x with
    | error e z => simp [first] at performed
    | ok _ z =>
      simp only [first] at performed
      exact traces.append (traces.perform first) (ih performed)

theorem Traces.serves {s : Sink σ} {R : σ → List Event → List Label → σ → Prop}
    (traces : s.Traces R) {routes : Routes} {rs : List Request} {made made' : Array Label} {x y : σ}
    {vs : List Event} (served : s.Serves routes rs made x vs made' y) :
    ∃ ls, made'.toList = made.toList ++ ls ∧ R x vs ls y := by
  induction served with
  | done => exact ⟨[], (List.append_nil _).symm, traces.nil _⟩
  | @make _ _ _ _ _ _ l _ label _ ih =>
    obtain ⟨ls, made, rest⟩ := ih
    refine ⟨l :: ls, ?_, traces.append (traces.makeLabel label) rest⟩
    rw [made, Array.toList_push, List.append_assoc]
    rfl
  | perform _ _ performed _ ih =>
    obtain ⟨ls, made, rest⟩ := ih
    exact ⟨ls, made, traces.append (traces.performAll performed) rest⟩

/-! ## What every run keeps

A relation between states that each basic request keeps, whether it fails or not, is kept by every
list of requests, wherever it stops.
-/

/-- The state that an action ends in, whether it fails or not. -/
def stateAfter {α : Type} (a : EStateM Error σ α) (x : σ) : σ :=
  match a.run x with
  | .ok _ y => y
  | .error _ y => y

/-- Each basic request keeps a relation between states. -/
structure Keeps (s : Sink σ) (R : σ → σ → Prop) : Prop where
  refl : ∀ x, R x x
  trans : ∀ {x y z}, R x y → R y z → R x z
  perform : ∀ v x, R x (stateAfter (s.perform v) x)
  makeLabel : ∀ x, R x (stateAfter s.makeLabel x)

variable {s : Sink σ} {R : σ → σ → Prop}

theorem Keeps.performAll (keeps : s.Keeps R) (vs : List Event) (x : σ) :
    R x (stateAfter (s.performAll vs) x) := by
  induction vs generalizing x with
  | nil => exact keeps.refl x
  | cons v vs ih =>
    have first := keeps.perform v x
    unfold stateAfter at first ⊢
    rw [Sink.performAll, EStateM.run_bind]
    cases performed : (s.perform v).run x with
    | error e y => simpa only [performed] using first
    | ok _ y =>
      simp only [performed] at first ⊢
      exact keeps.trans first (ih y)

theorem Keeps.answer (keeps : s.Keeps R) (routes : Routes) (r : Request) (x : σ)
    (made : Array Label) :
    R x (stateAfter (discard (s.answer routes r)) ⟨x, made⟩).state := by
  by_cases hr : r = .makeLabel
  · subst hr
    have label := keeps.makeLabel x
    unfold stateAfter at label ⊢
    rw [run_answer_makeLabel]
    cases answered : s.makeLabel.run x <;> simpa only [answered] using label
  · unfold stateAfter
    rw [run_answer s routes r hr]
    cases r.events routes made with
    | error e => exact keeps.refl x
    | ok vs =>
      have all := keeps.performAll vs x
      unfold stateAfter at all
      simp only [run_onState]
      cases performed : (s.performAll vs).run x <;> simpa only [performed] using all

theorem Keeps.forM (keeps : s.Keeps R) (routes : Routes) (rs : List Request) (x : σ)
    (made : Array Label) :
    R x (stateAfter (rs.forM fun r => discard (s.answer routes r)) ⟨x, made⟩).state := by
  induction rs generalizing x made with
  | nil => exact keeps.refl x
  | cons r rs ih =>
    have first := keeps.answer routes r x made
    unfold stateAfter at first ih ⊢
    simp only [List.forM_eq_forM, List.forM_cons, EStateM.run_bind] at ih ⊢
    cases answered : EStateM.run (discard (s.answer routes r)) ⟨x, made⟩ with
    | error e p => simpa only [answered] using first
    | ok _ p =>
      simp only [answered] at first ⊢
      exact keeps.trans first (ih p.state p.made)

theorem Keeps.run (keeps : s.Keeps R) (routes : Routes) (rs : List Request) (x : σ) :
    R x (stateAfter (s.run routes rs) x) := by
  have all := keeps.forM routes rs x #[]
  unfold stateAfter at all ⊢
  simp only [EStateM.run, Sink.run] at all ⊢
  cases served : rs.forM (fun r => discard (s.answer routes r)) ⟨x, #[]⟩ <;>
    simpa only [served] using all

theorem Keeps.answers (keeps : s.Keeps R) (routes : Routes) (rs : List Request)
    (p : Progress σ) : R p.state (s.answers routes rs p).2.state := by
  induction rs generalizing p with
  | nil => exact keeps.refl _
  | cons r rs ih =>
    have first := keeps.answer routes r p.state p.made
    unfold stateAfter at first
    rw [run_discard] at first
    rw [Sink.answers]
    simp only [EStateM.run] at first
    cases answered : s.answer routes r p with
    | error e q =>
      simp only [answered] at first ⊢
      exact keeps.trans first (ih q)
    | ok a q =>
      simp only [answered] at first ⊢
      exact keeps.trans first (ih q)

end Sink

end Multiway
