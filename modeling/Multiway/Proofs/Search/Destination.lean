import Multiway.Proofs.Dispatch.Program
import Multiway.Proofs.Search.Events

/-!
# Where a search leads

Equality tests in order lead to the target of the first key that the value matches. The last test
decides between its key and the default target. Where control may fall through to one of the two,
one of its branches is missing, and control arrives at the same label without it.
-/
namespace Multiway

/-- The label at which control arrives in front of a successor, if it arrives at a label at all. -/
def Departure.arrival (successor : Option Label) : Departure → Option Label
  | through l => some l
  | falls => successor
  | astray => none

namespace Routes

/-- Where a value belongs: to the target of the first key that it matches, and to the default target
if it matches none. -/
def destination (r : Routes) (matching : ℕ → Bool) (indices : List ℕ) : Label :=
  ((indices.find? matching).map r.targetOf).getD r.default

/-- Where a value belongs that is compared to one key. -/
def outcome (r : Routes) (index : ℕ) (passed : Bool) : Label :=
  if passed then r.targetOf index else r.default

/-- None of the labels that a search leads to is bound by these events. -/
def Outside (r : Routes) (events : List Event) : Prop :=
  .bind r.default ∉ events ∧ ∀ index, .bind (r.targetOf index) ∉ events

variable {r : Routes} {matching : ℕ → Bool} {xs ys : List ℕ}

theorem destination_append :
    r.destination matching (xs ++ ys) = match xs.find? matching with
      | some index => r.targetOf index
      | none => r.destination matching ys := by
  rw [destination, List.find?_append]
  cases xs.find? matching <;> rfl

theorem destination_append_of_left (missed : xs.find? matching = none) :
    r.destination matching (xs ++ ys) = r.destination matching ys := by
  rw [destination_append, missed]

theorem destination_append_of_right (missed : ys.find? matching = none) :
    r.destination matching (xs ++ ys) = r.destination matching xs := by
  rw [destination, List.find?_append, missed, Option.or_none, destination]

theorem destination_singleton (r : Routes) (matching : ℕ → Bool) (index : ℕ) :
    r.destination matching [index] = r.outcome index (matching index) := by
  rw [destination, outcome, List.find?_singleton]
  cases matching index <;> rfl

/-- A value that matches one key only belongs to the target of this key. -/
theorem destination_eq_targetOf {index : ℕ} (mem : index ∈ xs) (matched : matching index)
    (only : ∀ i ∈ xs, matching i → i = index) : r.destination matching xs = r.targetOf index := by
  rw [destination]
  cases found : xs.find? matching with
  | none => exact absurd matched (List.find?_eq_none.1 found index mem)
  | some i =>
    obtain rfl := only i (List.mem_of_find?_eq_some found) (List.find?_some found)
    rfl

theorem destination_eq_default (missed : ∀ i ∈ xs, ¬matching i) :
    r.destination matching xs = r.default := by
  rw [destination, List.find?_eq_none.2 missed]
  rfl

/-- Where control does not fall through to either target, the branches are those of a test that may
not fall through. -/
theorem decisionEvents_eq_of_not_fallsTo {index : ℕ} (default : ¬r.fallsTo r.default)
    (target : ¬r.fallsTo (r.targetOf index)) (condition : Condition) (mayFallThrough : Bool) :
    r.decisionEvents index condition mayFallThrough = r.decisionEvents index condition false := by
  simp [decisionEvents, default, target]

end Routes

namespace Program

variable {events before after : List Event} {holds : ℕ → Condition → Bool} {r : Routes}
  {index last : ℕ} {rest : List ℕ} {condition : Condition} {l : Label} {d : Departure}

theorem ends_jump (program : events = before ++ .jump l :: after) (unbound : .bind l ∉ events) :
    Ends events holds before.length (.through l) := by
  apply ends_of_error
  rw [← goto_eq_error unbound, program, step_jump]

/-- A test leads away or to the next event. -/
theorem ends_test (program : events = before ++ .test index condition l :: after)
    (unbound : .bind l ∉ events) (passes : holds index condition = true → d = .through l)
    (fails : holds index condition = false →
      Ends events holds (before ++ [Event.test index condition l]).length d) :
    Ends events holds before.length d := by
  cases outcome : holds index condition with
  | false =>
    refine (fails outcome).of_ok ?_
    rw [program, step_test, outcome]
    rfl
  | true =>
    rw [passes outcome]
    apply ends_of_error
    rw [← goto_eq_error unbound, program, step_test, outcome]
    rfl

/-- A decision that may not fall through leads away, wherever it stands. -/
theorem ends_decision
    (program : events = before ++ r.decisionEvents index condition false ++ after)
    (outside : r.Outside events) :
    Ends events holds before.length (.through (r.outcome index (holds index condition))) := by
  have branches : events =
      before ++ .test index condition (r.targetOf index) :: (.jump r.default :: after) := by
    simpa [Routes.decisionEvents] using program
  refine ends_test branches (outside.2 index) ?_ ?_
  · intro passed
    rw [passed]
    rfl
  · intro failed
    have jump : events = (before ++ [.test index condition (r.targetOf index)]) ++
        .jump r.default :: after := by
      rw [branches, List.append_assoc, List.singleton_append]
    rw [failed]
    exact ends_jump jump outside.1

theorem ends_last_test (program : events = before ++ [.test index condition l])
    (unbound : .bind l ∉ events) :
    Ends events holds before.length (if holds index condition then .through l else .falls) := by
  refine ends_test program unbound (fun passed => by rw [if_pos passed]) ?_
  intro failed
  rw [failed, ← program]
  exact ends_length

/-- The last decision leads to the same label where control may fall through to it. -/
theorem arrives_decision {mayFallThrough : Bool}
    (program : events = before ++ r.decisionEvents index condition mayFallThrough)
    (outside : r.Outside events)
    (complement : holds index condition.negate = !holds index condition) :
    ∃ d, Ends events holds before.length d ∧
      d.arrival r.successor = some (r.outcome index (holds index condition)) := by
  rw [Routes.decisionEvents] at program
  split_ifs at program with default target
  · have successor : r.successor = some r.default :=
      of_decide_eq_true (Bool.and_eq_true_iff.1 default).2
    refine ⟨_, ends_last_test program (outside.2 index), ?_⟩
    cases holds index condition with
    | true => rfl
    | false => exact successor
  · have successor : r.successor = some (r.targetOf index) :=
      of_decide_eq_true (Bool.and_eq_true_iff.1 target).2
    refine ⟨_, ends_last_test program outside.1, ?_⟩
    rw [complement]
    cases holds index condition with
    | true => exact successor
    | false => rfl
  · have branches : events = before ++ r.decisionEvents index condition false ++ [] := by
      simpa [Routes.decisionEvents] using program
    exact ⟨_, ends_decision branches outside, rfl⟩

/-- Equality tests lead to the target of the first key that matches, or on to what follows. -/
theorem ends_tests
    (program : events = before ++
      (rest.map fun index => .test index .equal (r.targetOf index)) ++ after)
    (outside : r.Outside events)
    (found : ∀ index, rest.find? (holds · .equal) = some index → d = .through (r.targetOf index))
    (missed : rest.find? (holds · .equal) = none → Ends events holds
      (before ++ rest.map fun index => Event.test index .equal (r.targetOf index)).length d) :
    Ends events holds before.length d := by
  induction rest generalizing before with
  | nil => simpa using missed rfl
  | cons index rest ih =>
    rw [List.map_cons, List.append_assoc] at program
    refine ends_test program (outside.2 index) ?_ ?_
    · intro passed
      exact found index (List.find?_cons_of_pos passed)
    · intro failed
      rw [List.find?_cons_of_neg (by simp [failed])] at found missed
      refine ih ?_ found ?_
      · simpa using program
      · simpa using missed

/-- Equality tests in order that may not fall through lead to the destination of the value. -/
theorem ends_testsInOrder
    (program : events = before ++ r.testsInOrder rest last false ++ after)
    (outside : r.Outside events) : Ends events holds before.length
      (.through (r.destination (holds · .equal) (rest ++ [last]))) := by
  rw [Routes.testsInOrder, ← List.append_assoc] at program
  rw [Routes.destination_append]
  refine ends_tests (by rw [program, List.append_assoc]) outside ?_ ?_
  · intro index found
    rw [found]
  · intro missed
    rw [missed, Routes.destination_singleton]
    exact ends_decision program outside

/-- Equality tests in order lead to the destination of the value in front of any successor. -/
theorem arrives_testsInOrder {mayFallThrough : Bool}
    (program : events = before ++ r.testsInOrder rest last mayFallThrough)
    (outside : r.Outside events) (complement : holds last .notEqual = !holds last .equal) :
    ∃ d, Ends events holds before.length d ∧
      d.arrival r.successor = some (r.destination (holds · .equal) (rest ++ [last])) := by
  rw [Routes.testsInOrder, ← List.append_assoc] at program
  rw [Routes.destination_append]
  obtain ⟨d, ends, arrives⟩ := arrives_decision program outside complement
  cases first : rest.find? (holds · .equal) with
  | none =>
    refine ⟨d, ends_tests program outside ?_ (fun _ => ends), ?_⟩
    · simp [first]
    · rw [arrives, Routes.destination_singleton]
  | some index =>
    refine ⟨.through (r.targetOf index), ends_tests program outside ?_ ?_, rfl⟩
    · intro index' found
      rw [Option.some.inj (first.symm.trans found)]
    · simp [first]

end Program

end Multiway
