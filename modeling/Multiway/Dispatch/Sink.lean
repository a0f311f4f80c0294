import Multiway.Dispatch.Request

/-!
# Sinks

A sink answers four basic requests; all others are made of these and of the routes. A request that
fails leaves the sink in the state that it reached, so more requests may follow.
-/
namespace Multiway

/-- Answers to the basic requests, over a state. -/
structure Sink (σ : Type) where
  test : Nat → Condition → Label → EStateM Error σ Unit
  jump : Label → EStateM Error σ Unit
  bind : Label → EStateM Error σ Unit
  makeLabel : EStateM Error σ Label

/-- A sink's state and the labels it has made for one list of requests. -/
structure Progress (σ : Type) where
  state : σ
  made : Array Label := #[]

namespace Progress

variable {σ α : Type}

/-- An action on the state alone. -/
def onState (action : EStateM Error σ α) : EStateM Error (Progress σ) α := fun ⟨state, made⟩ =>
  match action state with
  | .ok a state => .ok a ⟨state, made⟩
  | .error e state => .error e ⟨state, made⟩

/-- The label that a request names. A label that is not made yet is unknown. -/
def resolve (ref : LabelRef) : EStateM Error (Progress σ) Label :=
  match ref with
  | .known label => pure label
  | .fresh n => do
    match (← get).made[n]? with
    | some label => pure label
    | none => throw (.unknownLabel ⟨n⟩)

/-- Records a label as the latest one made. -/
def record (label : Label) : EStateM Error (Progress σ) Unit :=
  modify fun ⟨state, made⟩ => ⟨state, made.push label⟩

end Progress

namespace Sink

open Progress

variable {σ : Type}

/-- A test that goes to the default target if it fails. If control may fall through to the default
target the test alone will do, and if it may fall through to the key's target so will its
negation. -/
def testOrDefault (s : Sink σ) (routes : Routes) (index : Nat) (condition : Condition)
    (mayFallThrough : Bool) : EStateM Error σ Unit := do
  let target ← MonadExcept.ofExcept (routes.target index)
  if mayFallThrough && routes.fallsTo routes.default then
    s.test index condition target
  else if mayFallThrough && routes.fallsTo target then
    s.test index condition.negate routes.default
  else do
    s.test index condition target
    s.jump routes.default

def answer (s : Sink σ) (routes : Routes) : Request → EStateM Error (Progress σ) Answer
  | .test index condition target => do
    let target ← resolve target
    onState (s.test index condition target)
    pure .done
  | .jump target => do
    let target ← resolve target
    onState (s.jump target)
    pure .done
  | .bind label => do
    let label ← resolve label
    onState (s.bind label)
    pure .done
  | .makeLabel => do
    let label ← onState s.makeLabel
    record label
    pure (.label label)
  | .testToTarget index condition => do
    let target ← MonadExcept.ofExcept (routes.target index)
    onState (s.test index condition target)
    pure .done
  | .testOrDefault index condition mayFallThrough => do
    onState (s.testOrDefault routes index condition mayFallThrough)
    pure .done
  | .askTarget index => do
    let target ← MonadExcept.ofExcept (routes.target index)
    pure (.label target)
  | .askDefault => pure (.label routes.default)
  | .askFallsTo label => do
    let label ← resolve label
    pure (.flag (routes.fallsTo label))

/-- Makes requests in order and stops at the first one that fails. -/
def run (s : Sink σ) (routes : Routes) (requests : List Request) : EStateM Error σ Unit :=
  fun state =>
    match requests.forM (fun request => discard (s.answer routes request)) ⟨state, #[]⟩ with
    | .ok _ progress => .ok () progress.state
    | .error e progress => .error e progress.state

/-- Makes requests in order, whether they fail or not, and collects their outcomes. -/
def answers (s : Sink σ) (routes : Routes) :
    List Request → Progress σ → List (Except Error Answer) × Progress σ
  | [], progress => ([], progress)
  | request :: rest, progress =>
    match s.answer routes request progress with
    | .ok answer progress =>
      let (outcomes, progress) := s.answers routes rest progress
      (.ok answer :: outcomes, progress)
    | .error e progress =>
      let (outcomes, progress) := s.answers routes rest progress
      (.error e :: outcomes, progress)

end Sink

end Multiway
