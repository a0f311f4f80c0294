import Multiway.Dispatch.Sink

/-!
# Transcripts

A transcript keeps the basic requests of a strategy in order and does nothing else with them. Its
labels are numbered from a given start. A transcript may have room for a limited number of events,
and refuses the request that finds no room.
-/
namespace Multiway

/-- A basic request, with its label resolved. -/
inductive Event where
  | test (index : Nat) (condition : Condition) (target : Label)
  | jump (target : Label)
  | bind (label : Label)
  deriving DecidableEq, Repr

/-- The basic requests made so far. -/
structure Transcript where
  events : Array Event := #[]
  nextLabel : Nat := 0
  deriving DecidableEq, Repr

namespace Transcript

/-- Keeps an event, if fewer than `limit` are kept. -/
def keep (limit : Option Nat) (refusal : Error) (e : Event) : EStateM Error Transcript Unit := do
  let transcript ← get
  if limit.all (transcript.events.size < ·) then
    set { transcript with events := transcript.events.push e }
  else throw refusal

/-- Keeps events up to a limit, if there is one, and refuses the event beyond it. -/
def sink (limit : Option Nat) (refusal : Error) : Sink Transcript where
  test index condition target := keep limit refusal (.test index condition target)
  jump target := keep limit refusal (.jump target)
  bind label := keep limit refusal (.bind label)
  makeLabel := modifyGet fun t => (⟨t.nextLabel⟩, { t with nextLabel := t.nextLabel + 1 })

end Transcript

end Multiway
