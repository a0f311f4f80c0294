import Multiway.Proofs.Machine.Comparison
import Multiway.Proofs.Search.Destination

/-!
# Final tests

A final test decides between the target of a key and the default target. Whatever the sink, it comes
down to a test, or to a test and a jump, and these lead to the right one of the two targets in front
of any successor. Where control may not fall through, it never does.

Only the outcomes of the condition and of its negation matter, so it makes no difference whether the
operands are compared or the flags of their difference are tested.
-/
namespace Multiway

/-- A final test performs the events of its decision, whether they fail or not. -/
theorem Sink.testOrDefault_eq_performAll {σ : Type} (s : Sink σ) {r : Routes} {index : ℕ}
    (inside : index < r.targets.size) (condition : Condition) (mayFallThrough : Bool) :
    s.testOrDefault r index condition mayFallThrough =
      s.performAll (r.decisionEvents index condition mayFallThrough) := by
  have events : (Request.testOrDefault index condition mayFallThrough).events r #[] =
      .ok (r.decisionEvents index condition mayFallThrough) := by
    simp only [Request.events, Routes.target_eq inside]
    rfl
  funext x
  have performed := s.run_testOrDefault r index condition mayFallThrough x #[]
  rw [events] at performed
  exact performed

/-- The events of a decision bind no label. -/
theorem Routes.outside_decisionEvents (r : Routes) (index : ℕ) (condition : Condition)
    (mayFallThrough : Bool) : r.Outside (r.decisionEvents index condition mayFallThrough) := by
  have unbound (l : Label) : .bind l ∉ r.decisionEvents index condition mayFallThrough := by
    intro mem
    obtain ⟨c, l', eq, -⟩ | eq := mem_decisionEvents_cases mem <;> contradiction
  exact ⟨unbound _, fun _ => unbound _⟩

/-- The two ways to decide conditions between words: from their order, as signed or as unsigned
numbers, and from the flags of their difference. -/
def Condition.Decided {w : ℕ} (x y : BitVec w) (holds : Condition → Bool) : Prop :=
  (∀ c, holds c = c.holds x y) ∨ ∀ c, holds c = c.flagTest.passes (.ofDifference x y)

theorem Condition.Decided.holds_eq {w : ℕ} {x y : BitVec w} {holds : Condition → Bool}
    (decided : Decided x y holds) (c : Condition) : holds c = c.holds x y := by
  obtain ordered | flags := decided
  · exact ordered c
  · rw [flags, Condition.passes_ofDifference]

namespace Program

variable {events : List Event} {holds : ℕ → Condition → Bool} {successor : Option Label}

/-- Control arrives at a label, either through it or at the end of the events in front of it. -/
def Arrives (events : List Event) (holds : ℕ → Condition → Bool) (successor : Option Label)
    (l : Label) : Prop :=
  ∃ d, Departs (step events holds) 0 d ∧ d.arrival successor = some l

theorem Ends.arrives_iff {d : Departure} (ends : Ends events holds 0 d) {l : Label}
    (arrival : d.arrival successor = some l) (l' : Label) :
    Arrives events holds successor l' ↔ l' = l := by
  constructor
  · rintro ⟨d', departs, arrival'⟩
    obtain rfl := (ends d').1 departs
    exact Option.some.inj (arrival'.symm.trans arrival)
  · rintro rfl
    exact ⟨d, (ends d).2 rfl, arrival⟩

end Program

/-- Between any two words, whether they are compared or the flags of their difference are tested, a
final test leads to the target of its key if the condition holds and to the default target if not.
It never falls off the end unless it may. -/
theorem Sink.testOrDefault_decides (r : Routes) {index : ℕ} (inside : index < r.targets.size)
    (condition : Condition) (mayFallThrough : Bool) :
    let events := r.decisionEvents index condition mayFallThrough
    (∀ {σ : Type} (s : Sink σ),
      s.testOrDefault r index condition mayFallThrough = s.performAll events) ∧
    ∀ {w : ℕ} (x y : BitVec w) (holds : ℕ → Condition → Bool),
      Condition.Decided x y (holds index) →
      (∀ l, Program.Arrives events holds r.successor l ↔
        l = if condition.holds x y then r.targets[index] else r.default) ∧
      (mayFallThrough = false → ¬Departs (Program.step events holds) 0 .falls) := by
  intro events
  refine ⟨fun s => s.testOrDefault_eq_performAll inside condition mayFallThrough, ?_⟩
  intro w x y holds decided
  have outside : r.Outside events := r.outside_decisionEvents index condition mayFallThrough
  have outcome : r.outcome index (holds index condition) =
      if condition.holds x y then r.targets[index] else r.default := by
    rw [Routes.outcome, decided.holds_eq, Routes.targetOf, Array.getD_eq_getD_getElem?,
      Array.getElem?_eq_getElem inside, Option.getD_some]
  constructor
  · have complement : holds index condition.negate = !holds index condition := by
      rw [decided.holds_eq, decided.holds_eq, Condition.holds_negate]
    have program : events = [] ++ r.decisionEvents index condition mayFallThrough := rfl
    obtain ⟨d, ends, arrival⟩ := Program.arrives_decision program outside complement
    rw [outcome] at arrival
    exact ends.arrives_iff arrival
  · rintro rfl falls
    have program : events = [] ++ r.decisionEvents index condition false ++ [] := by
      rw [List.nil_append, List.append_nil]
    have away : Program.Ends events holds ([] : List Event).length (.through _) :=
      Program.ends_decision program outside
    exact Departure.noConfusion ((away _).1 falls)

/-- The least signed word is less than one, though their difference overflows. In front of the
target of the key the test is turned round, and control falls through to it. -/
theorem Sink.testOrDefault_decides_of_overflow :
    let r : Routes := ⟨#[⟨0⟩], ⟨1⟩, some ⟨0⟩⟩
    let flags : ℕ → Condition → Bool := fun _ c =>
      c.flagTest.passes (.ofDifference 0x80000000#32 1#32)
    0 < r.targets.size ∧ Condition.Decided 0x80000000#32 1#32 (flags 0) ∧
      Program.Arrives [.test 0 .greaterEqual ⟨1⟩] flags (some ⟨0⟩) ⟨0⟩ := by
  intro r flags
  have decided : Condition.Decided 0x80000000#32 1#32 (flags 0) := Or.inr fun _ => rfl
  have inside : 0 < r.targets.size := by decide
  have arrives := ((testOrDefault_decides r inside .less true).2 _ _ flags decided).1 ⟨0⟩
  exact ⟨inside, decided, arrives.2 rfl⟩

end Multiway
