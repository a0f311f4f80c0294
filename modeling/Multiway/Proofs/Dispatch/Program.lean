import Multiway.Dispatch.Transcript
import Multiway.Proofs.Execution.Run

/-!
# Events as a program

Read from front to back, the events of a strategy are a program: a test goes to its target if the
comparison holds, a jump goes to its target, and a label that one of the events binds is the place
of that event. Control departs through a label that is bound by none of them.
-/
namespace Multiway

namespace Program

variable (events : List Event)

/-- What it is to go to a label: to the event that binds it, or away. -/
def goto (l : Label) : Except Departure ℕ :=
  if .bind l ∈ events then .ok (events.idxOf (.bind l)) else .error (.through l)

/-- One step from the `n`th event, where `holds` tells which comparisons hold. -/
def step (holds : ℕ → Condition → Bool) (n : ℕ) : Except Departure ℕ :=
  match events[n]? with
  | none => .error .falls
  | some (.test index condition target) =>
    if holds index condition then goto events target else .ok (n + 1)
  | some (.jump target) => goto events target
  | some (.bind _) => .ok (n + 1)

variable {events}

theorem goto_ne_astray (l : Label) : goto events l ≠ .error .astray := by
  unfold goto
  split_ifs <;> simp

theorem step_ne_astray (holds : ℕ → Condition → Bool) (n : ℕ) :
    step events holds n ≠ .error .astray := by
  unfold step
  split
  · simp
  · split_ifs
    · exact goto_ne_astray _
    · simp
  · exact goto_ne_astray _
  · simp

/-- A program never goes astray. -/
theorem not_departs_astray {holds : ℕ → Condition → Bool} {n : ℕ} :
    ¬Departs (step events holds) n .astray := by
  rintro ⟨k, hk⟩
  induction k generalizing n with
  | zero => contradiction
  | succ k ih =>
    rw [departure?] at hk
    cases taken : step events holds n with
    | error d =>
      simp only [taken, Option.some.injEq] at hk
      exact step_ne_astray holds n (by rw [taken, hk])
    | ok n' =>
      simp only [taken] at hk
      exact ih hk

/-! ## How a program ends -/

/-- Control that is at the `n`th event departs in this way and in no other. -/
def Ends (events : List Event) (holds : ℕ → Condition → Bool) (n : ℕ) (d : Departure) : Prop :=
  ∀ d', Departs (step events holds) n d' ↔ d' = d

variable {holds : ℕ → Condition → Bool} {n n' : ℕ} {d : Departure} {l : Label}
  {before rest : List Event}

theorem ends_of_error (left : step events holds n = .error d) : Ends events holds n d :=
  departs_iff_of_error left

theorem Ends.of_ok (h : Ends events holds n' d) (taken : step events holds n = .ok n') :
    Ends events holds n d := fun d' => (departs_iff_of_ok taken d').trans (h d')

theorem goto_eq_error (unbound : .bind l ∉ events) : goto events l = .error (.through l) :=
  if_neg unbound

theorem goto_append (unbound : .bind l ∉ before) :
    goto (before ++ .bind l :: rest) l = .ok before.length := by
  unfold goto
  rw [if_pos (List.mem_append_right _ List.mem_cons_self), List.idxOf_append,
    if_neg unbound, List.idxOf_cons_self, Nat.zero_add]

theorem step_test (index : ℕ) (condition : Condition) :
    step (before ++ .test index condition l :: rest) holds before.length =
      if holds index condition then goto (before ++ .test index condition l :: rest) l
      else .ok (before ++ [Event.test index condition l]).length := by
  simp [step]

theorem step_of_test {index : ℕ} {condition : Condition}
    (here : events[n]? = some (.test index condition l)) :
    step events holds n = if holds index condition then goto events l else .ok (n + 1) := by
  simp only [step, here]

theorem step_of_bind (here : events[n]? = some (.bind l)) : step events holds n = .ok (n + 1) := by
  simp only [step, here]

theorem step_jump :
    step (before ++ .jump l :: rest) holds before.length =
      goto (before ++ .jump l :: rest) l := by
  simp [step]

theorem ends_length : Ends events holds events.length .falls :=
  ends_of_error (by simp [step])

end Program

end Multiway
