import Multiway.Proofs.Draft.Course
import Mathlib.Data.List.Nodup

/-!
# Local labels

All passes hand out the local labels of one list, in the order of this list, and add to it when it
is used up. No label stands in the list twice, whatever has been done with a draft. So the labels
that one pass asks for differ, and a pass that finds none of the labels bound that it has not asked
for yet can bind each of them when it has asked for it.
-/
namespace Multiway

namespace CodeBuffer

/-- The local labels that the pass has asked for, in order. -/
def handedOut (b : CodeBuffer) : List Label := b.locals.toList.take b.localsUsed

/-- The local labels that the pass has not asked for yet. -/
def upcoming (b : CodeBuffer) : List Label := b.locals.toList.drop b.localsUsed

variable {b x : CodeBuffer}

theorem handedOut_append_upcoming (b : CodeBuffer) :
    b.handedOut ++ b.upcoming = b.locals.toList := List.take_append_drop _ _

theorem mem_locals_of_mem_handedOut {l : Label} (mem : l ∈ b.handedOut) : l ∈ b.locals :=
  Array.mem_toList_iff.1 (List.mem_of_mem_take mem)

/-- The next local label is the first one of those to come. If there is none it is a new label. -/
theorem Consistent.localLabel_cases (h : b.Consistent) :
    b.localLabel.2.handedOut = b.handedOut ++ [b.localLabel.1] ∧
      (b.upcoming = b.localLabel.1 :: b.localLabel.2.upcoming ∨
        b.upcoming = [] ∧ b.localLabel.2.upcoming = [] ∧ b.localLabel.1 = ⟨b.labelCount⟩) := by
  unfold CodeBuffer.localLabel
  split
  · next l reused =>
    have here : b.locals.toList[b.localsUsed]? = some l := by rwa [Array.getElem?_toList]
    refine ⟨?_, Or.inl ?_⟩
    · simp only [handedOut, List.take_add_one, here]
      rfl
    · rw [upcoming, List.drop_eq_getElem?_toList_append, here]
      rfl
  · next none =>
    have used : b.localsUsed = b.locals.toList.length :=
      Nat.le_antisymm h.used (Array.getElem?_eq_none_iff.1 none)
    refine ⟨?_, Or.inr ⟨?_, ?_, rfl⟩⟩
    · rw [handedOut, handedOut, used, List.take_length, List.take_of_length_le]
      · exact Array.toList_push
      · simp [CodeBuffer.newLabel, used]
    · simp [upcoming, used]
    · simp [upcoming, used, CodeBuffer.newLabel]

/-- No local label stands in the list twice. -/
structure Distinct (b : CodeBuffer) : Prop extends b.Consistent where
  nodup_locals : b.locals.toList.Nodup

theorem Distinct.of_locals (h : b.Distinct) (consistent : x.Consistent)
    (locals : x.locals = b.locals) : x.Distinct :=
  ⟨consistent, locals ▸ h.nodup_locals⟩

theorem Distinct.localLabel (h : b.Distinct) : b.localLabel.2.Distinct :=
  ⟨h.toConsistent.localLabel, h.nodup_localLabel h.nodup_locals⟩

theorem Distinct.emitAll (h : b.Distinct) (is : List Instruction) : (b.emitAll is).Distinct :=
  h.of_locals (h.toConsistent.emitAll is) (by rw [emitAll_eq])

theorem Distinct.bind (h : b.Distinct) {l : Label} (bound : b.bind l = .ok x) : x.Distinct :=
  h.of_locals (h.toConsistent.bind bound) (bindings_of_bind bound).2.2.1

theorem Distinct.act (h : b.Distinct) (a : Action) : (b.act a).Distinct := by
  cases a with
  | newLabel => exact h.of_locals h.toConsistent.newLabel rfl
  | localLabel => exact h.localLabel
  | bind l =>
    simp only [CodeBuffer.act]
    cases bound : b.bind l with
    | ok b' => exact h.bind bound
    | error e => exact h
  | hint l => exact h.of_locals (h.toConsistent.hintFor l) rfl
  | append i => exact h.emitAll [i]
  | separateFused =>
    simp only [CodeBuffer.act, separateFused_eq]
    exact h.emitAll _
  | appendFused test codes left right target =>
    simp only [CodeBuffer.act, emitFused_eq]
    exact h.emitAll _
  | appendJump target => exact h.emitAll [.jump target, .nop]

theorem Distinct.actAll (h : b.Distinct) (as : List Action) : (b.actAll as).Distinct := by
  induction as generalizing b with
  | nil => exact h
  | cons a as ih => exact ih (h.act a)

theorem Distinct.rewind (h : b.Distinct) (m : Mark) : (b.rewind m).Distinct := by
  refine ⟨h.toConsistent.rewind m, ?_⟩
  rw [rewind_eq, Array.toList_filter]
  exact h.nodup_locals.filter _

theorem Distinct.nextPass (h : b.Distinct) : b.nextPass.Distinct :=
  h.of_locals h.toConsistent.nextPass rfl

theorem Distinct.disjoint (h : b.Distinct) : b.handedOut.Disjoint b.upcoming :=
  List.disjoint_take_drop h.nodup_locals le_rfl

theorem Distinct.nodup_handedOut (h : b.Distinct) : b.handedOut.Nodup :=
  h.nodup_locals.sublist (List.take_sublist _ _)

/-- What is handed out while a buffer grows was still to come before, or has been made since. -/
theorem Distinct.next_of_grown (h : x.Distinct) (grown : b.Grown x) {ls : List Label}
    (handedOut : x.handedOut = b.handedOut ++ ls) :
    ls.Nodup ∧ ∀ l ∈ ls, l ∈ b.upcoming ∨ b.labelCount ≤ l.index := by
  have distinct : (b.handedOut ++ ls).Nodup := handedOut ▸ h.nodup_handedOut
  refine ⟨(List.nodup_append.1 distinct).2.1, fun l mem => ?_⟩
  obtain ⟨more, locals, new⟩ := grown.locals
  have held : l ∈ x.locals :=
    mem_locals_of_mem_handedOut (by rw [handedOut]; exact List.mem_append_right _ mem)
  rw [locals, Array.mem_append, ← Array.mem_toList_iff, ← handedOut_append_upcoming,
    List.mem_append] at held
  obtain (old | next) | fresh := held
  · exact absurd mem (List.disjoint_of_nodup_append distinct old)
  · exact Or.inl next
  · exact Or.inr (new l fresh)

end CodeBuffer

open CodeBuffer

namespace Draft

theorem distinct_respond {d : Draft} (h : d.code.Distinct) (o : Operation) :
    (d.respond o).2.code.Distinct := by
  obtain ⟨as, code⟩ | ⟨as, m, -, code⟩ | ⟨-, code⟩ := d.code_respond o
  · rw [code]
    exact h.actAll as
  · rw [code]
    exact (h.actAll as).rewind m.code
  · rw [code]
    exact h.nextPass

/-- After every history the local labels differ. -/
theorem distinct_after (os : List Operation) {d : Draft} (h : d.code.Distinct) :
    (Draft.after os d).code.Distinct := by
  induction os generalizing d with
  | nil => exact h
  | cons o os ih => exact ih (distinct_respond h o)

theorem distinct_fresh (m : Machine) : ({ machine := m } : Draft).code.Distinct :=
  ⟨consistent_empty, .nil⟩

end Draft

/-! ## Labels that can be bound -/

namespace CodeBuffer

/-- Some labels that have been asked for can still be bound, and so can all that are to come. -/
structure Ready (pending : List Label) (b : CodeBuffer) : Prop extends b.Distinct where
  upcoming : ∀ l ∈ b.upcoming, b.position? l = none
  nodup : pending.Nodup
  handedOut : ∀ l ∈ pending, l ∈ b.handedOut
  unbound : ∀ l ∈ pending, b.position? l = none

theorem Distinct.ready {b : CodeBuffer} (h : b.Distinct)
    (upcoming : ∀ l ∈ b.upcoming, b.position? l = none) : b.Ready [] :=
  ⟨h, upcoming, .nil, fun _ mem => absurd mem List.not_mem_nil,
    fun _ mem => absurd mem List.not_mem_nil⟩

namespace Ready

variable {b x : CodeBuffer} {pending : List Label} {l : Label}

theorem of_positions (h : b.Ready pending) (distinct : x.Distinct)
    (locals : x.locals = b.locals) (used : x.localsUsed = b.localsUsed)
    (positions : ∀ l, x.position? l = b.position? l) : x.Ready pending where
  toDistinct := distinct
  upcoming l mem := by
    rw [positions]
    exact h.upcoming l (by rwa [CodeBuffer.upcoming, ← locals, ← used])
  nodup := h.nodup
  handedOut l mem := by
    rw [CodeBuffer.handedOut, locals, used]
    exact h.handedOut l mem
  unbound l mem := by
    rw [positions]
    exact h.unbound l mem

theorem emitAll (h : b.Ready pending) (is : List Instruction) : (b.emitAll is).Ready pending := by
  refine h.of_positions (h.toDistinct.emitAll is) ?_ ?_ (b.position?_emitAll is)
  · rw [emitAll_eq]
  · rw [emitAll_eq]

theorem hintFor (h : b.Ready pending) (l : Label) : (b.hintFor l).2.Ready pending :=
  h.of_positions (h.toDistinct.of_locals (h.toConsistent.hintFor l) rfl) rfl rfl
    (b.position?_hintFor l)

theorem localLabel (h : b.Ready pending) : b.localLabel.2.Ready (b.localLabel.1 :: pending) := by
  obtain ⟨handedOut, next⟩ := h.localLabel_cases
  have unbound : b.position? b.localLabel.1 = none := by
    obtain next | ⟨-, -, new⟩ := next
    · exact h.upcoming _ (by rw [next]; exact List.mem_cons_self)
    · rw [new]
      simp [position?, labelCount]
  have absent : b.localLabel.1 ∉ b.handedOut := by
    obtain next | ⟨-, -, new⟩ := next
    · exact fun old => h.disjoint old (by rw [next]; exact List.mem_cons_self)
    · intro old
      rw [new] at old
      exact Nat.lt_irrefl _ (h.locals (mem_locals_of_mem_handedOut old))
  refine ⟨h.toDistinct.localLabel, fun l mem => ?_, ?_, ?_, ?_⟩
  · rw [position?_localLabel]
    obtain next | ⟨-, none, -⟩ := next
    · exact h.upcoming l (by rw [next]; exact List.mem_cons_of_mem _ mem)
    · rw [none] at mem
      contradiction
  · exact List.nodup_cons.2 ⟨fun old => absent (h.handedOut _ old), h.nodup⟩
  · rw [handedOut, List.forall_mem_cons]
    exact ⟨by simp, fun l mem => List.mem_append_left _ (h.handedOut l mem)⟩
  · simp only [position?_localLabel, List.forall_mem_cons]
    exact ⟨unbound, h.unbound⟩

/-- The latest label that has been asked for and not been bound can be bound. -/
theorem bind (h : b.Ready (l :: pending)) : ∃ x, b.bind l = .ok x ∧ x.Ready pending := by
  have handedOut := h.handedOut l List.mem_cons_self
  have bound : ∃ x, b.bind l = .ok x := by
    have inside := h.locals (mem_locals_of_mem_handedOut handedOut)
    have unbound := h.unbound l List.mem_cons_self
    have here : b.positions[l.index]? = some none := by
      rw [position?, Array.getElem?_eq_getElem inside, Option.join_some] at unbound
      rw [Array.getElem?_eq_getElem inside, unbound]
    rw [CodeBuffer.bind, here]
    exact ⟨_, rfl⟩
  obtain ⟨x, bound⟩ := bound
  obtain ⟨-, -, positions⟩ := bind_eq_ok bound
  obtain ⟨absent, nodup⟩ := List.nodup_cons.1 h.nodup
  obtain ⟨-, -, locals, used⟩ := bindings_of_bind bound
  refine ⟨x, bound, h.toDistinct.bind bound, fun l' mem => ?_, nodup, fun l' mem => ?_,
    fun l' mem => ?_⟩
  · have mem : l' ∈ b.upcoming := by rwa [CodeBuffer.upcoming, ← locals, ← used]
    rw [positions, if_neg]
    · exact h.upcoming l' mem
    · rintro rfl
      exact h.disjoint handedOut mem
  · rw [CodeBuffer.handedOut, locals, used]
    exact h.handedOut l' (List.mem_cons_of_mem _ mem)
  · rw [positions, if_neg]
    · exact h.unbound l' (List.mem_cons_of_mem _ mem)
    · rintro rfl
      exact absent mem

end Ready

end CodeBuffer

end Multiway
