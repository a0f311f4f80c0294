import Multiway.Proofs.Passes.Forms
import Multiway.Proofs.Passes.Pieces

/-!
# Stages of a pass

A pass is at a stage of its outline if the draft is what the first pieces make of it: the code is
theirs, in the forms that the pass before has determined, and labels, hints and constants are as the
outline tells. Each event leads from one stage to the next, and none of them fails.
-/
namespace Multiway

/-- The label that a pass makes as the `n`th one is numbered from `callers` on, and `u` of them have
been asked for. -/
structure CodeBuffer.Supplies (b : CodeBuffer) (callers u : ℕ) : Prop where
  count : b.labelCount = callers + b.locals.size
  locals : ∀ n < b.locals.size, b.locals[n]? = some ⟨callers + n⟩
  used : b.localsUsed = u
  le : u ≤ b.locals.size

namespace CodeBuffer

variable {b : CodeBuffer} {callers u : ℕ}

theorem Supplies.of_eq {b' : CodeBuffer} (h : b.Supplies callers u)
    (count : b'.labelCount = b.labelCount) (locals : b'.locals = b.locals)
    (used : b'.localsUsed = b.localsUsed) : b'.Supplies callers u := by
  obtain ⟨c, l, x, le⟩ := h
  exact ⟨by rw [count, locals, c], by rwa [locals], by rw [used, x], by rwa [locals]⟩

theorem Supplies.localLabel (h : b.Supplies callers u) :
    b.localLabel.1 = ⟨callers + u⟩ ∧ b.localLabel.2.Supplies callers (u + 1) := by
  obtain ⟨count, locals, used, le⟩ := h
  unfold CodeBuffer.localLabel
  rw [used]
  by_cases old : u < b.locals.size
  · rw [locals u old]
    exact ⟨rfl, count, locals, rfl, old⟩
  · have last : u = b.locals.size := by omega
    rw [Array.getElem?_eq_none (Nat.le_of_not_lt old)]
    simp only [newLabel]
    have index : b.positions.size = callers + u := by
      rw [last]
      exact count
    refine ⟨by rw [index], ?_, ?_, congrArg (· + 1) used, ?_⟩
    · simp only [labelCount, Array.size_push] at count ⊢
      omega
    · intro n hn
      simp only [Array.size_push] at hn
      rw [Array.getElem?_push, index, ← last]
      by_cases here : n = u
      · rw [if_pos here, here]
      · rw [if_neg here]
        exact locals n (by omega)
    · simp only [Array.size_push]
      omega

theorem bind_eq {l : Label} (h : b.positions[l.index]? = some none) :
    b.bind l = .ok { b with
      positions := b.positions.setIfInBounds l.index (some b.position)
      bindings := b.bindings.push l
      hints := b.hints.modify l fun hint => { hint with target := some b.position } } := by
  rw [bind, h]

/-! ## What stands in the way of a fused branch -/

/-- What the last instruction, if there is one, puts in the way of a fused branch. -/
def hazardAfter : Option Instruction → Hazard
  | some i => if i.hasDelaySlot then .delaySlot else if i.isFused then .afterFused else .clear
  | none => .clear

theorem hazard_eq (b : CodeBuffer) : b.hazard = hazardAfter b.code.toList.getLast? := by
  rw [Array.getLast?_toList]
  rfl

end CodeBuffer

/-- What a fused branch or its absence puts in the way of a fused branch. -/
def Hazard.ofFused (behind : Bool) : Hazard := if behind then .afterFused else .clear

open CodeBuffer in
theorem Piece.hazardAfter_code (x : Piece) (fused behind : Bool) {last : Option Instruction}
    (h : hazardAfter last = .ofFused behind) :
    hazardAfter ((x.code fused behind).getLast?.or last) =
      .ofFused (x.endsFused fused behind) := by
  cases x with
  | comparison c =>
    cases fused
    · simp only [code, Emission.comparison]
      rw [List.getLast?_append]
      rfl
    · simp only [code, Emission.comparison, if_true]
      rw [List.getLast?_append, List.getLast?_append]
      rfl
  | jump target => rfl
  | nops count =>
    cases count with
    | zero => simpa [code, endsFused] using h
    | succ n =>
      simp only [code, List.getLast?_replicate]
      rfl
  | mark label => simpa [code, endsFused] using h

namespace Outline

variable {P : Outline} {m : Machine} {callers : ℕ} {before : Option Forms}

theorem hazardAfter_codeTo (F : Forms) (i : ℕ) :
    CodeBuffer.hazardAfter (P.codeTo F i).getLast? = .ofFused (P.endsFused F i) := by
  induction i with
  | zero => rfl
  | succ i ih =>
    rw [codeTo, List.getLast?_append]
    exact (P.piece i).hazardAfter_code _ _ ih

/-- The draft has come to a place of the outline, where `u` labels have been made and `p` is what
the pool holds. -/
structure Stage (P : Outline) (m : Machine) (callers : ℕ) (before : Option Forms) (i u : ℕ)
    (p : ConstantPool) (d : Draft) : Prop where
  machine : d.machine = m
  pool : d.pool = p
  code : d.code.code.toList = P.codeTo (P.forms m before) i
  positions : ∀ l, d.code.position? l =
    (P.mark? i l).map fun j => P.offset (P.forms m before) j * instructionBytes
  hints : ∀ l, d.code.hints[l]? = P.hint? (P.forms m before) i l
  measured : ∀ l, d.code.measured[l]? = P.measured? before l
  supply : d.code.Supplies callers u

namespace Stage

variable {i u : ℕ} {p : ConstantPool} {d : Draft}

theorem size (h : Stage P m callers before i u p d) :
    d.code.code.size = P.offset (P.forms m before) i := by
  rw [← Array.length_toList, h.code, length_codeTo]

theorem position (h : Stage P m callers before i u p d) :
    d.code.position = P.offset (P.forms m before) i * instructionBytes := by
  rw [CodeBuffer.position, h.size]

theorem hazard (h : Stage P m callers before i u p d) :
    d.code.hazard = .ofFused (P.endsFused (P.forms m before) i) := by
  rw [CodeBuffer.hazard_eq, h.code, hazardAfter_codeTo]

/-- A piece of code that neither asks for a label nor binds one. -/
theorem emitAll (h : Stage P m callers before i u p d) {x : Piece} (piece : P.piece i = x)
    (use : x.use = .none) :
    Stage P m callers before (i + 1) u p
      { d with
        code := d.code.emitAll
          (x.code (P.forms m before i) (P.endsFused (P.forms m before) i)) } := by
  have unmarked (l : Label) : P.mark? (i + 1) l = P.mark? i l := by
    have other : ¬(P.piece i).marks l := by
      rw [Piece.marks_iff, Piece.eq_mark_iff_use, piece, use]
      exact fun eq => by contradiction
    rw [mark?_succ, if_neg other, Option.or_none]
  have unasked (l : Label) : P.first? (i + 1) l = P.first? i l := by
    have other : ¬(P.piece i).comparesTo l := by
      rw [Piece.comparesTo_iff_use, piece, use]
      exact fun eq => by contradiction
    rw [first?_succ, if_neg other, Option.or_none]
  rw [CodeBuffer.emitAll_eq]
  refine ⟨h.machine, h.pool, ?_, ?_, ?_, h.measured, h.supply.of_eq rfl rfl rfl⟩
  · rw [codeTo, piece, Array.toList_appendList, h.code]
  · intro l
    rw [unmarked]
    exact h.positions l
  · intro l
    rw [hint?, unmarked, unasked]
    exact h.hints l

theorem bind (h : Stage P m callers before i u p d) {l : Label} (piece : P.piece i = .mark l)
    (unmarked : P.mark? i l = none) (inside : l.index < callers + u) :
    ∃ code, d.code.bind l = .ok code ∧
      Stage P m callers before (i + 1) u p { d with code } := by
  have unbound : d.code.positions[l.index]? = some none := by
    have known : l.index < d.code.positions.size := by
      have := h.supply.count
      have := h.supply.le
      rw [CodeBuffer.labelCount] at *
      omega
    have position := h.positions l
    rw [unmarked, CodeBuffer.position?, Array.getElem?_eq_getElem known] at position
    rw [Array.getElem?_eq_getElem known]
    exact congrArg some position
  have marks (l' : Label) : (P.piece i).marks l' ↔ l = l' := by
    rw [piece]
    simp [Piece.marks]
  have unasked (l' : Label) : P.first? (i + 1) l' = P.first? i l' := by
    rw [first?_succ, piece]
    simp [Piece.comparesTo]
  have bound := CodeBuffer.bind_eq unbound
  obtain ⟨-, -, positions⟩ := CodeBuffer.bind_eq_ok bound
  refine ⟨_, bound, h.machine, h.pool, ?_, ?_, ?_, h.measured,
    h.supply.of_eq (by simp [CodeBuffer.labelCount]) rfl rfl⟩
  · rw [codeTo, piece]
    simpa [Piece.code] using h.code
  · intro l'
    rw [positions, mark?_succ]
    by_cases same : l' = l
    · subst same
      rw [if_pos rfl, if_pos ((marks l').2 rfl), unmarked, h.position]
      rfl
    · rw [if_neg same, if_neg fun here => same ((marks l').1 here).symm, Option.or_none]
      exact h.positions l'
  · intro l'
    simp only [Std.ExtHashMap.getElem?_modify, beq_iff_eq]
    rw [hint?, unasked, mark?_succ]
    by_cases same : l = l'
    · subst same
      rw [if_pos rfl, if_pos ((marks l).2 rfl), h.hints, unmarked, h.position, hint?,
        Option.map_map]
      rfl
    · rw [if_neg same, if_neg fun here => same ((marks l').1 here), Option.or_none]
      exact h.hints l'

theorem localLabel (h : Stage P m callers before i u p d) :
    d.code.localLabel.1 = ⟨callers + u⟩ ∧
      Stage P m callers before i (u + 1) p { d with code := d.code.localLabel.2 } := by
  obtain ⟨label, supply⟩ := h.supply.localLabel
  have same : d.code.localLabel.2.hints = d.code.hints ∧
      d.code.localLabel.2.measured = d.code.measured := by
    unfold CodeBuffer.localLabel CodeBuffer.newLabel
    split <;> exact ⟨rfl, rfl⟩
  refine ⟨label, h.machine, h.pool, ?_, ?_, ?_, ?_, supply⟩
  · simpa using h.code
  · intro l
    rw [CodeBuffer.position?_localLabel]
    exact h.positions l
  · rw [same.1]
    exact h.hints
  · rw [same.2]
    exact h.measured

end Stage

end Outline

end Multiway
