import Multiway.Proofs.Lowering.Probe
import Multiway.Proofs.Passes.Stage

/-!
# Progress of a pass

A comparison takes the form that the outline tells, so it leads to the next stage like every other
event. From there, by induction, so do the requests of a search.
-/
namespace Multiway

namespace Outline

variable {P : Outline} {m : Machine} {callers : ℕ} {before : Option Forms}

namespace Stage

variable {i u : ℕ} {p : ConstantPool} {d : Draft}

theorem fusedPosition? (h : Stage P m callers before i u p d) (c : Comparison) :
    (d.code.hintFor c.target).2.fusedPosition? c.plan =
      some (P.stand (P.forms m before) i c * instructionBytes) := by
  have hazard : (d.code.hintFor c.target).2.hazard =
      .ofFused (P.endsFused (P.forms m before) i) := h.hazard
  have position : (d.code.hintFor c.target).2.position =
      P.offset (P.forms m before) i * instructionBytes := h.position
  simp only [CodeBuffer.fusedPosition?, hazard, position, stand, LoadPlan.size, Hazard.ofFused,
    Nat.add_mul]
  cases c.plan.isEmpty <;> cases P.endsFused (P.forms m before) i <;> simp

theorem hintFor (h : Stage P m callers before i u p d) (l : Label) :
    (d.code.hintFor l).1 = (P.measured? before l).getD
      ((P.hint? (P.forms m before) i l).getD ⟨d.code.position, d.code.position? l⟩) := by
  rw [CodeBuffer.hintFor, h.measured, h.hints]

/-- The distance that a comparison estimates. -/
theorem estimate? (h : Stage P m callers before i u p d) (c : Comparison) :
    (d.code.hintFor c.target).2.estimate? m (P.stand (P.forms m before) i c * instructionBytes)
        (d.code.hintFor c.target).1 c.target =
      (P.span? before (P.forms m before) i c).map m.pad := by
  rw [CodeBuffer.estimate?, CodeBuffer.position?_hintFor, h.positions, h.hintFor, span?]
  cases mark : P.mark? i c.target with
  | some j => rfl
  | none =>
    have position : d.code.position? c.target = none := by
      rw [h.positions, mark]
      rfl
    simp only [Option.map_none]
    cases P.measured? before c.target with
    | some hint => rfl
    | none =>
      -- the hint of this pass has no target yet
      rw [Option.getD_none, hint?, mark, position]
      cases P.first? i c.target <;> rfl

theorem takesFused (h : Stage P m callers before i u p d) {c : Comparison}
    (piece : P.piece i = .comparison c) :
    Emission.takesFused d.machine (d.code.hintFor c.target).2 c.plan (d.code.hintFor c.target).1
      c.key c.target = P.forms m before i := by
  rw [forms_eq, chooses, piece, Emission.takesFused, h.machine, h.fusedPosition?, Option.any_some,
    CodeBuffer.reaches, h.estimate?, Option.any_map]

/-- A `nop` is put before a fused branch if nothing is loaded and one stands before it. -/
theorem padded (h : Stage P m callers before i u p d) (key : Key) (base scratch : Register) :
    (!key.isPooled && decide (d.code.hazard = .afterFused)) =
      ((key.loadPlan base scratch p).isEmpty && P.endsFused (P.forms m before) i) := by
  rw [Key.isEmpty_loadPlan, h.hazard]
  cases P.endsFused (P.forms m before) i <;> rfl

/-- A comparison emits its piece, in the form that the outline tells. -/
theorem run_compare (h : Stage P m callers before i u p d) {e : Emission} {index : ℕ}
    {condition : Condition} {target : Label}
    (piece : P.piece i = e.piece p (.test index condition target))
    (loadable : (e.keyAt index).isPooled → ¬e.base.isZero) :
    (e.compare (e.keyAt index) condition target).run d = .ok () { d with
      code := (d.code.hintFor target).2.emitAll
        ((P.piece i).code (P.forms m before i) (P.endsFused (P.forms m before) i))
      pool := (e.keyAt index).reserve p } := by
  have form : e.fuses (e.keyAt index) target d = P.forms m before i := by
    rw [← h.takesFused piece, Emission.fuses, h.pool]
    rfl
  rw [Emission.run_compare_eq_ok_iff, Emission.comparisonIn_eq, form,
    h.padded (e.keyAt index) e.base e.scratch, h.pool, piece]
  exact ⟨loadable, rfl⟩

theorem compare (h : Stage P m callers before i u p d) {e : Emission} {index : ℕ}
    {condition : Condition} {target : Label}
    (piece : P.piece i = e.piece p (.test index condition target))
    (loadable : (e.keyAt index).isPooled → ¬e.base.isZero) :
    ∃ d', (e.compare (e.keyAt index) condition target).run d = .ok () d' ∧
      Stage P m callers before (i + 1) u (e.reserve p (.test index condition target)) d' := by
  refine ⟨_, h.run_compare piece loadable, ?_⟩
  have unmarked (l : Label) : P.mark? (i + 1) l = P.mark? i l := by
    rw [mark?_succ, piece]
    simp [Piece.marks, Emission.piece]
  rw [CodeBuffer.emitAll_eq]
  refine ⟨h.machine, rfl, ?_, ?_, ?_, h.measured, h.supply.of_eq rfl rfl rfl⟩
  · rw [codeTo, Array.toList_appendList, CodeBuffer.code_hintFor, h.code]
  · intro l
    rw [unmarked]
    exact h.positions l
  · intro l
    simp only [CodeBuffer.hintFor, Std.ExtHashMap.getElem?_insert, beq_iff_eq]
    rw [hint?, first?_succ, unmarked, piece, h.hints]
    by_cases same : target = l
    · subst same
      rw [if_pos rfl, h.positions, h.position]
      cases first : P.first? i target with
      | some j => simp [hint?, first]
      | none => simp [hint?, first, Piece.comparesTo, Emission.piece]
    · rw [if_neg same, h.hints, hint?]
      simp [Piece.comparesTo, Emission.piece, same]

end Stage

end Outline

end Multiway
