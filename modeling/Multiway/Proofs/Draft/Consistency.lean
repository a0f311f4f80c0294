import Multiway.Proofs.Lowering.Block

/-!
# Consistency of drafts

The parts of a code buffer repeat what other parts know: a hint of the present pass knows the
position of its label, local labels and measured hints are about labels in the table, and no more
local labels are in use than there are. Every operation keeps this, also one that fails half-way,
and so does rewinding to any mark whatever.
-/
namespace Multiway

namespace CodeBuffer

/-- The parts of a buffer agree with each other. -/
structure Consistent (b : CodeBuffer) : Prop where
  hint : ∀ {l : Label} {h : Hint}, b.hints[l]? = some h → h.target = b.position? l
  measured : ∀ {l : Label} {h : Hint}, b.measured[l]? = some h → l.index < b.labelCount
  locals : ∀ {l : Label}, l ∈ b.locals → l.index < b.labelCount
  used : b.localsUsed ≤ b.locals.size

variable {b : CodeBuffer}

theorem consistent_empty : Consistent {} where
  hint h := by simp at h
  measured h := by simp at h
  locals h := by simp at h
  used := le_rfl

/-- A label outside of the table has no position. -/
theorem index_lt_of_position? {l : Label} {p : ℕ} (h : b.position? l = some p) :
    l.index < b.labelCount := by
  by_contra outside
  simp [position?, Array.getElem?_eq_none (Nat.le_of_not_lt outside)] at h

theorem Consistent.emitAll (h : b.Consistent) (is : List Instruction) :
    (b.emitAll is).Consistent := by
  rw [emitAll_eq]
  exact ⟨h.hint, h.measured, h.locals, h.used⟩

theorem Consistent.newLabel (h : b.Consistent) : b.newLabel.2.Consistent where
  hint := by
    intro l hint found
    rw [position?_newLabel]
    exact h.hint found
  measured := by
    intro l hint found
    have := h.measured found
    simp only [CodeBuffer.newLabel, labelCount, Array.size_push] at this ⊢
    omega
  locals := by
    intro l mem
    have := h.locals mem
    simp only [CodeBuffer.newLabel, labelCount, Array.size_push] at this ⊢
    omega
  used := h.used

theorem Consistent.localLabel (h : b.Consistent) : b.localLabel.2.Consistent := by
  unfold CodeBuffer.localLabel
  split
  · rename_i l reused
    refine ⟨h.hint, h.measured, h.locals, ?_⟩
    obtain ⟨inside, -⟩ := Array.getElem?_eq_some_iff.1 reused
    exact inside
  · have grown := h.newLabel
    refine ⟨grown.hint, grown.measured, ?_, ?_⟩
    · intro l mem
      obtain old | rfl := Array.mem_push.1 mem
      · exact grown.locals old
      · simp [labelCount, CodeBuffer.newLabel]
    · have := h.used
      simp only [CodeBuffer.newLabel, Array.size_push]
      omega

theorem Consistent.bind (h : b.Consistent) {b' : CodeBuffer} {l : Label}
    (bound : b.bind l = .ok b') : b'.Consistent := by
  obtain ⟨-, -, positions⟩ := bind_eq_ok bound
  obtain rfl := eq_of_bind bound
  refine ⟨?_, ?_, ?_, h.used⟩
  · intro l' hint found
    rw [positions]
    simp only [Std.ExtHashMap.getElem?_modify, beq_iff_eq] at found
    by_cases same : l' = l
    · subst same
      simp only [if_true, Option.map_eq_some_iff] at found
      obtain ⟨old, -, rfl⟩ := found
      simp
    · rw [if_neg same]
      rw [if_neg (Ne.symm same)] at found
      exact h.hint found
  · intro l' hint found
    have := h.measured found
    simpa [labelCount] using this
  · intro l' mem
    have := h.locals mem
    simpa [labelCount] using this

theorem Consistent.hintFor (h : b.Consistent) (l : Label) : (b.hintFor l).2.Consistent where
  hint := by
    intro l' hint found
    rw [position?_hintFor]
    simp only [CodeBuffer.hintFor, Std.ExtHashMap.getElem?_insert, beq_iff_eq] at found
    by_cases same : l = l'
    · subst same
      simp only [if_true, Option.some.injEq] at found
      subst found
      cases old : b.hints[l]? with
      | none => rfl
      | some hint => exact h.hint old
    · rw [if_neg same] at found
      exact h.hint found
  measured := h.measured
  locals := h.locals
  used := h.used

/-- A new pass knows the hints that the last one has completed, and else what that one knew. -/
theorem measured_nextPass (b : CodeBuffer) (l : Label) :
    b.nextPass.measured[l]? = (b.hints[l]?.filter Hint.isComplete).or b.measured[l]? := by
  rw [nextPass, Std.ExtHashMap.getElem?_union, Std.ExtHashMap.getElem?_filter']

theorem Consistent.nextPass (h : b.Consistent) : b.nextPass.Consistent where
  hint found := by simp [CodeBuffer.nextPass] at found
  measured := by
    intro l hint found
    have size : b.nextPass.labelCount = b.labelCount := by simp [CodeBuffer.nextPass, labelCount]
    rw [size]
    simp only [measured_nextPass, Option.or_eq_some_iff, Option.filter_eq_some_iff] at found
    obtain ⟨new, complete⟩ | ⟨-, old⟩ := found
    · obtain ⟨p, target⟩ := Option.isSome_iff_exists.1 complete
      rw [h.hint new] at target
      exact index_lt_of_position? target
    · exact h.measured old
  locals := by
    intro l mem
    have := h.locals mem
    simpa [CodeBuffer.nextPass, labelCount] using this
  used := Nat.zero_le _

end CodeBuffer

end Multiway
