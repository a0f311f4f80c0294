import Multiway.Proofs.Passes.Outline

/-!
# Spacing between passes

Two passes over one outline are compared piece by piece. A comparison that becomes shorter saves at
least as much as the `nop` that it may force upon its successor, and one that becomes longer again
takes two instructions at most. So the distance between two pieces grows by two instructions for
each comparison between them that becomes longer, and by one if the first piece is a fused branch
that has to be kept apart from a new one before it.
-/
namespace Multiway

namespace Outline

variable (P : Outline) (F G : Forms)

/-- The `nop` that a fused branch would need at a place in the second pass but not in the first. -/
def debt (i : ℕ) : ℕ := if P.endsFused G i && !P.endsFused F i then 1 else 0

/-- The number of comparisons before a place that are fused in the first pass but not in the
second. -/
def reverted (i : ℕ) : ℕ := (List.range i).countP fun j => F j && !G j

variable {P F G}

theorem reverted_succ (i : ℕ) :
    reverted F G (i + 1) = reverted F G i + if F i && !G i then 1 else 0 := by
  rw [reverted, List.range_succ, List.countP_append, List.countP_singleton]
  rfl

theorem reverted_mono {i j : ℕ} (h : i ≤ j) : reverted F G i ≤ reverted F G j := by
  induction j, h using Nat.le_induction with
  | base => rfl
  | succ j _ ih =>
    rw [reverted_succ]
    omega

theorem reverted_eq_zero {i : ℕ} (h : ∀ j < i, F j → G j) : reverted F G i = 0 := by
  rw [reverted, List.countP_eq_zero]
  intro j hj becomesLonger
  cases fused : F j with
  | false => simp [fused] at becomesLonger
  | true => simp [fused, h j (List.mem_range.1 hj) fused] at becomesLonger

/-- A debt is the most that the branch of a comparison is put back by. -/
theorem stand_le_add_debt (i : ℕ) (c : Comparison) :
    P.stand G i c + P.offset F i ≤ P.stand F i c + P.offset G i + P.debt F G i := by
  unfold stand debt
  cases c.plan.isEmpty <;> cases P.endsFused F i <;> cases P.endsFused G i <;> simp <;> omega

/-- The branch of a comparison stands beyond the `nop` that the comparison owes. -/
theorem offset_add_debt_le_stand (i : ℕ) (c : Comparison) :
    P.offset G i + P.debt F G i ≤ P.stand G i c := by
  unfold debt stand
  cases empty : c.plan.isEmpty with
  | true =>
    simp only [Bool.true_and]
    cases P.endsFused G i with
    | false =>
      rw [Bool.false_and]
      omega
    | true =>
      rw [if_pos rfl]
      split_ifs <;> omega
  | false =>
    have loads : 0 < c.plan.length := by
      rw [LoadPlan.length, List.length_pos_iff]
      simpa [LoadPlan.isEmpty] using empty
    split_ifs <;> omega

/-- A piece pays for the debt that it leaves, unless it becomes longer. -/
theorem length_add_debt_succ_le (i : ℕ) :
    (P.piece i).length (G i) (P.endsFused G i) + P.debt F G (i + 1) ≤
      (P.piece i).length (F i) (P.endsFused F i) + P.debt F G i +
        2 * if F i && !G i then 1 else 0 := by
  unfold debt
  rw [endsFused, endsFused]
  cases P.piece i with
  | comparison c =>
    simp only [Piece.length, Piece.endsFused]
    cases F i <;> cases G i <;> cases P.endsFused F i <;> cases P.endsFused G i <;>
      cases c.plan.isEmpty <;> simp
  | jump target =>
    simp only [Piece.length, Piece.endsFused, Bool.false_and, Bool.false_eq_true, if_false]
    omega
  | nops count =>
    by_cases none : count = 0
    · simp [Piece.length, Piece.endsFused, none]
    · simp only [Piece.length, Piece.endsFused, none, decide_false, Bool.false_and,
        Bool.false_eq_true, if_false]
      omega
  | mark label => simp [Piece.length, Piece.endsFused]

/-- How much the distance between two pieces grows from one pass to another. -/
theorem offset_add_debt_le {i j : ℕ} (h : i ≤ j) :
    P.offset G j + P.offset F i + P.debt F G j + 2 * reverted F G i ≤
      P.offset F j + P.offset G i + P.debt F G i + 2 * reverted F G j := by
  induction j, h using Nat.le_induction with
  | base => omega
  | succ j _ ih =>
    have step := P.length_add_debt_succ_le (F := F) (G := G) j
    rw [offset, offset, reverted_succ]
    omega

/-- If no comparison becomes longer, neither does the code. -/
theorem offset_le_of_shorter {j : ℕ} (shorter : ∀ k < j, F k → G k) :
    P.offset G j ≤ P.offset F j := by
  have window := P.offset_add_debt_le (F := F) (G := G) (Nat.zero_le j)
  rw [reverted_eq_zero (i := j) shorter] at window
  have noDebt : P.debt F G 0 = 0 := rfl
  simp only [offset] at window
  omega

/-- If no comparison becomes longer, the distance from a comparison that was in its longer form
does not grow. -/
theorem offset_sub_le_of_longer {i j : ℕ} (shorter : ∀ k < j, F k → G k) (hij : i < j)
    (compares : (P.piece i).isComparison) (longer : F i = false) :
    P.offset G j + P.offset F i ≤ P.offset F j + P.offset G i := by
  have window := P.offset_add_debt_le (F := F) (G := G) (Nat.succ_le_of_lt hij)
  rw [reverted_eq_zero shorter] at window
  have paid : (P.piece i).length (G i) (P.endsFused G i) + P.debt F G (i + 1) ≤
      (P.piece i).length (F i) (P.endsFused F i) := by
    obtain ⟨c, piece⟩ := Piece.isComparison_iff.1 compares
    unfold debt
    rw [endsFused, endsFused, piece]
    simp only [Piece.length, Piece.endsFused, longer]
    cases G i <;> cases c.plan.isEmpty && P.endsFused G i <;> simp
  simp only [Nat.succ_eq_add_one, offset] at window
  omega

/-- What is between two pieces that stand at the same place takes no room in any pass. -/
theorem offset_eq_of_offset_eq {i j : ℕ} (h : i ≤ j) (same : P.offset G j = P.offset G i) :
    P.offset F j = P.offset F i ∧ P.endsFused F j = P.endsFused F i := by
  induction j, h using Nat.le_induction with
  | base => exact ⟨rfl, rfl⟩
  | succ j hij ih =>
    have before := offset_mono (P := P) (F := G) hij
    rw [offset] at same
    obtain ⟨offset_eq, endsFused_eq⟩ := ih (by omega)
    have empty : (P.piece j).length (G j) (P.endsFused G j) = 0 := by omega
    rw [offset, endsFused, offset_eq]
    cases piece : P.piece j with
    | comparison c =>
      rw [piece, Piece.length] at empty
      split_ifs at empty
    | jump target => simp [piece, Piece.length] at empty
    | nops count =>
      rw [piece, Piece.length] at empty
      simp [Piece.length, Piece.endsFused, empty, endsFused_eq]
    | mark label => simp [Piece.length, Piece.endsFused, endsFused_eq]

end Outline

end Multiway
