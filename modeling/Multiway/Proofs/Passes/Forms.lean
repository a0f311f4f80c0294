import Multiway.Proofs.Passes.Reach
import Multiway.Proofs.Passes.Spacing
import Mathlib.Logic.Function.Basic

/-!
# Forms of a pass

The form of a comparison depends on the forms of those before it and on the hints of the pass
before. So a pass determines the forms of the next one, from front to back.

A comparison behind the mark of its label is fused if the distance to the mark is in reach. One
before the mark is fused if, in the pass before, the distance from the first comparison with that
label to the mark was.
-/
namespace Multiway

namespace Outline

variable (P : Outline) (m : Machine) (before : Option Forms)

/-- The hint about a label when a pass has come to a place. -/
def hint? (F : Forms) (i : ℕ) (l : Label) : Option Hint :=
  (P.first? i l).map fun j =>
    ⟨P.offset F j * instructionBytes, (P.mark? i l).map fun k => P.offset F k * instructionBytes⟩

/-- The complete hint about a label that the pass before has left. -/
def measured? (l : Label) : Option Hint :=
  (before.bind fun G => P.hint? G P.length l).filter Hint.isComplete

/-- The distance in bytes of the branch of a comparison, if it can be told. -/
def span? (F : Forms) (i : ℕ) (c : Comparison) : Option Int :=
  match P.mark? i c.target with
  | some j => some (distance (P.stand F i c * instructionBytes) (P.offset F j * instructionBytes))
  | none => (P.measured? before c.target).bind Hint.distance?

/-- Whether a piece is a comparison that takes its shorter form. -/
def chooses (F : Forms) (i : ℕ) : Bool :=
  match P.piece i with
  | .comparison c =>
    m.fusedBranches && decide (Emission.FitsFused c.key) &&
      (P.span? before F i c).any fun d => InFusedReach (m.pad d)
  | _ => false

/-- The forms of the first pieces. -/
def formsTo : ℕ → Forms
  | 0 => fun _ => false
  | i + 1 => Function.update (formsTo i) i (P.chooses m before (formsTo i) i)

/-- The forms of a pass, from the forms of the pass before if there was one. -/
def forms : Forms := fun i => P.formsTo m before (i + 1) i

variable {P m before}

/-- The form of a piece depends on the forms before it only. -/
theorem chooses_congr {F G : Forms} {i : ℕ} (h : ∀ j < i, F j = G j) :
    P.chooses m before F i = P.chooses m before G i := by
  unfold chooses span?
  cases P.piece i with
  | comparison c =>
    simp only
    cases mark : P.mark? i c.target with
    | none => rfl
    | some j =>
      obtain ⟨hj, -⟩ := mark?_eq_some mark
      simp only
      rw [stand_congr h, offset_congr fun k hk => h k (hk.trans hj)]
  | jump target => rfl
  | nops count => rfl
  | mark label => rfl

theorem formsTo_apply {i j : ℕ} (h : j < i) : P.formsTo m before i j = P.forms m before j := by
  induction i with
  | zero => contradiction
  | succ i ih =>
    obtain rfl | earlier := Nat.eq_or_lt_of_le (Nat.le_of_lt_succ h)
    · rfl
    · rw [formsTo, Function.update_of_ne (Nat.ne_of_lt earlier), ih earlier]

theorem forms_eq (i : ℕ) :
    P.forms m before i = P.chooses m before (P.forms m before) i := by
  rw [forms, formsTo, Function.update_self]
  exact chooses_congr fun j hj => formsTo_apply hj

theorem isComparison_of_forms {i : ℕ} (h : P.forms m before i) : (P.piece i).isComparison := by
  rw [forms_eq, chooses] at h
  cases piece : P.piece i with
  | comparison c => rfl
  | jump target => simp [piece] at h
  | nops count => simp [piece] at h
  | mark label => simp [piece] at h

/-- Forms that are chosen like those of a pass are those of the pass. -/
theorem forms_eq_of_chooses {F : Forms} (h : ∀ i < P.length, F i = P.chooses m before F i)
    (beyond : ∀ i, P.length ≤ i → F i = false) : P.forms m before = F := by
  ext i
  induction i using Nat.strong_induction_on with
  | _ i ih =>
    by_cases inside : i < P.length
    · rw [h i inside, forms_eq]
      exact chooses_congr ih
    · rw [beyond i (Nat.le_of_not_lt inside), ← Bool.not_eq_true]
      exact fun fused => inside (lt_length_of_isComparison (isComparison_of_forms fused))

/-! ## Choices as numbers of instructions -/

/-- The comparisons that may be fused at all. -/
def Fusible (m : Machine) (c : Comparison) : Prop :=
  m.fusedBranches ∧ Emission.FitsFused c.key

/-- The choice of a form by a distance backward that is known. -/
def ReachesBack (P : Outline) (m : Machine) (F : Forms) (i j : ℕ) (c : Comparison) : Prop :=
  (P.stand F i c = P.offset F j ∧ 0 < m.slack ∧ m.slack ≤ 511) ∨
    (P.offset F j < P.stand F i c ∧ P.stand F i c - P.offset F j + m.slack ≤ 512)

/-- The choice of a form by a distance forward that was measured in the pass before. -/
def ReachesForth (P : Outline) (m : Machine) (G : Forms) (a b : ℕ) : Prop :=
  P.offset G b - P.offset G a + m.slack ≤ 511

theorem stand_lt {F : Forms} {i : ℕ} {c : Comparison} (piece : P.piece i = .comparison c) :
    P.stand F i c < P.offset F (i + 1) := by
  rw [offset, piece, Piece.length, stand]
  cases F i <;> cases c.plan.isEmpty && P.endsFused F i <;> simp <;> omega

/-- A comparison has room for its branch in every pass. -/
theorem stand_le_offset_succ {F G : Forms} {i : ℕ} {c : Comparison}
    (piece : P.piece i = .comparison c) (le : P.offset G i ≤ P.offset F i) :
    P.stand G i c ≤ P.offset F (i + 1) := by
  rw [offset, piece, Piece.length, stand]
  split_ifs <;> omega

theorem lt_offset {F : Forms} {i j : ℕ} (compares : (P.piece i).isComparison) (h : i < j) :
    P.offset F i < P.offset F j := by
  obtain ⟨c, piece⟩ := Piece.isComparison_iff.1 compares
  calc P.offset F i
      ≤ P.stand F i c := offset_le_stand i c
    _ < P.offset F (i + 1) := stand_lt piece
    _ ≤ P.offset F j := offset_mono h

theorem chooses_backward {F : Forms} {i j : ℕ} {c : Comparison} (slack : m.slack < bufferBound)
    (small : P.stand F i c < bufferBound) (piece : P.piece i = .comparison c)
    (mark : P.mark? i c.target = some j) :
    P.chooses m before F i ↔ Fusible m c ∧ P.ReachesBack m F i j c := by
  obtain ⟨hj, -⟩ := mark?_eq_some mark
  have le := (offset_mono (P := P) (F := F) hj.le).trans (offset_le_stand i c)
  simp only [chooses, piece, span?, mark, Option.any_some, Bool.and_eq_true, decide_eq_true_eq]
  rw [inFusedReach_backward slack small le]
  rfl

theorem chooses_forward {F : Forms} {i : ℕ} {c : Comparison} (slack : m.slack < bufferBound)
    (small : ∀ G, before = some G → P.offset G P.length < bufferBound)
    (piece : P.piece i = .comparison c) (unmarked : P.mark? i c.target = none) :
    P.chooses m before F i ↔ Fusible m c ∧ ∃ G a b, before = some G ∧
      P.first? P.length c.target = some a ∧ P.mark? P.length c.target = some b ∧
        P.ReachesForth m G a b := by
  have compares := Piece.comparesTo_iff.2 ⟨c, piece, rfl⟩
  have inside := lt_length_of_isComparison (Piece.isComparison_of_comparesTo compares)
  obtain ⟨a, ha, first⟩ := exists_first? inside compares
  simp only [chooses, piece, span?, unmarked, Bool.and_eq_true, decide_eq_true_eq]
  refine and_congr_right fun _ => ?_
  cases mark : P.mark? P.length c.target with
  | none =>
    cases before <;> simp [measured?, hint?, first, mark, Option.filter_some, Hint.isComplete]
  | some b =>
    cases passed : before with
    | none => simp [measured?]
    | some G =>
      obtain ⟨hb, -⟩ := mark?_eq_some mark
      have later := lt_of_unmarked piece unmarked mark
      have bound : P.offset G b < bufferBound :=
        (offset_mono hb.le).trans_lt (small G passed)
      have lt : P.offset G a < P.offset G b :=
        lt_offset (Piece.isComparison_of_comparesTo (first?_eq_some first).2.1) (by omega)
      simp only [measured?, hint?, first, mark, Hint.isComplete, Hint.distance?, Option.bind_some,
        Option.map_some, Option.filter_some, Option.isSome_some, if_true, Option.any_some,
        decide_eq_true_eq, Option.some.injEq, exists_and_left, exists_eq_left']
      exact inFusedReach_forward slack bound lt

end Outline

end Multiway
