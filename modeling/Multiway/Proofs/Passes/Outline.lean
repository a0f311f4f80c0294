import Multiway.Proofs.Lowering.Block
import Multiway.Proofs.Lowering.Plan
import Mathlib.Algebra.GroupWithZero.Nat

/-!
# Outlines of a pass

Passes over the same script differ in the forms of their comparisons and in nothing else. What they
have in common is an outline, a list of pieces whose code is fixed but for the form of a comparison
and the `nop` that keeps two fused branches apart. An outline and the forms of its comparisons
determine the code of a pass and the position of everything in it.
-/
namespace Multiway

/-- A comparison before its form is chosen. -/
structure Comparison where
  emission : Emission
  key : Key
  condition : Condition
  target : Label
  /-- What the pool holds before the key is loaded. -/
  pool : ConstantPool

def Comparison.plan (c : Comparison) : LoadPlan :=
  c.key.loadPlan c.emission.base c.emission.scratch c.pool

/-- What a pass emits or binds at one place. -/
inductive Piece where
  | comparison (c : Comparison)
  | jump (target : Label)
  | nops (count : ℕ)
  | mark (label : Label)

namespace Piece

/-- The code of a piece, in a form and behind a fused branch or not. -/
def code (fused behind : Bool) : Piece → List Instruction
  | comparison c =>
    c.emission.comparison c.plan c.key c.condition c.target fused (c.plan.isEmpty && behind)
  | jump target => [.jump target, .nop]
  | nops count => List.replicate count .nop
  | mark _ => []

def length (fused behind : Bool) : Piece → ℕ
  | comparison c =>
    c.plan.length + if fused then (if c.plan.isEmpty && behind then 2 else 1) else 3
  | jump _ => 2
  | nops count => count
  | mark _ => 0

/-- The most room that a piece takes. -/
def room : Piece → ℕ
  | comparison c => c.plan.length + 3
  | jump _ => 2
  | nops count => count
  | mark _ => 0

/-- Whether the code up to the end of a piece ends in a fused branch. -/
def endsFused (fused behind : Bool) : Piece → Bool
  | comparison _ => fused
  | jump _ => false
  | nops count => count = 0 && behind
  | mark _ => behind

def isComparison : Piece → Bool
  | comparison _ => true
  | _ => false

def comparesTo (l : Label) : Piece → Bool
  | comparison c => c.target = l
  | _ => false

def marks (l : Label) : Piece → Bool
  | mark label => label = l
  | _ => false

theorem length_code (fused behind : Bool) (x : Piece) :
    (x.code fused behind).length = x.length fused behind := by
  cases x with
  | comparison c =>
    cases fused <;> cases h : c.plan.isEmpty && behind <;>
      simp [code, length, Emission.comparison, LoadPlan.length, h]
  | jump target => rfl
  | nops count => simp [code, length]
  | mark label => rfl

theorem length_le_room (fused behind : Bool) (x : Piece) : x.length fused behind ≤ x.room := by
  cases x with
  | comparison c =>
    rw [length, room]
    split_ifs <;> omega
  | _ => rfl

theorem isComparison_iff {x : Piece} : x.isComparison ↔ ∃ c, x = .comparison c := by
  cases x <;> simp [isComparison]

theorem isComparison_of_comparesTo {x : Piece} {l : Label} (h : x.comparesTo l) :
    x.isComparison := by
  cases x <;> trivial

theorem comparesTo_iff {x : Piece} {l : Label} :
    x.comparesTo l ↔ ∃ c, x = .comparison c ∧ c.target = l := by
  cases x <;> simp [comparesTo]

theorem marks_iff {x : Piece} {l : Label} : x.marks l ↔ x = .mark l := by
  cases x <;> simp [marks]

end Piece

/-- The pieces of a pass, in order. -/
abbrev Outline := List Piece

/-- Which pieces are comparisons in their shorter form. -/
abbrev Forms := ℕ → Bool

namespace Outline

variable (P : Outline) (F : Forms)

/-- The piece at a place; nothing is emitted beyond the end. -/
def piece (i : ℕ) : Piece := P.getD i (.nops 0)

/-- Whether the code before a piece ends in a fused branch. -/
def endsFused : ℕ → Bool
  | 0 => false
  | i + 1 => (P.piece i).endsFused (F i) (endsFused i)

/-- The number of instructions before a piece. -/
def offset : ℕ → ℕ
  | 0 => 0
  | i + 1 => offset i + (P.piece i).length (F i) (P.endsFused F i)

/-- The code before a piece. -/
def codeTo : ℕ → List Instruction
  | 0 => []
  | i + 1 => codeTo i ++ (P.piece i).code (F i) (P.endsFused F i)

/-- The place at which a label is bound, among the first ones. -/
def mark? (i : ℕ) (l : Label) : Option ℕ := (List.range i).find? fun j => (P.piece j).marks l

/-- The place of the first comparison that branches to a label, among the first ones. -/
def first? (i : ℕ) (l : Label) : Option ℕ :=
  (List.range i).find? fun j => (P.piece j).comparesTo l

/-- The instruction at which the branch of a comparison stands in its shorter form. -/
def stand (i : ℕ) (c : Comparison) : ℕ :=
  P.offset F i + c.plan.length + if c.plan.isEmpty && P.endsFused F i then 1 else 0

variable {P F}

theorem piece_of_getElem? {i : ℕ} {x : Piece} (h : P[i]? = some x) : P.piece i = x := by
  simp [piece, h]

/-- There are no comparisons beyond the end. -/
theorem lt_length_of_isComparison {i : ℕ} (h : (P.piece i).isComparison) : i < P.length := by
  by_contra beyond
  simp [piece, Nat.le_of_not_lt beyond, Piece.isComparison] at h

theorem length_codeTo (i : ℕ) : (P.codeTo F i).length = P.offset F i := by
  induction i with
  | zero => rfl
  | succ i ih => rw [codeTo, offset, List.length_append, ih, Piece.length_code]

theorem offset_mono {i j : ℕ} (h : i ≤ j) : P.offset F i ≤ P.offset F j := by
  induction j, h using Nat.le_induction with
  | base => rfl
  | succ j _ ih => exact ih.trans (Nat.le_add_right _ _)

/-- No pass takes more room than its pieces at most. -/
theorem offset_le_sum_room (F : Forms) : P.offset F P.length ≤ (P.map Piece.room).sum := by
  have upTo (n : ℕ) : n ≤ P.length → P.offset F n ≤ ((P.take n).map Piece.room).sum := by
    induction n with
    | zero => exact fun _ => Nat.zero_le _
    | succ n ih =>
      intro hn
      have le := (P.piece n).length_le_room (F n) (P.endsFused F n)
      rw [offset, List.take_add_one, List.getElem?_eq_getElem hn, List.map_append, List.sum_append]
      rw [piece_of_getElem? (List.getElem?_eq_getElem hn)] at le ⊢
      have := ih (Nat.le_of_succ_le hn)
      simp only [Option.toList_some, List.map_cons, List.map_nil, List.sum_cons, List.sum_nil]
      omega
  have all := upTo P.length le_rfl
  rwa [List.take_length] at all

theorem offset_le_stand (i : ℕ) (c : Comparison) : P.offset F i ≤ P.stand F i c := by
  unfold stand
  omega

/-- Where a branch stands depends on the forms before it only. -/
theorem endsFused_congr {G : Forms} {i : ℕ} (h : ∀ j < i, F j = G j) :
    P.endsFused F i = P.endsFused G i := by
  induction i with
  | zero => rfl
  | succ i ih => rw [endsFused, endsFused, h i (Nat.lt_succ_self i), ih fun j hj => h j (by omega)]

theorem offset_congr {G : Forms} {i : ℕ} (h : ∀ j < i, F j = G j) :
    P.offset F i = P.offset G i := by
  induction i with
  | zero => rfl
  | succ i ih =>
    have before : ∀ j < i, F j = G j := fun j hj => h j (by omega)
    rw [offset, offset, h i (Nat.lt_succ_self i), ih before, endsFused_congr before]

theorem stand_congr {G : Forms} {i : ℕ} (h : ∀ j < i, F j = G j) (c : Comparison) :
    P.stand F i c = P.stand G i c := by
  rw [stand, stand, offset_congr h, endsFused_congr h]

/-! ## Places of labels -/

theorem mark?_succ (i : ℕ) (l : Label) :
    P.mark? (i + 1) l = (P.mark? i l).or (if (P.piece i).marks l then some i else none) := by
  rw [mark?, List.range_succ, List.find?_append, List.find?_singleton]
  rfl

theorem first?_succ (i : ℕ) (l : Label) :
    P.first? (i + 1) l = (P.first? i l).or (if (P.piece i).comparesTo l then some i else none) := by
  rw [first?, List.range_succ, List.find?_append, List.find?_singleton]
  rfl

theorem mark?_eq_some {i j : ℕ} {l : Label} (h : P.mark? i l = some j) :
    j < i ∧ P.piece j = .mark l := by
  rw [mark?, List.find?_range_eq_some] at h
  exact ⟨List.mem_range.1 h.2.1, Piece.marks_iff.1 h.1⟩

theorem mark?_eq_none {i : ℕ} {l : Label} :
    P.mark? i l = none ↔ ∀ j < i, P.piece j ≠ .mark l := by
  rw [mark?, List.find?_range_eq_none]
  exact forall₂_congr fun j _ => by rw [Bool.not_eq_true', ← Bool.not_eq_true, Piece.marks_iff]

theorem first?_eq_some {i j : ℕ} {l : Label} (h : P.first? i l = some j) :
    j < i ∧ (P.piece j).comparesTo l ∧ ∀ k < j, ¬(P.piece k).comparesTo l := by
  rw [first?, List.find?_range_eq_some] at h
  exact ⟨List.mem_range.1 h.2.1, h.1, fun k hk => by simpa using h.2.2 k hk⟩

theorem exists_first? {i j : ℕ} {l : Label} (hj : j < i) (h : (P.piece j).comparesTo l) :
    ∃ k ≤ j, P.first? i l = some k := by
  cases first : P.first? i l with
  | none =>
    have none := List.find?_range_eq_none.1 first j hj
    simp [h] at none
  | some k =>
    refine ⟨k, ?_, rfl⟩
    by_contra later
    exact (first?_eq_some first).2.2 j (by omega) h

/-- A label that is not bound before a comparison is bound after it, if at all. -/
theorem lt_of_unmarked {i j n : ℕ} {l : Label} {c : Comparison}
    (piece : P.piece i = .comparison c) (unmarked : P.mark? i l = none)
    (mark : P.mark? n l = some j) : i < j := by
  obtain ⟨-, marked⟩ := mark?_eq_some mark
  by_contra earlier
  obtain rfl | lt := Nat.eq_or_lt_of_le (Nat.le_of_not_lt earlier)
  · rw [piece] at marked
    contradiction
  · exact mark?_eq_none.1 unmarked j lt marked

end Outline

end Multiway
