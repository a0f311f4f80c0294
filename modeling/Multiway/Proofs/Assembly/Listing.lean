import Mathlib.Data.List.Nodup
import Mathlib.Data.List.Sort
import Mathlib.Tactic.Common
import Multiway.Assembly.CodeBuffer.Listing
import Multiway.Proofs.Assembly.Text
import Multiway.Proofs.Draft.Integrity

/-!
# Listings lose nothing

A listing is made of lines, each of which shows a label or an instruction. The lines are known from
the text, as there is no line break within a line and different lines have different texts. The
lines in turn tell the code and the position of each label, as a label stands behind just those
instructions that come before its position.
-/
namespace Multiway

/-- A line of a listing. -/
inductive Line where
  | label (l : Label)
  | instruction (i : Instruction)
  deriving DecidableEq, Repr

namespace Line

def text : Line → String
  | label l => l.text ++ ":"
  | instruction i => "    " ++ i.text

def label? : Line → Option Label
  | label l => some l
  | instruction _ => none

def instruction? : Line → Option Instruction
  | label _ => none
  | instruction i => some i

theorem notMem_text (x : Line) : '\n' ∉ x.text.toList := by
  cases x with
  | label l =>
    have word := l.isWord_text.notMem (c := '\n') (by decide)
    simpa [text] using word
  | instruction i => simpa [text] using i.notMem_text

theorem text_ne_empty (x : Line) : x.text ≠ "" := by
  cases x <;> simp [text]

/-- Labels stand at the margin and instructions do not. -/
theorem text_label_ne_text_instruction (l : Label) (i : Instruction) :
    (label l).text ≠ (instruction i).text := by
  rw [ne_eq, ← String.toList_inj]
  simp [text, Label.text]

theorem text_injective : Function.Injective text := by
  intro x y h
  cases x with
  | label l =>
    cases y with
    | label l' => exact congrArg label (Label.text_injective ((String.append_left_inj _).1 h))
    | instruction i => exact absurd h (text_label_ne_text_instruction l i)
  | instruction i =>
    cases y with
    | label l => exact absurd h.symm (text_label_ne_text_instruction l i)
    | instruction i' =>
      exact congrArg instruction (Instruction.text_injective ((String.append_right_inj _).1 h))

/-- Lines are known from their text. -/
theorem intercalate_text_inj {xs ys : List Line}
    (h : "\n".intercalate (xs.map text) = "\n".intercalate (ys.map text)) : xs = ys := by
  have single (zs : List Line) : ∀ s ∈ zs.map text, '\n' ∉ s.toList := by
    simpa using fun z _ => z.notMem_text
  -- No lines at all are not the same as one empty line, so there must be no empty lines.
  have nil {z : Line} {zs : List Line} : "\n".intercalate ((z :: zs).map text) ≠ "" := by
    cases zs <;> simp [text_ne_empty]
  cases xs with
  | nil =>
    cases ys with
    | nil => rfl
    | cons y ys => exact absurd h.symm nil
  | cons x xs =>
    cases ys with
    | nil => exact absurd h nil
    | cons y ys =>
      have same := intercalate_inj rfl (single _) (single _) (by simp) (by simp) h
      exact text_injective.list_map same

/-! ## Labels between instructions -/

/-- Lines for instructions in order, behind those for the labels at the place of each. The labels at
the end come last. -/
def interleave (labels : ℕ → List Label) : List Instruction → List Line
  | [] => (labels 0).map label
  | i :: is => (labels 0).map label ++ instruction i :: interleave (fun n => labels (n + 1)) is

theorem interleave_eq (labels : ℕ → List Label) (is : List Instruction) :
    interleave labels is = (List.range (is.length + 1)).flatMap fun n =>
      (labels n).map label ++ (is[n]?.map instruction).toList := by
  induction is generalizing labels with
  | nil => simp [interleave]
  | cons i is ih =>
    rw [interleave, ih, List.length_cons, List.range_succ_eq_map (n := is.length + 1),
      List.flatMap_cons, List.flatMap_map, List.append_assoc]
    rfl

theorem filterMap_instruction?_map_label (ls : List Label) :
    (ls.map label).filterMap instruction? = [] := by
  simp [instruction?]

theorem filterMap_instruction?_interleave (labels : ℕ → List Label) (is : List Instruction) :
    (interleave labels is).filterMap instruction? = is := by
  induction is generalizing labels with
  | nil => exact filterMap_instruction?_map_label _
  | cons i is ih =>
    rw [interleave, List.filterMap_append, filterMap_instruction?_map_label]
    simp [instruction?, ih]

theorem filterMap_label?_interleave (labels : ℕ → List Label) (is : List Instruction) :
    (interleave labels is).filterMap label? = (List.range (is.length + 1)).flatMap labels := by
  have shown (ls : List Label) : (ls.map label).filterMap label? = ls := by
    rw [List.filterMap_map]
    exact List.filterMap_some
  have hidden (o : Option Instruction) : (o.map instruction).toList.filterMap label? = [] := by
    cases o <;> rfl
  simp only [interleave_eq, List.filterMap_flatMap, List.filterMap_append, shown, hidden,
    List.append_nil]

theorem count_label (l : Label) (xs : List Line) :
    xs.count (label l) = (xs.filterMap label?).count l := by
  rw [List.count_filterMap, List.count]
  congr 1
  funext x
  cases x <;> simp [label?]

theorem mem_of_map_label_eq {before after : List Line} {l : Label} {ls : List Label}
    (h : ls.map label = before ++ label l :: after) :
    before.filterMap instruction? = [] ∧ l ∈ ls := by
  obtain ⟨ls, ls', rfl, rfl, same⟩ := List.map_eq_append_iff.1 h
  obtain ⟨l', ls', rfl, head, -⟩ := List.map_eq_cons_iff.1 same
  cases head
  exact ⟨filterMap_instruction?_map_label ls, by simp⟩

/-- A label stands behind as many instructions as there are before its place. -/
theorem mem_labels_of_interleave_eq {labels : ℕ → List Label} {is : List Instruction}
    {before after : List Line} {l : Label}
    (h : interleave labels is = before ++ label l :: after) :
    l ∈ labels (before.filterMap instruction?).length := by
  induction is generalizing labels before with
  | nil =>
    obtain ⟨none, mem⟩ := mem_of_map_label_eq h
    rw [none]
    exact mem
  | cons i is ih =>
    obtain ⟨rest, rfl, same⟩ | ⟨rest, same, other⟩ := List.append_eq_append_iff.1 h
    · -- The label comes after the first instruction.
      cases rest with
      | nil => cases same
      | cons x rest =>
        obtain ⟨rfl, later⟩ := List.cons.inj same
        have mem := ih later
        rw [List.filterMap_append, filterMap_instruction?_map_label]
        exact mem
    · -- The label is one of those at the first place.
      cases rest with
      | nil => cases other
      | cons x rest =>
        obtain ⟨rfl, -⟩ := List.cons.inj other
        obtain ⟨none, mem⟩ := mem_of_map_label_eq same
        rw [none]
        exact mem

end Line

namespace CodeBuffer

def shown (b : CodeBuffer) : List Line :=
  Line.interleave (fun n => b.labelsAt (n * instructionBytes)) b.code.toList

theorem listing_eq (b : CodeBuffer) : b.listing = "\n".intercalate (b.shown.map Line.text) := by
  have lines : b.linesAt = fun n => ((b.labelsAt (n * instructionBytes)).map Line.label ++
      (b.code.toList[n]?.map Line.instruction).toList).map Line.text := by
    funext n
    rw [List.map_append, List.map_map, linesAt, Array.getElem?_toList]
    cases b.code[n]? <;> rfl
  rw [listing, lines, shown, Line.interleave_eq, List.map_flatMap, Array.length_toList]

/-- Lines show each instruction once, in order, and each bound label once, before the instruction at
its position. Labels at one position stand in the order of their indices. -/
structure Shows (b : CodeBuffer) (lines : List Line) : Prop where
  instructions : lines.filterMap Line.instruction? = b.code.toList
  labels : ∀ l, lines.count (.label l) = if (b.position? l).isSome then 1 else 0
  places : ∀ before l after, lines = before ++ .label l :: after →
    b.position? l = some ((before.filterMap Line.instruction?).length * instructionBytes)
  ascending : (lines.filterMap Line.label?).Pairwise fun l l' =>
    b.position? l = b.position? l' → l.index < l'.index

variable {b b' : CodeBuffer}

theorem mem_labelsAt {p : ℕ} {l : Label} : l ∈ b.labelsAt p ↔ b.position? l = some p := by
  rw [labelsAt, List.mem_filter, List.mem_map, decide_eq_true_iff]
  constructor
  · exact fun mem => mem.2
  · exact fun found => ⟨⟨l.index, List.mem_range.2 (index_lt_of_position? found), rfl⟩, found⟩

theorem pairwise_labelsAt (b : CodeBuffer) (p : ℕ) :
    (b.labelsAt p).Pairwise fun l l' => l.index < l'.index := by
  refine List.Pairwise.filter _ (List.pairwise_map.2 ?_)
  exact List.pairwise_lt_range

/-- The labels of all places are those that are bound. -/
theorem Sound.mem_filterMap_shown (h : b.Sound) {l : Label} :
    l ∈ b.shown.filterMap Line.label? ↔ (b.position? l).isSome := by
  rw [shown, Line.filterMap_label?_interleave, List.mem_flatMap, Option.isSome_iff_exists]
  simp only [mem_labelsAt]
  constructor
  · rintro ⟨n, -, found⟩
    exact ⟨_, found⟩
  · rintro ⟨p, found⟩
    obtain ⟨⟨n, rfl⟩, le⟩ := h.placed found
    rw [Nat.mul_comm] at found le
    have within : n ≤ b.code.size := Nat.le_of_mul_le_mul_right le (by decide)
    exact ⟨n, List.mem_range.2 (Nat.lt_succ_of_le within), found⟩

theorem Sound.shows_shown (h : b.Sound) : b.Shows b.shown := by
  have ascending : (b.shown.filterMap Line.label?).Pairwise fun l l' =>
      b.position? l = b.position? l' → l.index < l'.index := by
    rw [shown, Line.filterMap_label?_interleave, List.pairwise_flatMap]
    constructor
    · intro n _
      refine (b.pairwise_labelsAt _).imp ?_
      exact fun less _ => less
    · -- Labels at different places have different positions.
      refine List.pairwise_lt_range.imp fun {n m} less l mem l' mem' same => ?_
      rw [mem_labelsAt.1 mem, mem_labelsAt.1 mem', Option.some.injEq] at same
      exact absurd (Nat.mul_right_cancel (by decide) same) less.ne
  refine ⟨Line.filterMap_instruction?_interleave _ _, fun l => ?_, ?_, ascending⟩
  · have nodup : (b.shown.filterMap Line.label?).Nodup := by
      refine ascending.imp fun {l l'} less same => ?_
      subst same
      exact Nat.lt_irrefl _ (less rfl)
    rw [Line.count_label, nodup.count]
    exact if_congr h.mem_filterMap_shown rfl rfl
  · intro before l after same
    exact mem_labelsAt.1 (Line.mem_labels_of_interleave_eq same)

theorem Shows.mem_label_iff {lines : List Line} (h : b.Shows lines) {l : Label} :
    .label l ∈ lines ↔ (b.position? l).isSome := by
  rw [← List.count_pos_iff, h.labels]
  split_ifs with bound <;> simp [bound]

/-- Lines tell the code and the positions of all labels. -/
theorem Shows.unique {lines : List Line} (h : b.Shows lines) (h' : b'.Shows lines) :
    b.code = b'.code ∧ ∀ l, b.position? l = b'.position? l := by
  refine ⟨Array.toList_inj.1 (h.instructions.symm.trans h'.instructions), fun l => ?_⟩
  by_cases mem : Line.label l ∈ lines
  · obtain ⟨before, after, same⟩ := List.append_of_mem mem
    rw [h.places _ _ _ same, h'.places _ _ _ same]
  · have none := mem
    rw [h.mem_label_iff, Option.not_isSome_iff_eq_none] at none
    rw [h'.mem_label_iff, Option.not_isSome_iff_eq_none] at mem
    rw [none, mem]

theorem labelsAt_congr (positions : ∀ l, b.position? l = b'.position? l) (p : ℕ) :
    b.labelsAt p = b'.labelsAt p := by
  have indices (b : CodeBuffer) : ((b.labelsAt p).map Label.index).Pairwise (· < ·) :=
    List.pairwise_map.2 (b.pairwise_labelsAt p)
  have same : (b.labelsAt p).map Label.index = (b'.labelsAt p).map Label.index := by
    refine (indices b).eq_of_mem_iff (indices b') fun n => ?_
    simp only [List.mem_map, mem_labelsAt, positions]
  exact List.map_injective_iff.2 (fun l l' => by cases l; cases l'; exact congrArg _) same

/-- Buffers that some history leads to have the same listing exactly if they hold the same code and
bind the same labels to the same positions. A listing shows its buffer in lines, which are known
from the text, and tells different instructions apart. -/
theorem listing_lossless {standing standing' : List CodeBuffer} (reached : Reached b standing)
    (reached' : Reached b' standing') :
    (b.listing = b'.listing ↔ b.code = b'.code ∧ ∀ l, b.position? l = b'.position? l) ∧
    b.Shows b.shown ∧
    (∀ lines, "\n".intercalate (lines.map Line.text) = b.listing ↔ lines = b.shown) ∧
    Function.Injective Line.text ∧ Function.Injective Instruction.text := by
  obtain ⟨sound, -⟩ := reached.sound_and_backed
  obtain ⟨sound', -⟩ := reached'.sound_and_backed
  refine ⟨⟨fun same => ?_, ?_⟩, sound.shows_shown, fun lines => ?_, Line.text_injective,
    Instruction.text_injective⟩
  · rw [listing_eq, listing_eq] at same
    have shows' := sound'.shows_shown
    rw [← Line.intercalate_text_inj same] at shows'
    exact sound.shows_shown.unique shows'
  · rintro ⟨code, positions⟩
    rw [listing_eq, listing_eq, shown, shown, code]
    simp only [labelsAt_congr positions]
  · rw [listing_eq]
    exact ⟨Line.intercalate_text_inj, fun same => by rw [same]⟩

/-- One instruction and one label, which is bound before the instruction or behind it. -/
theorem listing_lossless_around_nop :
    let start := CodeBuffer.empty.act .newLabel
    let b := (start.act (.bind ⟨0⟩)).act (.append .nop)
    let b' := (start.act (.append .nop)).act (.bind ⟨0⟩)
    (Reached b [] ∧ Reached b' []) ∧ b.code = b'.code ∧ b.listing ≠ b'.listing ∧
      b.Shows b.shown := by
  intro start b b'
  have started : Reached start [] := .act _ .empty
  have reached : Reached b [] := .act _ (.act _ started)
  have reached' : Reached b' [] := .act _ (.act _ started)
  have lossless := listing_lossless reached reached'
  refine ⟨⟨reached, reached'⟩, rfl, fun same => ?_, lossless.2.1⟩
  have position : b.position? ⟨0⟩ = b'.position? ⟨0⟩ := (lossless.1.1 same).2 ⟨0⟩
  have before : b.position? ⟨0⟩ = some 0 := rfl
  have behind : b'.position? ⟨0⟩ = some 4 := rfl
  rw [before, behind] at position
  contradiction

end CodeBuffer

end Multiway
