import Mathlib.Data.Int.Notation
import Mathlib.Tactic.Common
import Multiway.Assembly.Instruction.Text
import Std.Data.String.ToInt
import Std.Data.String.ToNat

/-!
# Reading assembly text

Assembly text can be read in one way only. The text of an instruction is a sequence of words with
blanks between them: its mnemonic, which commas divide further, and then its operands with their
punctuation. Registers, numbers and labels are written with letters, digits and two marks, so
neither blanks nor commas occur in them. The mnemonic tells the form of the instruction, and thereby
what the operands stand for.
-/
namespace Multiway

/-- Texts are known from what they are joined to with a separator that occurs in none of them. -/
theorem intercalate_inj {c : Char} {separator : String} (single : separator.toList = [c])
    {ss ts : List String} (hs : ∀ s ∈ ss, c ∉ s.toList) (ht : ∀ t ∈ ts, c ∉ t.toList)
    (nonempty : ss ≠ []) (nonempty' : ts ≠ [])
    (h : separator.intercalate ss = separator.intercalate ts) : ss = ts := by
  have split {us : List String} (hu : ∀ u ∈ us, c ∉ u.toList) (nonempty : us ≠ []) :
      (separator.intercalate us).toList.splitOn c = us.map String.toList := by
    rw [String.toList_intercalate, single]
    exact List.splitOn_intercalate c (by simpa using hu) (by simpa using nonempty)
  have same : ss.map String.toList = ts.map String.toList := by
    rw [← split hs nonempty, h, split ht nonempty']
  exact (List.map_inj_right fun _ _ => String.toList_injective).1 same

theorem notMem_intercalate {c : Char} {separator : String} (other : c ∉ separator.toList)
    {ss : List String} (hs : ∀ s ∈ ss, c ∉ s.toList) : c ∉ (separator.intercalate ss).toList := by
  induction ss with
  | nil => simp
  | cons s ss ih =>
    rw [List.forall_mem_cons] at hs
    obtain rfl | more := eq_or_ne ss []
    · simpa using hs.1
    · rw [String.intercalate_cons_of_ne_nil more, String.toList_append, String.toList_append]
      simp only [List.mem_append, not_or]
      exact ⟨⟨hs.1, other⟩, ih hs.2⟩

/-! ## Words -/

/-- The characters that registers, numbers and labels are written with. -/
def isWordChar (c : Char) : Bool := c.isAlphanum || c == '%' || c == '-'

/-- A text without blanks and punctuation. -/
def IsWord (s : String) : Prop := s.toList.all isWordChar

instance : DecidablePred IsWord := fun s =>
  inferInstanceAs (Decidable (s.toList.all isWordChar = true))

theorem isWord_iff {s : String} : IsWord s ↔ ∀ c ∈ s.toList, isWordChar c := List.all_eq_true

theorem isWord_append {s t : String} : IsWord (s ++ t) ↔ IsWord s ∧ IsWord t := by
  simp only [isWord_iff, String.toList_append, List.forall_mem_append]

theorem IsWord.notMem {s : String} (h : IsWord s) {c : Char} (other : ¬isWordChar c) :
    c ∉ s.toList :=
  fun mem => other (isWord_iff.1 h c mem)

/-! ## Numbers -/

theorem isDigit_of_mem_repr {n : ℕ} {c : Char} (mem : c ∈ n.repr.toList) : c.isDigit := by
  rw [Nat.toList_repr] at mem
  exact Nat.isDigit_of_mem_toDigits (by decide) (by decide) mem

theorem eq_or_isDigit_of_mem_toString {v : ℤ} {c : Char} (mem : c ∈ (toString v).toList) :
    c = '-' ∨ c.isDigit := by
  rw [Int.toString_eq_repr, Int.repr_eq_if] at mem
  split_ifs at mem
  · exact .inr (isDigit_of_mem_repr mem)
  · rw [String.toList_append, List.mem_append] at mem
    exact mem.imp List.mem_singleton.1 isDigit_of_mem_repr

theorem isWordChar_of_isDigit {c : Char} (digit : c.isDigit) : isWordChar c := by
  simp [isWordChar, Char.isAlphanum, digit]

theorem isWord_repr (n : ℕ) : IsWord n.repr :=
  isWord_iff.2 fun _ mem => isWordChar_of_isDigit (isDigit_of_mem_repr mem)

theorem isWord_toString (v : ℤ) : IsWord (toString v) := by
  refine isWord_iff.2 fun c mem => ?_
  obtain rfl | digit := eq_or_isDigit_of_mem_toString mem
  · decide
  · exact isWordChar_of_isDigit digit

theorem isWordChar_digitChar : ∀ d < 16, isWordChar d.digitChar := by decide

theorem digitChar_inj : ∀ d < 16, ∀ e < 16, d.digitChar = e.digitChar → d = e := by decide

theorem isWord_hexLiteral (n : ℕ) : IsWord (hexLiteral n) := by
  refine isWord_append.2 ⟨by decide, ?_⟩
  rw [isWord_iff, String.toList_ofList]
  induction n using Nat.strongRecOn with
  | ind n ih =>
    rw [Nat.toDigits_eq_if (by decide)]
    split_ifs with small
    · simpa using isWordChar_digitChar n small
    · rw [List.forall_mem_append, List.forall_mem_singleton]
      exact ⟨ih (n / 16) (by omega), isWordChar_digitChar _ (Nat.mod_lt _ (by decide))⟩

theorem hexLiteral_injective : Function.Injective hexLiteral := by
  suffices digits : ∀ n m, Nat.toDigits 16 n = Nat.toDigits 16 m → n = m by
    intro n m h
    exact digits n m (String.ofList_injective ((String.append_right_inj _).1 h))
  intro n
  induction n using Nat.strongRecOn with
  | ind n ih =>
    intro m h
    rw [Nat.toDigits_eq_if (by decide), Nat.toDigits_eq_if (n := m) (by decide)] at h
    -- One digit is not the same as several digits.
    have several (k : ℕ) (c d : Char) : [c] ≠ Nat.toDigits 16 k ++ [d] := by
      intro same
      have length := congrArg List.length same
      simp [Nat.toDigits_ne_nil] at length
    split_ifs at h with hn hm hm
    · exact digitChar_inj n hn m hm (List.singleton_inj.1 h)
    · exact absurd h (several _ _ _)
    · exact absurd h.symm (several _ _ _)
    · obtain ⟨high, low⟩ := List.append_inj' h rfl
      have high := ih (n / 16) (by omega) _ high
      have low := digitChar_inj _ (Nat.mod_lt n (by decide)) _ (Nat.mod_lt m (by decide))
        (List.singleton_inj.1 low)
      omega

/-! ## Registers, labels and operands -/

theorem Bank.isWord_letter (b : Bank) : IsWord b.letter := by cases b <;> decide

theorem Bank.letter_append_inj {b b' : Bank} {s t : String} (h : b.letter ++ s = b'.letter ++ t) :
    b = b' ∧ s = t := by
  rw [← String.toList_inj] at h
  cases b <;> cases b' <;> simp_all [letter, String.toList_inj]

namespace Register

theorem isWord_text (r : Register) : IsWord r.text :=
  isWord_append.2 ⟨isWord_append.2 ⟨by decide, r.bank.isWord_letter⟩, isWord_repr _⟩

theorem text_injective : Function.Injective text := by
  intro r s h
  rw [text, text, String.append_assoc, String.append_assoc, String.append_right_inj] at h
  obtain ⟨bank, place⟩ := Bank.letter_append_inj h
  have place : r.place = s.place := Nat.repr_injective place
  rw [← inBank_bank_place r, bank, place, inBank_bank_place]

end Register

namespace Label

theorem isWord_text (l : Label) : IsWord l.text := isWord_append.2 ⟨by decide, isWord_repr _⟩

theorem text_injective : Function.Injective text := by
  intro l l' h
  have index : l.index = l'.index := Nat.repr_injective ((String.append_right_inj _).1 h)
  cases l
  cases l'
  exact congrArg mk index

end Label

namespace Operand

theorem isWord_text (o : Operand) : IsWord o.text := by
  cases o with
  | reg r => exact r.isWord_text
  | imm v => exact isWord_toString v

/-- A register begins with a mark that no number contains. -/
theorem text_reg_ne_text_imm (r : Register) (v : ℤ) : (reg r).text ≠ (imm v).text := by
  intro h
  have mark : '%' ∈ (imm v).text.toList := by
    rw [← h]
    simp [text, Register.text]
  have number := eq_or_isDigit_of_mem_toString mark
  contradiction

theorem text_injective : Function.Injective text := by
  intro o o' h
  cases o with
  | reg r =>
    cases o' with
    | reg r' => exact congrArg reg (Register.text_injective h)
    | imm v => exact absurd h (text_reg_ne_text_imm r v)
  | imm v =>
    cases o' with
    | reg r => exact absurd h.symm (text_reg_ne_text_imm r v)
    | imm v' => exact congrArg imm (Int.repr_injective h)

end Operand

/-! ## Instructions -/

namespace CodeSet

theorem isWord_text (codes : CodeSet) : IsWord codes.text := by cases codes <;> decide

theorem isWord_letter (codes : CodeSet) : IsWord codes.letter := by cases codes <;> decide

theorem text_injective : Function.Injective text := by
  intro codes codes' h
  cases codes <;> cases codes' <;> first | rfl | simp [text] at h

theorem letter_append_inj {codes codes' : CodeSet} {s t : String}
    (h : codes.letter ++ s = codes'.letter ++ t) : codes = codes' ∧ s = t := by
  rw [← String.toList_inj] at h
  cases codes <;> cases codes' <;> simp_all [letter, String.toList_inj]

end CodeSet

namespace Width

theorem isWord_loadMnemonic (width : Width) : IsWord width.loadMnemonic := by
  cases width <;> decide

theorem loadMnemonic_injective : Function.Injective loadMnemonic := by
  intro width width' h
  cases width <;> cases width' <;> first | rfl | simp [loadMnemonic] at h

end Width

namespace FlagTest

theorem isWord_mnemonic (t : FlagTest) : IsWord t.mnemonic := by cases t <;> decide

theorem mnemonic_injective : Function.Injective mnemonic := by
  intro t t' h
  cases t <;> cases t' <;> first | rfl | simp [mnemonic] at h

end FlagTest

namespace Instruction

/-- The parts of the mnemonic, with commas between them. -/
def mnemonic : Instruction → List String
  | compare .. => ["cmp"]
  | branch _ test annul predictTaken _ =>
    ("b" ++ test.mnemonic) ::
      ((if annul then ["a"] else []) ++ [if predictTaken then "pt" else "pn"])
  | fused test codes .. => ["c" ++ codes.letter ++ "b" ++ test.mnemonic]
  | setHigh .. => ["sethi"]
  | or .. => ["or"]
  | load width .. => [width.loadMnemonic]
  | nop => ["nop"]

/-- The operands, each with the punctuation around it. -/
def operands : Instruction → List String
  | compare left right => [left.text ++ ",", right.text]
  | branch codes _ _ _ target => [codes.text ++ ",", target.text]
  | fused _ _ left right target => [left.text ++ ",", right.text ++ ",", target.text]
  | setHigh value dest => [hexLiteral value ++ ",", dest.text]
  | or left right dest => [left.text ++ ",", right.text ++ ",", dest.text]
  | load _ base offset dest => ["[" ++ base.text, "+", offset.text ++ "],", dest.text]
  | nop => []

def words (i : Instruction) : List String := ",".intercalate i.mnemonic :: i.operands

theorem text_eq (i : Instruction) : i.text = " ".intercalate i.words := by
  rw [← String.toList_inj]
  cases i with
  | branch codes test annul predictTaken target =>
    cases annul <;> cases predictTaken <;> simp [text, words, mnemonic, operands]
  | load width base offset dest =>
    cases width <;> simp [text, words, mnemonic, operands, Width.loadMnemonic]
  | _ => simp [text, words, mnemonic, operands]

theorem mnemonic_ne_nil (i : Instruction) : i.mnemonic ≠ [] := by cases i <;> simp [mnemonic]

theorem isWord_of_mem_mnemonic (i : Instruction) : ∀ s ∈ i.mnemonic, IsWord s := by
  have letter : IsWord "b" ∧ IsWord "c" := by decide
  cases i with
  | branch codes test annul predictTaken target =>
    cases annul <;> cases predictTaken <;>
      simp [mnemonic, isWord_append, letter, test.isWord_mnemonic] <;> decide
  | fused test codes left right target =>
    simp [mnemonic, isWord_append, letter, test.isWord_mnemonic, codes.isWord_letter]
  | load width base offset dest => simpa [mnemonic] using width.isWord_loadMnemonic
  | _ => simp only [mnemonic, List.forall_mem_singleton]; decide

theorem notMem_of_mem_operands {c : Char} (other : ¬isWordChar c) (plain : c ∉ "[+],".toList)
    (i : Instruction) : ∀ s ∈ i.operands, c ∉ s.toList := by
  have register (r : Register) : c ∉ r.text.toList := r.isWord_text.notMem other
  have operand (o : Operand) : c ∉ o.text.toList := o.isWord_text.notMem other
  have label (l : Label) : c ∉ l.text.toList := l.isWord_text.notMem other
  have codeSet (codes : CodeSet) : c ∉ codes.text.toList := codes.isWord_text.notMem other
  have number (n : ℕ) : c ∉ (hexLiteral n).toList := (isWord_hexLiteral n).notMem other
  cases i <;> simp_all [operands]

theorem notMem_of_mem_words {c : Char} (space : c = ' ' ∨ c = '\n') (i : Instruction) :
    ∀ s ∈ i.words, c ∉ s.toList := by
  have other : ¬isWordChar c := by obtain rfl | rfl := space <;> decide
  have plain : c ∉ "[+],".toList := by obtain rfl | rfl := space <;> decide
  have comma : c ∉ ",".toList := by obtain rfl | rfl := space <;> decide
  rw [words, List.forall_mem_cons]
  refine ⟨notMem_intercalate comma fun s mem => ?_, notMem_of_mem_operands other plain i⟩
  exact (i.isWord_of_mem_mnemonic s mem).notMem other

/-- The text of an instruction is one line. -/
theorem notMem_text (i : Instruction) : '\n' ∉ i.text.toList := by
  rw [text_eq]
  exact notMem_intercalate (by decide) (i.notMem_of_mem_words (.inr rfl))

/-- The form of an instruction whose text begins with some characters. Forms are numbered in the
order of the constructors. -/
def formOf : List Char → ℕ
  | 'c' :: 'm' :: _ => 0
  | 'b' :: _ => 1
  | 'c' :: _ => 2
  | 's' :: _ => 3
  | 'o' :: _ => 4
  | 'l' :: _ => 5
  | _ => 6

theorem formOf_mnemonic (i : Instruction) :
    formOf (i.mnemonic.flatMap String.toList) = i.ctorIdx := by
  cases i with
  | branch => simp [mnemonic, formOf, Instruction.ctorIdx]
  | fused test codes =>
    cases codes <;> simp [mnemonic, formOf, Instruction.ctorIdx, CodeSet.letter]
  | load width =>
    cases width <;> simp [mnemonic, formOf, Instruction.ctorIdx, Width.loadMnemonic]
  | _ => simp [mnemonic, formOf, Instruction.ctorIdx]

/-- The mnemonic tells everything but the operands. -/
theorem mnemonic_operands_inj {i j : Instruction} (mnemonics : i.mnemonic = j.mnemonic)
    (same : i.operands = j.operands) : i = j := by
  have form : i.ctorIdx = j.ctorIdx := by
    rw [← formOf_mnemonic, mnemonics, formOf_mnemonic]
  cases i with
  | compare left right =>
    cases j with
    | compare left' right' =>
      simp only [operands, List.cons.injEq, String.append_left_inj] at same
      obtain ⟨hl, hr, -⟩ := same
      rw [Register.text_injective hl, Operand.text_injective hr]
    | _ => simp [Instruction.ctorIdx] at form
  | branch codes test annul predictTaken target =>
    cases j with
    | branch codes' test' annul' predictTaken' target' =>
      simp only [operands, List.cons.injEq, String.append_left_inj] at same
      obtain ⟨hc, ht, -⟩ := same
      simp only [mnemonic, List.cons.injEq, String.append_right_inj] at mnemonics
      obtain ⟨htest, completers⟩ := mnemonics
      have flags : annul = annul' ∧ predictTaken = predictTaken' := by
        cases annul <;> cases annul' <;> cases predictTaken <;> cases predictTaken' <;>
          simp at completers ⊢
      rw [CodeSet.text_injective hc, Label.text_injective ht, FlagTest.mnemonic_injective htest,
        flags.1, flags.2]
    | _ => simp [Instruction.ctorIdx] at form
  | fused test codes left right target =>
    cases j with
    | fused test' codes' left' right' target' =>
      simp only [operands, List.cons.injEq, String.append_left_inj] at same
      obtain ⟨hl, hr, ht, -⟩ := same
      simp only [mnemonic, List.cons.injEq, String.append_assoc, String.append_right_inj]
        at mnemonics
      obtain ⟨hc, htest⟩ := CodeSet.letter_append_inj mnemonics.1
      have htest := FlagTest.mnemonic_injective ((String.append_right_inj _).1 htest)
      rw [hc, htest, Register.text_injective hl, Operand.text_injective hr,
        Label.text_injective ht]
    | _ => simp [Instruction.ctorIdx] at form
  | setHigh value dest =>
    cases j with
    | setHigh value' dest' =>
      simp only [operands, List.cons.injEq, String.append_left_inj] at same
      obtain ⟨hv, hd, -⟩ := same
      rw [hexLiteral_injective hv, Register.text_injective hd]
    | _ => simp [Instruction.ctorIdx] at form
  | or left right dest =>
    cases j with
    | or left' right' dest' =>
      simp only [operands, List.cons.injEq, String.append_left_inj] at same
      obtain ⟨hl, hr, hd, -⟩ := same
      rw [Register.text_injective hl, Operand.text_injective hr, Register.text_injective hd]
    | _ => simp [Instruction.ctorIdx] at form
  | load width base offset dest =>
    cases j with
    | load width' base' offset' dest' =>
      simp only [operands, List.cons.injEq, String.append_left_inj, String.append_right_inj] at same
      obtain ⟨hb, -, ho, hd, -⟩ := same
      have hw := Width.loadMnemonic_injective (List.singleton_inj.1 mnemonics)
      rw [hw, Register.text_injective hb, Operand.text_injective ho, Register.text_injective hd]
    | _ => simp [Instruction.ctorIdx] at form
  | nop =>
    cases j with
    | nop => rfl
    | _ => simp [Instruction.ctorIdx] at form

theorem text_injective : Function.Injective text := by
  intro i j h
  rw [text_eq, text_eq] at h
  have same : i.words = j.words :=
    intercalate_inj rfl (i.notMem_of_mem_words (.inl rfl)) (j.notMem_of_mem_words (.inl rfl))
      (List.cons_ne_nil _ _) (List.cons_ne_nil _ _) h
  obtain ⟨head, operands⟩ := List.cons.inj same
  have comma (k : Instruction) : ∀ s ∈ k.mnemonic, ',' ∉ s.toList := fun s mem =>
    (k.isWord_of_mem_mnemonic s mem).notMem (by decide)
  have mnemonics : i.mnemonic = j.mnemonic :=
    intercalate_inj rfl (comma i) (comma j) i.mnemonic_ne_nil j.mnemonic_ne_nil head
  exact mnemonic_operands_inj mnemonics operands

end Instruction

end Multiway
