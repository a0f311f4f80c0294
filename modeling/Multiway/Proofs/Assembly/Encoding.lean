import Multiway.Proofs.Assembly.Decoding

/-!
# What encoding keeps

An instruction whose immediates fit can be encoded unless it is a branch whose target is not bound
or too far away. Its word tells all about it, so two instructions that share a word at one position
are the same but for the names of labels. There is one exception: to do nothing and to set the
register that reads as zero to zero have one word.
-/
namespace Multiway

/-- A position that an instruction may have, in the lower quarter of all positions. -/
def IsPlace (p : ℕ) : Prop := instructionBytes ∣ p ∧ p < modulus 62

instance (p : ℕ) : Decidable (IsPlace p) := inferInstanceAs (Decidable (_ ∧ _))

/-- The distance field of a branch holds the number of instructions to its target, if that fits. -/
theorem map_branchField_eq_ok_iff {bits position : ℕ} {target : Label}
    {resolve : Label → Option ℕ} {f : BitVec bits → Word} {w : Word} (here : IsPlace position)
    (there : ∀ p ∈ resolve target, IsPlace p) :
    (branchField bits position target resolve).map f = .ok w ↔
      ∃ (p : ℕ) (n : Int), resolve target = some p ∧ (p : Int) = position + n * instructionBytes ∧
        FitsSigned bits n ∧ w = f (BitVec.ofInt bits n) := by
  unfold branchField
  cases resolved : resolve target with
  | none => simp [Except.map]
  | some p =>
    have bound : modulus 62 = bufferBound * instructionBytes := rfl
    obtain ⟨⟨a, rfl⟩, low⟩ := here
    obtain ⟨⟨b, rfl⟩, low'⟩ := there p resolved
    rw [bound, Nat.mul_comm] at low low'
    simp only
    rw [Nat.mul_comm _ a, Nat.mul_comm _ b,
      distance_mul_instructionBytes (Nat.lt_of_mul_lt_mul_right low)
        (Nat.lt_of_mul_lt_mul_right low'), inInstructions_mul]
    constructor
    · intro ok
      split_ifs at ok with fits
      · refine ⟨_, (b : Int) - a, rfl, ?_, fits, (Except.ok.inj ok).symm⟩
        simp only [instructionBytes]
        omega
      · contradiction
    · rintro ⟨p, n, same, away, fits, rfl⟩
      have number : (b : Int) - a = n := by
        cases same
        simp only [instructionBytes] at away
        omega
      rw [number, if_pos fits]
      rfl

namespace Instruction

/-- Each immediate operand fits its field. -/
def ImmediatesFit : Instruction → Prop
  | compare _ right => right.Fits 13
  | or _ right _ => right.Fits 13
  | load _ _ offset _ => offset.Fits 13
  | fused _ _ _ right _ => right.Fits 5
  | setHigh value _ => value < modulus 22
  | branch .. | nop => True

/-- The width of the distance field of a branch. -/
def reachBits : Instruction → ℕ
  | fused .. => fusedReachBits
  | _ => branchReachBits

/-- If this is a branch, its target has a position, and the number of instructions from here to
there fits the distance field. -/
def Reaches (x : Instruction) (position : ℕ) (resolve : Label → Option ℕ) : Prop :=
  ∀ l, x.target? = some l → ∃ (p : ℕ) (n : Int), resolve l = some p ∧
    (p : Int) = position + n * instructionBytes ∧ FitsSigned x.reachBits n

/-- What there is to be told about an instruction where labels have positions. -/
def content? (resolve : Label → Option ℕ) : Instruction → Option Decoded
  | compare left right => some (.compare left right)
  | branch codes test annul predictTaken target =>
    (resolve target).map fun p : ℕ => .branch codes test annul predictTaken p
  | fused test codes left right target =>
    (resolve target).map fun p : ℕ => .fused test codes left right p
  | setHigh value dest => some (.setHigh value dest)
  | or left right dest => some (.or left right dest)
  | load width base offset dest => some (.load width base offset dest)
  | nop => some .nop

variable {x y : Instruction} {position : ℕ} {resolve resolve' : Label → Option ℕ} {w : Word}

theorem reaches_iff {target : Label} (h : x.target? = some target) :
    x.Reaches position resolve ↔ ∃ (p : ℕ) (n : Int), resolve target = some p ∧
      (p : Int) = position + n * instructionBytes ∧ FitsSigned x.reachBits n := by
  simp [Reaches, h]

/-- An instruction is encoded unless it is a branch that does not reach its target. -/
theorem exists_encode_iff (here : IsPlace position)
    (there : ∀ l ∈ x.target?, ∀ p ∈ resolve l, IsPlace p) :
    (∃ w, x.encode position resolve = .ok w) ↔ x.Reaches position resolve := by
  have branches {bits : ℕ} {f : BitVec bits → Word} {target : Label}
      (there : ∀ p ∈ resolve target, IsPlace p) :
      (∃ w, (branchField bits position target resolve).map f = .ok w) ↔ ∃ (p : ℕ) (n : Int),
        resolve target = some p ∧ (p : Int) = position + n * instructionBytes ∧
          FitsSigned bits n := by
    simp only [map_branchField_eq_ok_iff here there]
    constructor
    · rintro ⟨w, p, n, resolved, away, fits, -⟩
      exact ⟨p, n, resolved, away, fits⟩
    · rintro ⟨p, n, resolved, away, fits⟩
      exact ⟨_, p, n, resolved, away, fits, rfl⟩
  cases x with
  | branch codes test annul predictTaken target =>
    rw [reaches_iff rfl]
    exact branches (there target rfl)
  | fused test codes left right target =>
    rw [reaches_iff rfl]
    exact branches (there target rfl)
  | _ => exact ⟨fun _ l target => by contradiction, fun _ => ⟨_, rfl⟩⟩

/-- A word tells what it encodes. -/
theorem decode_of_encode (fits : x.ImmediatesFit) (here : IsPlace position)
    (there : ∀ l ∈ x.target?, ∀ p ∈ resolve l, IsPlace p)
    (encoded : x.encode position resolve = .ok w) :
    ∃ c, x.content? resolve = some c ∧
      w.decode position = some (if c = .setHigh 0 .zero then .nop else c) := by
  cases x with
  | compare left right =>
    cases encoded
    exact ⟨_, rfl, Word.decode_compare position fits⟩
  | branch codes test annul predictTaken target =>
    obtain ⟨p, n, resolved, away, near, rfl⟩ :=
      (map_branchField_eq_ok_iff here (there target rfl)).1 encoded
    refine ⟨.branch codes test annul predictTaken p, by rw [content?, resolved]; rfl, ?_⟩
    rw [away, if_neg (fun same => by contradiction)]
    exact Word.decode_branch position codes test annul predictTaken near
  | fused test codes left right target =>
    obtain ⟨p, n, resolved, away, near, rfl⟩ :=
      (map_branchField_eq_ok_iff here (there target rfl)).1 encoded
    refine ⟨.fused test codes left right p, by rw [content?, resolved]; rfl, ?_⟩
    rw [away, if_neg (fun same => by contradiction)]
    exact Word.decode_fused position test codes left fits near
  | setHigh value dest =>
    cases encoded
    refine ⟨_, rfl, ?_⟩
    rw [Word.decode_setHigh position fits]
    simp only [Decoded.setHigh.injEq]
  | or left right dest =>
    cases encoded
    exact ⟨_, rfl, Word.decode_or position fits⟩
  | load width base offset dest =>
    cases encoded
    exact ⟨_, rfl, Word.decode_load position fits⟩
  | nop =>
    cases encoded
    exact ⟨_, rfl, rfl⟩

example : (0x32c22023 : Word).decode 8 = some (.fused .notEqual .icc ⟨8⟩ (.imm 3) 12) := by decide

theorem eq_nop_of_content? (h : x.content? resolve = some .nop) : x = .nop := by
  cases x <;> simp_all [content?]

theorem eq_setHigh_of_content? {value : ℕ} {dest : Register}
    (h : x.content? resolve = some (.setHigh value dest)) : x = .setHigh value dest := by
  cases x <;> simp_all [content?]

/-- Instructions that share a word at one position differ in the names of labels at most, unless one
does nothing and the other sets the register that reads as zero to zero. -/
theorem content?_eq_of_encode (fits : x.ImmediatesFit) (fits' : y.ImmediatesFit)
    (here : IsPlace position) (there : ∀ l ∈ x.target?, ∀ p ∈ resolve l, IsPlace p)
    (there' : ∀ l ∈ y.target?, ∀ p ∈ resolve' l, IsPlace p)
    (encoded : x.encode position resolve = .ok w) (encoded' : y.encode position resolve' = .ok w) :
    y.content? resolve' = x.content? resolve ∨ (x = .nop ∧ y = .setHigh 0 .zero) ∨
      (x = .setHigh 0 .zero ∧ y = .nop) := by
  obtain ⟨c, content, decoded⟩ := decode_of_encode fits here there encoded
  obtain ⟨c', content', decoded'⟩ := decode_of_encode fits' here there' encoded'
  rw [decoded, Option.some.injEq] at decoded'
  split_ifs at decoded' with zero zero' zero'
  · left
    rw [content, content', zero, zero']
  · subst zero decoded'
    exact Or.inr (Or.inr ⟨eq_setHigh_of_content? content, eq_nop_of_content? content'⟩)
  · subst zero' decoded'
    exact Or.inr (Or.inl ⟨eq_nop_of_content? content, eq_setHigh_of_content? content'⟩)
  · left
    rw [content, content', decoded']

/-- Encoding succeeds unless a branch does not reach its target, and loses nothing but the names of
labels. -/
theorem encode_lossless (fits : x.ImmediatesFit) (here : IsPlace position)
    (there : ∀ l ∈ x.target?, ∀ p ∈ resolve l, IsPlace p) :
    ((∃ w, x.encode position resolve = .ok w) ↔ x.Reaches position resolve) ∧
      ∀ w, x.encode position resolve = .ok w →
        (∃ c, x.content? resolve = some c ∧
          w.decode position = some (if c = .setHigh 0 .zero then .nop else c)) ∧
        ∀ (y : Instruction) (resolve' : Label → Option ℕ), y.ImmediatesFit →
          (∀ l ∈ y.target?, ∀ p ∈ resolve' l, IsPlace p) → y.encode position resolve' = .ok w →
            y.content? resolve' = x.content? resolve ∨ (x = .nop ∧ y = .setHigh 0 .zero) ∨
              (x = .setHigh 0 .zero ∧ y = .nop) := by
  refine ⟨exists_encode_iff here there, fun w encoded => ⟨?_, ?_⟩⟩
  · exact decode_of_encode fits here there encoded
  · intro y resolve' fits' there' encoded'
    exact content?_eq_of_encode fits fits' here there there' encoded encoded'

/-- A fused branch with a negative immediate, as far backward as there is reach. -/
theorem encode_lossless_backward :
    let x : Instruction := .fused .carrySet .xcc ⟨8⟩ (.imm (-16)) ⟨7⟩
    let resolve (l : Label) : Option ℕ := if l = ⟨7⟩ then some 4 else none
    x.ImmediatesFit ∧ IsPlace 2052 ∧ (∀ l ∈ x.target?, ∀ p ∈ resolve l, IsPlace p) ∧
      ((∃ w, x.encode 2052 resolve = .ok w) ↔ x.Reaches 2052 resolve) ∧
        ∀ w, x.encode 2052 resolve = .ok w →
          (∃ c, x.content? resolve = some c ∧
            w.decode 2052 = some (if c = .setHigh 0 .zero then .nop else c)) ∧
          ∀ (y : Instruction) (resolve' : Label → Option ℕ), y.ImmediatesFit →
            (∀ l ∈ y.target?, ∀ p ∈ resolve' l, IsPlace p) → y.encode 2052 resolve' = .ok w →
              y.content? resolve' = x.content? resolve ∨ (x = .nop ∧ y = .setHigh 0 .zero) ∨
                (x = .setHigh 0 .zero ∧ y = .nop) := by
  intro x resolve
  have fits : x.ImmediatesFit := show FitsSigned 5 (-16) by decide
  have there : ∀ l ∈ x.target?, ∀ p ∈ resolve l, IsPlace p := by
    rintro l ⟨⟩ p ⟨⟩
    decide
  exact ⟨fits, by decide, there, encode_lossless fits (by decide) there⟩

end Instruction

end Multiway
