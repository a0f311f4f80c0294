import Multiway.Proofs.Lowering.Load
import Multiway.Proofs.Lowering.Plan

/-!
# Fetching a key

A pooled key is fetched from the constant pool by a plan that is made once, while the pool may grow
afterwards. The plan loads once, from the slot of the key, and changes the scratch register only.

The slot never moves, so the plan is good for every pool that the present one grows into, and a plan
that is made later for the same key is the same one and leaves the pool as it is.
-/
namespace Multiway

/-- The address that an instruction loads from, and the width of what it loads. -/
def Instruction.access? (p : Processor) : Instruction → Option (BitVec 64 × Width)
  | .load width base offset _ => some (p.read base + p.operand operandBits offset, width)
  | _ => none

namespace Processor

def accesses (m : Memory) : Processor → List Instruction → List (BitVec 64 × Width)
  | _, [] => []
  | p, i :: is => (i.access? p).toList ++ accesses m (i.effect m p) is

theorem accesses_append (m : Memory) (p : Processor) (is js : List Instruction) :
    p.accesses m (is ++ js) = p.accesses m is ++ (p.after m is).accesses m js := by
  induction is generalizing p with
  | nil => rfl
  | cons i is ih =>
    rw [List.cons_append, accesses, ih, accesses, List.append_assoc]
    rfl

end Processor

namespace ConstantPool

def internAll (p : ConstantPool) (cs : List Constant) : ConstantPool :=
  cs.foldl (fun p c => (p.intern c).2) p

theorem extends_internAll (p : ConstantPool) (cs : List Constant) : Extends p (p.internAll cs) := by
  induction cs generalizing p with
  | nil => exact Extends.refl p
  | cons c cs ih => exact (extends_intern p c).trans (ih _)

theorem Sound.internAll {p : ConstantPool} (hp : p.Sound) (cs : List Constant) :
    (p.internAll cs).Sound := by
  induction cs generalizing p with
  | nil => exact hp
  | cons c cs ih => exact ih (hp.intern c)

end ConstantPool

open ConstantPool

namespace LoadPlan

variable {m : Memory} {p : Processor} {base scratch : Register} {o : ℕ}

/-- A plan loads once, from its offset. -/
theorem accesses_atOffset (width : Width) (hs : ¬scratch.isZero) (hb : base ≠ scratch)
    (ho : o < modulus 32) :
    p.accesses m (atOffset width base scratch o).instructions =
      [(p.read base + BitVec.ofNat 64 o, width)] := by
  obtain ⟨operand, untouched, -⟩ := after_offsetCode (m := m) (p := p) hs hb ho
  have none : p.accesses m (offsetCode scratch o) = [] := by
    unfold offsetCode
    split_ifs <;> rfl
  rw [instructions_atOffset, Processor.accesses_append, none]
  simp only [Processor.accesses, Instruction.access?, operand, untouched]
  rfl

/-- Where memory holds the bytes of a pool from the base register on, the plan loads once, from the
slot of the constant. Wherever its instructions stand, control gets to their end, and the scratch
register holds the constant. Nothing else is changed. -/
def Fetches (plan : LoadPlan) (c : Constant) (o : ℕ) (base scratch : Register)
    (q : ConstantPool) : Prop :=
  ∀ (m : Memory) (p : Processor), m.HoldsPool (p.read base) q →
    p.accesses m plan.instructions = [(p.read base + BitVec.ofNat 64 o, c.width)] ∧
    ∀ (f : Fragment) (n : ℕ), f.Has n plan.instructions →
      Path (f.step m) plan.length (.arriving p (.inside n))
        (.arriving (p.write scratch c.bits) (.inside (n + plan.length)))

/-- The plan is good for every pool that holds the constant at its offset. -/
theorem fetches_atOffset {q : ConstantPool} {c : Constant} (sound : q.Sound) (fits : c.Fits)
    (held : q.offset? c = some o) (hs : ¬scratch.isZero) (hb : base ≠ scratch)
    (ho : o < modulus 32) : (atOffset c.width base scratch o).Fetches c o base scratch q := by
  intro m p memory
  refine ⟨accesses_atOffset c.width hs hb ho, ?_⟩
  have loaded : p.after m (atOffset c.width base scratch o).instructions =
      p.write scratch c.bits := by
    rw [after_atOffset_eq c.width hs hb ho, Memory.number_of_offset? memory sound fits held]
  have plain := plain_atOffset c.width base scratch o
  -- From here on the form of the plan is of no interest.
  generalize atOffset c.width base scratch o = plan at loaded plain ⊢
  intro f n has
  rw [← loaded]
  exact Fragment.path_plain has plain

end LoadPlan

namespace Key

variable {key : Key} {c : Constant} {pool q : ConstantPool} {base scratch : Register} {o : ℕ}

/-- In a pool that holds the constant of a key, a plan for the key leaves the pool alone. -/
theorem forKey_of_offset? (constant : key.constant? = some c) (hb : ¬base.isZero)
    (held : q.offset? c = some o) (scratch : Register) :
    LoadPlan.forKey key base scratch q = .ok (.atOffset c.width base scratch o, q) := by
  simp only [LoadPlan.forKey, constant, if_neg hb, intern_of_offset? held]

/-- The register that reads as zero is no base of a pooled key. -/
theorem forKey_of_isZero (pooled : key.isPooled) (hb : base.isZero) (scratch : Register)
    (p : ConstantPool) : LoadPlan.forKey key base scratch p = .error .noPoolBase := by
  obtain ⟨c, constant⟩ := Option.isSome_iff_exists.1 pooled
  simp only [LoadPlan.forKey, constant, if_pos hb]

/-- A plan for a key can be made in every pool that some history leads to. For a pooled key it takes
one instruction or three, and it fetches the key from an aligned slot however the pool grows; to
plan for the key again adds nothing to the pool. Without a base register a pooled key is refused,
and a comparison that fails for this leaves the pool as it is. An immediate key needs no plan. -/
theorem fetches_of_reached {marks : List ConstantPool.Mark} (reached : Reached pool marks)
    (key : Key) (hb : ¬base.isZero) (hs : ¬scratch.isZero) (apart : base ≠ scratch)
    (small : (key.reserve pool).size ≤ modulus 32) :
    (∀ c, key.constant? = some c → ∃ o, let plan := LoadPlan.atOffset c.width base scratch o
      LoadPlan.forKey key base scratch pool = .ok (plan, key.reserve pool) ∧
      c.width.bytes ∣ o ∧ plan.length = (if o ≤ 4095 then 1 else 3) ∧
      ∀ later, let q := (key.reserve pool).internAll later
        plan.Fetches c o base scratch q ∧ ∀ base' scratch', ¬base'.isZero →
          LoadPlan.forKey key base' scratch' q = .ok (.atOffset c.width base' scratch' o, q)) ∧
    (key.isPooled → ∀ zero : Register, zero.isZero →
      LoadPlan.forKey key zero scratch pool = .error .noPoolBase ∧
      ∀ (e : Emission) (condition : Condition) (target : Label) (d : Draft), e.base = zero →
        ∃ code, e.compare key condition target d = .error .noPoolBase { d with code }) ∧
    (¬key.isPooled → ∀ base, LoadPlan.forKey key base scratch pool = .ok ({}, pool)) := by
  refine ⟨fun c constant => ?_, fun pooled zero hz => ⟨?_, ?_⟩, fun immediate base => ?_⟩
  · have reserve : key.reserve pool = (pool.intern c).2 := by
      simp only [Key.reserve, constant]
    rw [reserve] at small ⊢
    have held : (pool.intern c).2.offset? c = some (pool.intern c).1 := offset?_intern pool c
    have sound : (pool.intern c).2.Sound := reached.sound.intern c
    have ho : (pool.intern c).1 < modulus 32 := (sound.lt_size held).trans_le small
    refine ⟨(pool.intern c).1, ?_, sound.aligned held, ?_, fun later => ?_⟩
    · simp only [LoadPlan.forKey, constant, if_neg hb]
    · rw [LoadPlan.length_atOffset]
      refine if_congr ?_ rfl rfl
      have bound : modulus 12 = 4096 := rfl
      rw [LoadPlan.isNear_iff, bound]
      omega
    · have kept := ((pool.intern c).2.extends_internAll later).offsets held
      constructor
      · exact LoadPlan.fetches_atOffset (sound.internAll later) (fits_constant constant) kept hs
          apart ho
      · intro base' scratch' hb'
        exact forKey_of_offset? constant hb' kept scratch'
  · exact forKey_of_isZero pooled hz scratch pool
  · intro e condition target d he
    refine ⟨(d.code.hintFor target).2, ?_⟩
    rw [Emission.compare_eq, forKey_of_isZero pooled (by rwa [he])]
  · have none : key.constant? = none := by
      simpa [isPooled] using immediate
    simp only [LoadPlan.forKey, none]

/-- After a word an extended key is held at the next multiple of eight, and stays there when another
constant is interned. -/
theorem fetches_of_reached_after_word :
    let pool := (ConstantPool.empty.intern ⟨7, .word⟩).2
    let key : Key := .extended 0x10000000000
    let base : Register := ⟨9⟩
    let scratch : Register := ⟨1⟩
    (Reached pool [] ∧ ¬base.isZero ∧ ¬scratch.isZero ∧ base ≠ scratch ∧
      (key.reserve pool).size ≤ modulus 32) ∧
    ∃ o, LoadPlan.forKey key base scratch pool =
        .ok (.atOffset .xword base scratch o, key.reserve pool) ∧
      (LoadPlan.atOffset .xword base scratch o).Fetches ⟨0x10000000000, .xword⟩ o base scratch
        ((key.reserve pool).internAll [⟨8, .word⟩]) := by
  intro pool key base scratch
  have reached : Reached pool [] := .intern _ .empty
  have fresh (c : Constant) : ConstantPool.empty.offset? c = none := by
    simp [offset?, empty]
  have size : pool.size = 4 := by
    rw [size_intern_of_none (fresh _), (intern_of_none (fresh _)).1]
    rfl
  have new : pool.offset? ⟨0x10000000000, .xword⟩ = none := by
    rw [offset?_intern_of_ne (by decide), fresh]
  have small : (key.reserve pool).size ≤ modulus 32 := by
    show (pool.intern _).2.size ≤ _
    rw [size_intern_of_none new, (intern_of_none new).1, size]
    decide
  have hb : ¬base.isZero := by decide
  have hs : ¬scratch.isZero := by decide
  have apart : base ≠ scratch := by decide
  obtain ⟨o, planned, -, -, fetches⟩ := (fetches_of_reached reached key hb hs apart small).1 _ rfl
  exact ⟨⟨reached, hb, hs, apart, small⟩, o, planned, (fetches _).1⟩

end Key

end Multiway
