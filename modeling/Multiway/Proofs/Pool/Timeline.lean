import Multiway.Number.Modulus
import Multiway.Proofs.Pool.Integrity
import Mathlib.Tactic.Common

/-!
# The timeline of a constant pool

A pool is filled, cleared, marked and rewound in any order. A mark is nothing but a length, so
rewinding has to be right without a copy of the marked pool. A timeline keeps these copies beside
the pool, for as long as their marks are standing, and rewinding is right if it gives the copy back.

The invariant is that each standing pool has grown into the next later one. Offsets that were there
at a mark therefore never move, and those that came later lie beyond the marked length.
-/
namespace Multiway

/-- The number that some bytes are, the most significant one first. -/
def bigEndian (bs : List UInt8) : ℕ := bs.foldl (fun n b => 256 * n + b.toNat) 0

theorem bigEndian_cons (b : UInt8) (bs : List UInt8) :
    bigEndian (b :: bs) = b.toNat * modulus (8 * bs.length) + bigEndian bs := by
  -- a number in front of the bytes is moved up by one byte for each of them
  have shifted (n : ℕ) : bs.foldl (fun n b => 256 * n + b.toNat) n =
      n * modulus (8 * bs.length) + bigEndian bs := by
    unfold bigEndian
    induction bs generalizing n with
    | nil => simp [modulus]
    | cons b bs ih =>
      have longer : modulus (8 * (b :: bs).length) = 256 * modulus (8 * bs.length) := by
        rw [List.length_cons, Nat.mul_add, modulus_add, Nat.mul_comm]
        rfl
      rw [List.foldl_cons, List.foldl_cons, ih (256 * n + b.toNat), ih (256 * 0 + b.toNat), longer,
        Nat.add_mul, Nat.mul_zero, Nat.zero_add, Nat.mul_comm 256 n, Nat.mul_assoc, Nat.add_assoc]
  rw [← shifted, bigEndian, List.foldl_cons, Nat.mul_zero, Nat.zero_add]

/-- The bytes of a constant are its pattern, cut to the width of the constant. -/
theorem Constant.bigEndian_bytes (c : Constant) :
    bigEndian c.bytes = c.bits.toNat % modulus c.width.bits := by
  have low (v n : ℕ) : bigEndian ((List.range n).reverse.map fun place =>
      UInt8.ofNat (v >>> (8 * place))) = v % modulus (8 * n) := by
    induction n with
    | zero => simp [bigEndian, modulus, Nat.mod_one]
    | succ n ih =>
      have high : (UInt8.ofNat (v >>> (8 * n))).toNat = v / modulus (8 * n) % 256 := by
        rw [Nat.shiftRight_eq_div_pow, modulus_eq]
        simp
      have longer : modulus (8 * (n + 1)) = modulus (8 * n) * 256 := by
        rw [Nat.mul_add, modulus_add]
        rfl
      simp only [List.range_succ, List.reverse_append, List.reverse_singleton,
        List.singleton_append, List.map_cons, bigEndian_cons, ih, high, List.length_map,
        List.length_reverse, List.length_range]
      rw [longer, Nat.mod_mul, Nat.mul_comm, Nat.add_comm]
  exact low _ _

namespace ConstantPool

/-- The bytes from an offset on, as many as a width has. -/
def slot (p : ConstantPool) (o : ℕ) (w : Width) : List UInt8 := (p.bytes.toList.drop o).take w.bytes

theorem Sound.slot {p : ConstantPool} (hp : p.Sound) {c : Constant} {o : ℕ}
    (h : p.offset? c = some o) : p.slot o c.width = c.bytes := by
  apply List.ext_getElem?
  intro i
  rw [ConstantPool.slot, List.getElem?_take]
  split_ifs with inside
  · rw [List.getElem?_drop, Array.getElem?_toList]
    exact hp.content h i inside
  · rw [List.getElem?_eq_none]
    rw [Constant.length_bytes]
    omega

/-- What may be done with a pool. -/
inductive Action where
  | intern (c : Constant)
  | clear
  | mark
  /-- Rewinds to the `n`th of the marks that are still standing, the latest one being the first. -/
  | rewind (n : ℕ)

/-- A pool, and the pools that it was at the marks that are still standing, the latest one first.
A mark falls when the pool is cleared or rewound to an earlier one. -/
structure Timeline where
  pool : ConstantPool := .empty
  standing : List ConstantPool := []

namespace Timeline

/-- The timeline after an action. Nothing is rewound to a mark that is not there. -/
def act (t : Timeline) : Action → Timeline
  | .intern c => { t with pool := (t.pool.intern c).2 }
  | .clear => {}
  | .mark => { t with standing := t.pool :: t.standing }
  | .rewind n =>
    match t.standing[n]? with
    | none => t
    | some q => { pool := t.pool.rewind q.mark, standing := t.standing.drop n }

def run (t : Timeline) (actions : List Action) : Timeline := actions.foldl act t

/-- Offsets and bytes agree in all pools of the timeline, and each has grown into the later ones. -/
structure Intact (t : Timeline) : Prop where
  sound : ∀ p ∈ t.pool :: t.standing, p.Sound
  grown : (t.pool :: t.standing).Pairwise fun later earlier => Extends earlier later

variable {t : Timeline}

theorem intact_start : Intact {} where
  sound p mem := by
    obtain rfl := List.mem_singleton.1 mem
    exact sound_empty
  grown := List.pairwise_singleton _ _

theorem Intact.extends (h : t.Intact) {q : ConstantPool} (mem : q ∈ t.standing) :
    Extends q t.pool :=
  (List.pairwise_cons.1 h.grown).1 q mem

/-- Rewinding gives back the pool at the mark. -/
theorem Intact.rewind_mark (h : t.Intact) {q : ConstantPool} (mem : q ∈ t.standing) :
    t.pool.rewind q.mark = q :=
  (h.extends mem).rewind_mark (h.sound q (List.mem_cons_of_mem _ mem)).lt_size

theorem Intact.act (h : t.Intact) (a : Action) : (t.act a).Intact := by
  cases a with
  | intern c =>
    obtain ⟨grown, standing⟩ := List.pairwise_cons.1 h.grown
    refine ⟨?_, List.pairwise_cons.2 ⟨?_, standing⟩⟩
    · intro p mem
      obtain rfl | mem := List.mem_cons.1 mem
      · exact (h.sound _ List.mem_cons_self).intern c
      · exact h.sound p (List.mem_cons_of_mem _ mem)
    · exact fun q mem => (grown q mem).trans (extends_intern _ c)
  | clear => exact intact_start
  | mark =>
    refine ⟨?_, List.pairwise_cons.2 ⟨?_, h.grown⟩⟩
    · intro p mem
      obtain rfl | mem := List.mem_cons.1 mem
      · exact h.sound _ List.mem_cons_self
      · exact h.sound p mem
    · intro q mem
      obtain rfl | mem := List.mem_cons.1 mem
      · exact Extends.refl _
      · exact h.extends mem
  | rewind n =>
    simp only [Timeline.act]
    cases found : t.standing[n]? with
    | none => exact h
    | some q =>
      obtain ⟨inside, rfl⟩ := List.getElem?_eq_some_iff.1 found
      have left : t.standing.drop n = t.standing[n] :: t.standing.drop (n + 1) :=
        List.drop_eq_getElem_cons inside
      have grown := (List.pairwise_cons.1 h.grown).2.sublist (List.drop_sublist n t.standing)
      simp only [h.rewind_mark (List.getElem_mem inside)]
      refine ⟨?_, List.pairwise_cons.2 ⟨?_, grown⟩⟩
      · intro p mem
        have old : p ∈ t.standing := by
          obtain rfl | mem := List.mem_cons.1 mem
          · exact List.getElem_mem inside
          · exact List.mem_of_mem_drop mem
        exact h.sound p (List.mem_cons_of_mem _ old)
      · intro p mem
        rw [left] at mem grown
        obtain rfl | mem := List.mem_cons.1 mem
        · exact Extends.refl _
        · exact (List.pairwise_cons.1 grown).1 p mem

theorem Intact.run (h : t.Intact) (actions : List Action) : (t.run actions).Intact := by
  induction actions generalizing t with
  | nil => exact h
  | cons a actions ih => exact ih (h.act a)

/-! ## What stays where it is -/

/-- An action spares an offset if it neither clears the pool nor cuts the offset off. -/
def Spares (t : Timeline) (o : ℕ) : Action → Prop
  | .intern _ => True
  | .clear => False
  | .mark => True
  | .rewind n => ∀ q ∈ t.standing[n]?, o < q.size

/-- Each action spares an offset where it is taken. -/
def SparesAll (o : ℕ) : Timeline → List Action → Prop
  | _, [] => True
  | t, a :: actions => t.Spares o a ∧ SparesAll o (t.act a) actions

/-- A constant keeps its offset as long as the offset is spared. -/
theorem Intact.offset?_act (h : t.Intact) {c : Constant} {o : ℕ} (held : t.pool.offset? c = some o)
    {a : Action} (spared : t.Spares o a) : (t.act a).pool.offset? c = some o := by
  cases a with
  | intern c' => exact (extends_intern t.pool c').offsets held
  | clear => contradiction
  | mark => exact held
  | rewind n =>
    simp only [Timeline.act]
    cases found : t.standing[n]? with
    | none => exact held
    | some q =>
      have mem := List.mem_of_getElem? found
      have within : o < q.size := spared q found
      simp only [h.rewind_mark mem]
      obtain old | beyond := (h.extends mem).beyond held
      · exact old
      · omega

theorem Intact.offset?_run (h : t.Intact) {c : Constant} {o : ℕ} (held : t.pool.offset? c = some o)
    {actions : List Action} (spared : t.SparesAll o actions) :
    (t.run actions).pool.offset? c = some o := by
  induction actions generalizing t with
  | nil => exact held
  | cons a actions ih => exact ih (h.act a) (h.offset?_act held spared.1) spared.2

end Timeline

/-- After any actions, offsets and bytes of a pool agree; each slot holds the pattern of its
constant, which is found there again. An offset once returned stays good until it is cleared or cut
off, and rewinding restores what was marked: a constant that was not there gets a slot of its own
beyond the mark. -/
theorem integrity_of_run (actions : List Action) :
    let t := Timeline.run {} actions
    t.pool.Sound ∧
      (∀ c o, t.pool.offset? c = some o →
        bigEndian (t.pool.slot o c.width) = c.bits.toNat % modulus c.width.bits ∧
          (t.pool.slot o c.width).length = c.width.bytes ∧ t.pool.intern c = (o, t.pool)) ∧
      (∀ c later, let o := (t.pool.intern c).1
        let u := t.act (.intern c)
        u.SparesAll o later →
          (u.run later).pool.offset? c = some o ∧
            (u.run later).pool.slot o c.width = u.pool.slot o c.width) ∧
      ∀ n q, t.standing[n]? = some q →
        (t.act (.rewind n)).pool = q ∧
          ∀ c, q.offset? c = none →
            ((t.act (.rewind n)).pool.intern c).1 = alignUp q.size c.width.bytes := by
  intro t
  have intact : t.Intact := Timeline.intact_start.run actions
  have sound := intact.sound t.pool List.mem_cons_self
  refine ⟨sound, ?_, ?_, ?_⟩
  · intro c o held
    rw [sound.slot held, Constant.bigEndian_bytes, Constant.length_bytes]
    exact ⟨rfl, rfl, intern_of_offset? held⟩
  · intro c later o u spared
    have returned : u.pool.offset? c = some o := offset?_intern t.pool c
    have after : u.Intact := intact.act (.intern c)
    have kept := after.offset?_run returned spared
    refine ⟨kept, ?_⟩
    rw [((after.run later).sound _ List.mem_cons_self).slot kept,
      (after.sound _ List.mem_cons_self).slot returned]
  · intro n q found
    have marked : (t.act (.rewind n)).pool = q := by
      simp only [Timeline.act, found]
      exact intact.rewind_mark (List.mem_of_getElem? found)
    refine ⟨marked, fun c new => ?_⟩
    rw [marked]
    exact (intern_of_none new).1

/-- A word stays at the start of the region, and a constant that is cut off gets its slot anew. -/
theorem integrity_of_run_rewound :
    let p := (ConstantPool.empty.intern ⟨1, .word⟩).2
    let u := Timeline.act {} (.intern ⟨1, .word⟩)
    let later := [Action.mark, .intern ⟨2, .xword⟩]
    let t := u.run later
    (u.SparesAll 0 later ∧ t.pool.offset? ⟨1, .word⟩ = some 0) ∧
      t.standing[0]? = some p ∧ p.offset? ⟨2, .xword⟩ = none ∧ (t.act (.rewind 0)).pool = p ∧
      ((t.act (.rewind 0)).pool.intern ⟨2, .xword⟩).1 = 8 := by
  intro p u later t
  have fresh (c : Constant) : ConstantPool.empty.offset? c = none := by
    simp [offset?, empty]
  have start : (ConstantPool.empty.intern ⟨1, .word⟩).1 = 0 := (intern_of_none (fresh _)).1
  have size : p.size = 4 := by
    rw [size_intern_of_none (fresh _), start]
    rfl
  have new : p.offset? ⟨2, .xword⟩ = none := by
    rw [offset?_intern_of_ne (by decide), fresh]
  have spared : u.SparesAll 0 later := ⟨trivial, trivial, trivial⟩
  have kept := (integrity_of_run []).2.2.1 ⟨1, .word⟩ later
  have rewound := (integrity_of_run (.intern ⟨1, .word⟩ :: later)).2.2.2 0 p rfl
  rw [show (Timeline.run {} []).pool = .empty from rfl, start] at kept
  have offset := rewound.2 ⟨2, .xword⟩ new
  rw [size] at offset
  exact ⟨⟨spared, (kept spared).1⟩, rfl, new, rewound.1, offset⟩

end ConstantPool

end Multiway
