import Multiway.Pool.Basic
import Mathlib.Order.Basic
import Mathlib.Order.Nat

/-!
# Integrity of the constant pool

The offsets of a pool and its bytes are kept apart, and a pool is sound if they agree: each slot
lies inside the region at a multiple of its width, it holds the bytes of its constant, and no two
slots overlap. Interning keeps a pool sound and extends it.

Rewinding is exact on the pools that a marked one has grown into. So a pool stays sound through any
history in which it is only rewound to marks that are still standing.
-/
namespace Multiway

namespace ConstantPool

/-- Offsets and bytes of a pool agree. -/
structure Sound (p : ConstantPool) : Prop where
  aligned : ∀ {c : Constant} {o : ℕ}, p.offset? c = some o → c.width.bytes ∣ o
  inside : ∀ {c : Constant} {o : ℕ}, p.offset? c = some o → o + c.width.bytes ≤ p.size
  content : ∀ {c : Constant} {o : ℕ}, p.offset? c = some o →
    ∀ i < c.width.bytes, p.bytes[o + i]? = c.bytes[i]?
  apart : ∀ {c c' : Constant} {o o' : ℕ}, p.offset? c = some o → p.offset? c' = some o' → c ≠ c' →
    o + c.width.bytes ≤ o' ∨ o' + c'.width.bytes ≤ o

/-- The second pool has grown out of the first one: what the first one holds is still there, and
what has come since begins beyond it. -/
structure Extends (p q : ConstantPool) : Prop where
  size_le : p.size ≤ q.size
  bytes : ∀ i < p.size, q.bytes[i]? = p.bytes[i]?
  offsets : ∀ {c : Constant} {o : ℕ}, p.offset? c = some o → q.offset? c = some o
  beyond : ∀ {c : Constant} {o : ℕ}, q.offset? c = some o → p.offset? c = some o ∨ p.size ≤ o

theorem sound_empty : Sound empty where
  aligned h := by simp [offset?, empty] at h
  inside h := by simp [offset?, empty] at h
  content h := by simp [offset?, empty] at h
  apart h := by simp [offset?, empty] at h

/-- The offsets of a sound pool lie within its region. -/
theorem Sound.lt_size {p : ConstantPool} (hp : p.Sound) {c : Constant} {o : ℕ}
    (h : p.offset? c = some o) : o < p.size := by
  have := hp.inside h
  have := c.width.bytes_pos
  omega

namespace Extends

theorem refl (p : ConstantPool) : Extends p p :=
  ⟨le_rfl, fun _ _ => rfl, id, Or.inl⟩

theorem trans {p q r : ConstantPool} (hpq : Extends p q) (hqr : Extends q r) : Extends p r where
  size_le := hpq.size_le.trans hqr.size_le
  bytes i hi := (hqr.bytes i (hi.trans_le hpq.size_le)).trans (hpq.bytes i hi)
  offsets h := hqr.offsets (hpq.offsets h)
  beyond h := by
    obtain old | new := hqr.beyond h
    · exact hpq.beyond old
    · exact Or.inr (hpq.size_le.trans new)

/-- Cutting back to the length at a mark gives the marked pool again. -/
theorem rewind_mark {p q : ConstantPool} (hpq : Extends p q)
    (within : ∀ {c : Constant} {o : ℕ}, p.offset? c = some o → o < p.size) :
    q.rewind p.mark = p := by
  have hbytes : q.bytes.take p.size = p.bytes := by
    apply Array.ext_getElem?
    intro i
    by_cases hi : i < p.size
    · have hq : i < q.size := hi.trans_le hpq.size_le
      rw [← hpq.bytes i hi, Array.take_eq_extract, Array.getElem?_extract_of_lt]
      · simp
      · simp only [size] at hi hq ⊢
        omega
    · have short : p.bytes.size ≤ i := Nat.le_of_not_lt hi
      have cut : (q.bytes.take p.size).size ≤ i := by
        simp only [Array.take_eq_extract, Array.size_extract, size]
        omega
      rw [Array.getElem?_eq_none short, Array.getElem?_eq_none cut]
  have hoffsets : (q.offsets.filter fun _ o => o < p.size) = p.offsets := by
    apply Std.ExtHashMap.ext_getElem?
    intro c
    rw [Std.ExtHashMap.getElem?_filter']
    show Option.filter _ (q.offset? c) = p.offset? c
    cases hq : q.offset? c with
    | none =>
      cases hp : p.offset? c with
      | none => rfl
      | some o => simp [hpq.offsets hp] at hq
    | some o =>
      obtain old | new := hpq.beyond hq
      · simp [old, within old]
      · cases hp : p.offset? c with
        | none => simpa using new
        | some o' =>
          have same : o' = o := by simpa [hpq.offsets hp] using hq
          have := within hp
          omega
  show ConstantPool.mk _ _ = p
  rw [show p.mark.size = p.size from rfl, hbytes, hoffsets]

end Extends

theorem offset?_intern_of_ne {p : ConstantPool} {c c' : Constant} (h : c ≠ c') :
    (p.intern c).2.offset? c' = p.offset? c' := by
  cases hc : p.offset? c with
  | some o => rw [intern_of_offset? hc]
  | none =>
    simp only [intern, hc]
    simp [offset?, Std.ExtHashMap.getElem?_insert, h]

/-- A constant of the new pool is the new one or one of the old pool. -/
theorem offset?_intern_cases {p : ConstantPool} {c c' : Constant} {o : ℕ}
    (h : (p.intern c).2.offset? c' = some o) :
    (c' = c ∧ o = (p.intern c).1) ∨ (c' ≠ c ∧ p.offset? c' = some o) := by
  by_cases hne : c = c'
  · subst hne
    rw [offset?_intern] at h
    exact Or.inl ⟨rfl, (Option.some.inj h).symm⟩
  · rw [offset?_intern_of_ne hne] at h
    exact Or.inr ⟨Ne.symm hne, h⟩

/-- A constant that is new to the pool gets the next slot of its width. -/
theorem intern_of_none {p : ConstantPool} {c : Constant} (h : p.offset? c = none) :
    (p.intern c).1 = alignUp p.size c.width.bytes ∧
      (p.intern c).2.bytes =
        p.bytes ++ Array.replicate (alignUp p.size c.width.bytes - p.size) 0 ++
          c.bytes.toArray := by
  simp only [intern, h, true_and]
  apply Array.ext'
  simp

theorem size_intern_of_none {p : ConstantPool} {c : Constant} (h : p.offset? c = none) :
    (p.intern c).2.size = (p.intern c).1 + c.width.bytes := by
  have := le_alignUp p.size c.width.bytes_pos
  obtain ⟨offset_eq, bytes_eq⟩ := intern_of_none h
  rw [offset_eq, size, bytes_eq]
  simp only [Array.size_append, Array.size_replicate, List.size_toArray, Constant.length_bytes]
  simp only [size] at this ⊢
  omega

/-- A constant takes less than two slots of its width, of which one may go into the gap. -/
theorem size_intern_lt (p : ConstantPool) (c : Constant) :
    (p.intern c).2.size < p.size + 2 * c.width.bytes := by
  have positive := c.width.bytes_pos
  cases h : p.offset? c with
  | some o =>
    rw [intern_of_offset? h]
    exact Nat.lt_add_of_pos_right (Nat.mul_pos Nat.two_pos positive)
  | none =>
    have gap := alignUp_lt_add p.size positive
    rw [size_intern_of_none h, (intern_of_none h).1]
    omega

theorem extends_intern (p : ConstantPool) (c : Constant) : Extends p (p.intern c).2 := by
  cases h : p.offset? c with
  | some o =>
    rw [intern_of_offset? h]
    exact Extends.refl p
  | none =>
    have aligned := le_alignUp p.size c.width.bytes_pos
    obtain ⟨offset_eq, bytes_eq⟩ := intern_of_none h
    refine ⟨?_, ?_, ?_, ?_⟩
    · rw [size_intern_of_none h, offset_eq]
      omega
    · intro i hi
      rw [bytes_eq, Array.append_assoc, Array.getElem?_append_left hi]
    · intro c' o h'
      have hne : c ≠ c' := by
        rintro rfl
        simp [h] at h'
      rwa [offset?_intern_of_ne hne]
    · intro c' o h'
      obtain ⟨rfl, rfl⟩ | ⟨-, old⟩ := offset?_intern_cases h'
      · rw [offset_eq]
        exact Or.inr aligned
      · exact Or.inl old

theorem Sound.intern {p : ConstantPool} (hp : p.Sound) (c : Constant) : (p.intern c).2.Sound := by
  cases h : p.offset? c with
  | some o => rwa [intern_of_offset? h]
  | none =>
    have grown := extends_intern p c
    have aligned := le_alignUp p.size c.width.bytes_pos
    have size_eq := size_intern_of_none h
    obtain ⟨offset_eq, bytes_eq⟩ := intern_of_none h
    refine ⟨?_, ?_, ?_, ?_⟩
    · intro c' o h'
      obtain ⟨rfl, rfl⟩ | ⟨-, old⟩ := offset?_intern_cases h'
      · rw [offset_eq]
        exact alignUp_dvd _ _
      · exact hp.aligned old
    · intro c' o h'
      obtain ⟨rfl, rfl⟩ | ⟨-, old⟩ := offset?_intern_cases h'
      · exact size_eq.ge
      · exact (hp.inside old).trans grown.size_le
    · intro c' o h' i hi
      obtain ⟨rfl, rfl⟩ | ⟨-, old⟩ := offset?_intern_cases h'
      · have before : (p.bytes ++ Array.replicate (alignUp p.size c'.width.bytes - p.size)
            (0 : UInt8)).size = alignUp p.size c'.width.bytes := by
          simp only [Array.size_append, Array.size_replicate]
          simp only [size] at aligned ⊢
          omega
        rw [bytes_eq, offset_eq, Array.getElem?_append_right (by omega), before]
        simp
      · have := hp.inside old
        rw [grown.bytes _ (by omega), hp.content old i hi]
    · intro c₁ c₂ o₁ o₂ h₁ h₂ hne
      obtain ⟨rfl, rfl⟩ | ⟨-, old₁⟩ := offset?_intern_cases h₁
      · obtain ⟨rfl, -⟩ | ⟨-, old₂⟩ := offset?_intern_cases h₂
        · exact absurd rfl hne
        · have := hp.inside old₂
          right
          omega
      · obtain ⟨rfl, rfl⟩ | ⟨-, old₂⟩ := offset?_intern_cases h₂
        · have := hp.inside old₁
          left
          omega
        · exact hp.apart old₁ old₂ hne

/-! ## Offsets within the region

This much is left of soundness where a pool is rewound to marks that have fallen. -/

/-- All offsets lie within the region. -/
def Within (p : ConstantPool) : Prop := ∀ c o, p.offset? c = some o → o < p.size

theorem within_empty : Within .empty := by
  intro c o h
  simp [offset?, empty] at h

theorem Within.intern {p : ConstantPool} (h : p.Within) (c : Constant) :
    (p.intern c).2.Within := by
  intro c' o found
  have grown := p.extends_intern c
  obtain ⟨rfl, rfl⟩ | ⟨-, old⟩ := offset?_intern_cases found
  · cases held : p.offset? c' with
    | some o =>
      rw [intern_of_offset? held]
      exact h _ _ held
    | none =>
      have := size_intern_of_none held
      have := c'.width.bytes_pos
      omega
  · exact (h _ _ old).trans_le grown.size_le

theorem Within.rewind {p : ConstantPool} (h : p.Within) (m : Mark) : (p.rewind m).Within := by
  intro c o found
  simp only [offset?, ConstantPool.rewind, Std.ExtHashMap.getElem?_filter',
    Option.filter_eq_some_iff, decide_eq_true_eq] at found
  have := h _ _ found.1
  have size : (p.rewind m).size = min m.size p.size := by
    simp [ConstantPool.rewind, size, Array.take_eq_extract]
  omega

/-! ## Histories -/

/-- A pool that some history leads to, and the marks that are still standing, the latest one first.
A mark falls when the pool is cleared or rewound to an earlier one. -/
inductive Reached : ConstantPool → List Mark → Prop
  | empty : Reached .empty []
  | intern {p : ConstantPool} {marks : List Mark} (c : Constant) :
    Reached p marks → Reached (p.intern c).2 marks
  | clear {p : ConstantPool} {marks : List Mark} : Reached p marks → Reached .empty []
  | mark {p : ConstantPool} {marks : List Mark} : Reached p marks → Reached p (p.mark :: marks)
  | rewind {p : ConstantPool} {later earlier : List Mark} {m : Mark} :
    Reached p (later ++ m :: earlier) → Reached (p.rewind m) (m :: earlier)

/-- Each mark stands for a sound pool that the later ones have grown out of. -/
def Backed (p : ConstantPool) : List Mark → Prop
  | [] => True
  | m :: earlier => ∃ q : ConstantPool, q.Sound ∧ q.mark = m ∧ Extends q p ∧ q.Backed earlier

theorem Backed.of_extends {p q : ConstantPool} {marks : List Mark} (hp : p.Backed marks)
    (hpq : Extends p q) : q.Backed marks := by
  cases marks with
  | nil => trivial
  | cons m earlier =>
    obtain ⟨r, sound, marked, grown, backed⟩ := hp
    exact ⟨r, sound, marked, grown.trans hpq, backed⟩

/-- Whatever stands behind a list of marks stands behind its tails. -/
theorem Backed.tail {p : ConstantPool} {later marks : List Mark} (hp : p.Backed (later ++ marks)) :
    p.Backed marks := by
  induction later generalizing p with
  | nil => exact hp
  | cons m later ih =>
    obtain ⟨q, -, -, grown, backed⟩ := hp
    exact (ih backed).of_extends grown

theorem Reached.sound_and_backed {p : ConstantPool} {marks : List Mark} (h : Reached p marks) :
    p.Sound ∧ p.Backed marks := by
  induction h with
  | empty => exact ⟨sound_empty, trivial⟩
  | intern c _ ih => exact ⟨ih.1.intern c, ih.2.of_extends (extends_intern _ c)⟩
  | clear => exact ⟨sound_empty, trivial⟩
  | mark _ ih => exact ⟨ih.1, _, ih.1, rfl, Extends.refl _, ih.2⟩
  | rewind _ ih =>
    obtain ⟨q, sound, rfl, grown, backed⟩ := ih.2.tail
    rw [grown.rewind_mark sound.lt_size]
    exact ⟨sound, q, sound, rfl, Extends.refl q, backed⟩

/-- Offsets and bytes agree after every history. -/
theorem Reached.sound {p : ConstantPool} {marks : List Mark} (h : Reached p marks) : p.Sound :=
  h.sound_and_backed.1

end ConstantPool

end Multiway
