import Multiway.Proofs.Assembly.Encoding
import Multiway.Proofs.Assembly.Layout
import Multiway.Proofs.Draft.Integrity
import Multiway.Proofs.Pool.Timeline

/-!
# Faults that layout finds

A branch is at fault if its label has no position, or if its distance field cannot hold the number
of instructions to that position. Positions are multiples of the size of an instruction, so this
number is exact. Layout stops at the first fault and reports it. If there is none, each word stands
in the bytes at the position of its instruction.

Distances are signed numbers of 64 bits. In a buffer below half of all positions, as it is in any
memory, a distance is the difference of the two positions itself.
-/
namespace Multiway

/-! ## Distances between positions -/

/-- The distance between the positions of instructions is a number of instructions. -/
theorem exists_distance_eq_mul {source target : ℕ} (hs : instructionBytes ∣ source)
    (ht : instructionBytes ∣ target) :
    ∃ k : Int, distance source target = k * instructionBytes := by
  obtain ⟨a, rfl⟩ := hs
  obtain ⟨b, rfl⟩ := ht
  -- reduction takes away a multiple of `2 ^ 64` bytes, which is a number of instructions itself
  let difference : Int := (instructionBytes * b : ℕ) - (instructionBytes * a : ℕ)
  let turns := difference.bdiv (modulus 64)
  have whole : modulus 64 = instructionBytes * modulus 62 := rfl
  refine ⟨b - a - modulus 62 * turns, ?_⟩
  rw [distance, signed64, Int.bmod_eq_self_sub_mul_bdiv]
  change _ - (modulus 64 : Int) * turns = _
  rw [whole]
  push_cast
  rw [Int.mul_comm _ (instructionBytes : Int), Int.mul_sub, Int.mul_sub, Int.mul_assoc]

/-! ## Bytes of words -/

theorem Word.bigEndian_bytes (w : Word) : bigEndian w.bytes = w.toNat := by
  have bound : w.toNat < 2 ^ 32 := w.isLt
  simp only [bytes, bigEndian, List.map_cons, List.map_nil, List.foldl_cons, List.foldl_nil,
    UInt8.toNat_ofNat', Nat.shiftRight_eq_div_pow]
  omega

/-- The bytes of words have those of each word at the word's own place. -/
theorem take_drop_flatMap_bytes {ws : List Word} {n : ℕ} {w : Word} (found : ws[n]? = some w) :
    ((ws.flatMap Word.bytes).drop (n * instructionBytes)).take instructionBytes = w.bytes := by
  induction ws generalizing n with
  | nil => contradiction
  | cons v ws ih =>
    rw [List.flatMap_cons]
    cases n with
    | zero =>
      cases found
      rw [Nat.zero_mul, List.drop_zero, List.take_left' (Word.length_bytes _)]
    | succ n =>
      have past : (n + 1) * instructionBytes = v.bytes.length + n * instructionBytes := by
        rw [Word.length_bytes, Nat.succ_mul, Nat.add_comm]
      rw [past, List.drop_length_add_append]
      exact ih found

theorem length_flatMap_bytes (ws : List Word) :
    (ws.flatMap Word.bytes).length = ws.length * instructionBytes := by
  induction ws with
  | nil => rfl
  | cons w ws ih =>
    rw [List.flatMap_cons, List.length_append, ih, Word.length_bytes, List.length_cons,
      Nat.succ_mul, Nat.add_comm]

namespace Instruction

variable {x : Instruction} {position : ℕ} {resolve : Label → Option ℕ} {e : Error}

/-- An instruction cannot be encoded if its target has no position or is out of reach. -/
theorem encode_eq_error_iff :
    x.encode position resolve = .error e ↔ ∃ l, x.target? = some l ∧
      (resolve l = none ∧ e = .neverBound l ∨ ∃ p, resolve l = some p ∧
        ¬FitsSigned x.reachBits (inInstructions (distance position p)) ∧
          e = .outOfReach position l (distance position p)) := by
  have branches {bits : ℕ} {f : BitVec bits → Word} (target : Label) :
      (branchField bits position target resolve).map f = .error e ↔
        resolve target = none ∧ e = .neverBound target ∨ ∃ p, resolve target = some p ∧
          ¬FitsSigned bits (inInstructions (distance position p)) ∧
            e = .outOfReach position target (distance position p) := by
    unfold branchField
    cases resolved : resolve target with
    | none => simp [Except.map, eq_comm]
    | some p =>
      simp only
      split_ifs with fits
      · simp [Except.map, fits]
      · simp [Except.map, fits, eq_comm]
  cases x with
  | branch codes test annul predictTaken target =>
    simp only [target?, Option.some.injEq, exists_eq_left']
    exact branches target
  | fused test codes left right target =>
    simp only [target?, Option.some.injEq, exists_eq_left']
    exact branches target
  | _ => simp [encode, target?]

end Instruction

namespace CodeBuffer

variable {b : CodeBuffer} {n : ℕ} {e : Error}

/-- A label is bound, some number of instructions away from the instruction of an index. -/
def Away (b : CodeBuffer) (n : ℕ) (l : Label) (k : Int) : Prop :=
  ∃ p, b.position? l = some p ∧ distance (n * instructionBytes) p = k * instructionBytes

/-- If there is a branch at this index, it goes to a bound label in reach of its encoding. -/
def Reaches (b : CodeBuffer) (n : ℕ) : Prop :=
  ∀ x l, b.code[n]? = some x → x.target? = some l →
    ∃ k, b.Away n l k ∧ FitsSigned x.reachBits k

/-- What is to be reported about the branch at an index. -/
inductive Fault (b : CodeBuffer) (n : ℕ) : Error → Prop
  | neverBound {x : Instruction} {l : Label} : b.code[n]? = some x → x.target? = some l →
    b.position? l = none → Fault b n (.neverBound l)
  | outOfReach {x : Instruction} {l : Label} {k : Int} : b.code[n]? = some x →
    x.target? = some l → b.Away n l k → ¬FitsSigned x.reachBits k →
    Fault b n (.outOfReach (n * instructionBytes) l (k * instructionBytes))

theorem Away.unique {l : Label} {j k : Int} (hj : b.Away n l j) (hk : b.Away n l k) : j = k := by
  obtain ⟨p, bound, away⟩ := hj
  obtain ⟨q, bound', away'⟩ := hk
  obtain rfl : p = q := Option.some.inj (bound.symm.trans bound')
  rw [away] at away'
  simp only [instructionBytes] at away'
  omega

/-- A label that is bound is a whole number of instructions away. -/
theorem Sound.exists_away (h : b.Sound) (n : ℕ) {l : Label} {p : ℕ}
    (bound : b.position? l = some p) : ∃ k, b.Away n l k := by
  obtain ⟨k, away⟩ := exists_distance_eq_mul (Nat.dvd_mul_left _ n) (h.placed bound).1
  exact ⟨k, p, bound, away⟩

/-- Where a buffer stays below half of all positions, labels are as far away as their positions. -/
theorem Sound.away_iff (h : b.Sound) (small : b.code.size < modulus 61) (inside : n < b.code.size)
    {l : Label} {k : Int} : b.Away n l k ↔
      ∃ p, b.position? l = some p ∧ (p : Int) = (n + k) * instructionBytes := by
  have difference {p : ℕ} (bound : b.position? l = some p) :
      distance (n * instructionBytes) p = (p : Int) - (n * instructionBytes : ℕ) := by
    have whole : modulus 63 = 4 * modulus 61 := rfl
    have within : p ≤ b.code.size * instructionBytes := (h.placed bound).2
    simp only [instructionBytes] at within ⊢
    exact distance_eq_sub (by omega) (by omega)
  constructor
  · rintro ⟨p, bound, away⟩
    rw [difference bound] at away
    simp only [instructionBytes] at away ⊢
    exact ⟨p, bound, by omega⟩
  · rintro ⟨p, bound, away⟩
    refine ⟨p, bound, ?_⟩
    rw [difference bound]
    simp only [instructionBytes] at away ⊢
    omega

/-- A fault is what encoding reports. -/
theorem Sound.fault_iff (h : b.Sound) : b.Fault n e ↔ ∃ x, b.code[n]? = some x ∧
    x.encode (n * instructionBytes) b.position? = .error e := by
  simp only [Instruction.encode_eq_error_iff]
  constructor
  · rintro (⟨here, target, unbound⟩ | ⟨here, target, ⟨p, bound, away⟩, wide⟩)
    · exact ⟨_, here, _, target, Or.inl ⟨unbound, rfl⟩⟩
    · refine ⟨_, here, _, target, Or.inr ⟨p, bound, ?_, by rw [away]⟩⟩
      rwa [away, inInstructions_mul]
  · rintro ⟨x, here, l, target, ⟨unbound, rfl⟩ | ⟨p, bound, wide, rfl⟩⟩
    · exact .neverBound here target unbound
    · obtain ⟨k, away⟩ := exists_distance_eq_mul (Nat.dvd_mul_left _ n) (h.placed bound).1
      rw [away] at wide ⊢
      rw [inInstructions_mul] at wide
      exact .outOfReach here target ⟨p, bound, away⟩ wide

/-- A branch reaches its target or there is something to be reported about it. -/
theorem Sound.reaches_iff (h : b.Sound) : b.Reaches n ↔ ∀ e, ¬b.Fault n e := by
  constructor
  · rintro reaches e (⟨here, target, unbound⟩ | ⟨here, target, away, wide⟩)
    · obtain ⟨k, ⟨p, bound, -⟩, -⟩ := reaches _ _ here target
      rw [unbound] at bound
      contradiction
    · obtain ⟨k, away', fits⟩ := reaches _ _ here target
      rw [away.unique away'] at wide
      exact wide fits
  · intro none x l here target
    cases bound : b.position? l with
    | none => exact absurd (.neverBound here target bound) (none _)
    | some p =>
      obtain ⟨k, away⟩ := h.exists_away n bound
      refine ⟨k, away, ?_⟩
      by_contra wide
      exact none _ (.outOfReach here target away wide)

/-- An instruction is encoded if it is no branch or reaches its target. -/
theorem Sound.encodes_iff (h : b.Sound) : b.Reaches n ↔ ∀ x : Instruction, b.code[n]? = some x →
    ∃ w, x.encode (n * instructionBytes) b.position? = .ok w := by
  rw [h.reaches_iff]
  simp only [h.fault_iff]
  constructor
  · intro none x here
    cases encoded : x.encode (n * instructionBytes) b.position? with
    | ok w => exact ⟨w, rfl⟩
    | error e => exact absurd ⟨x, here, encoded⟩ (none e)
  · rintro encodes e ⟨x, here, failed⟩
    obtain ⟨w, encoded⟩ := encodes x here
    rw [encoded] at failed
    contradiction

/-- Layout reports the first fault. -/
theorem Sound.layOut_eq_error_iff (h : b.Sound) :
    b.layOut = .error e ↔ ∃ n, b.Fault n e ∧ ∀ m < n, b.Reaches m := by
  rw [CodeBuffer.layOut_eq_error_iff]
  simp only [h.fault_iff, h.encodes_iff]
  constructor
  · rintro ⟨n, x, here, failed, before⟩
    exact ⟨n, ⟨x, here, failed⟩, before⟩
  · rintro ⟨n, ⟨x, here, failed⟩, before⟩
    exact ⟨n, x, here, failed, before⟩

/-- Each word stands in the bytes at the position of its instruction. -/
theorem words_of_layOut {bytes : List UInt8} (laid : b.layOut = .ok bytes) :
    bytes.length = b.code.size * instructionBytes ∧ ∀ n (x : Instruction), b.code[n]? = some x →
      ∃ w, x.encode (n * instructionBytes) b.position? = .ok w ∧
        bigEndian ((bytes.drop (n * instructionBytes)).take instructionBytes) = w.toNat := by
  obtain ⟨ws, words, rfl⟩ : ∃ ws, b.words = .ok ws ∧ ws.flatMap Word.bytes = bytes := by
    unfold layOut at laid
    cases words : b.words with
    | error e => simp [words, Except.map] at laid
    | ok ws =>
      simp only [words, Except.map, Except.ok.injEq] at laid
      exact ⟨ws, rfl, laid⟩
  obtain ⟨length, results⟩ := getElem?_of_mapM_eq_ok words
  have size : ws.length = b.code.size := by rw [length, List.length_zipIdx, Array.length_toList]
  refine ⟨by rw [length_flatMap_bytes, size], fun n x here => ?_⟩
  obtain ⟨w, found, encoded⟩ := results n (x, n) (getElem?_zipIdx_code.2 ⟨here, rfl⟩)
  exact ⟨w, encoded, by rw [take_drop_flatMap_bytes found, Word.bigEndian_bytes]⟩

/-- Code is laid out if every branch in it reaches its target. -/
theorem Sound.exists_layOut_iff (h : b.Sound) :
    (∃ bytes, b.layOut = .ok bytes) ↔ ∀ n, b.Reaches n := by
  constructor
  · rintro ⟨bytes, laid⟩ n
    rw [h.encodes_iff]
    intro x here
    obtain ⟨w, encoded, -⟩ := (words_of_layOut laid).2 n x here
    exact ⟨w, encoded⟩
  · intro reaches
    cases laid : b.layOut with
    | ok bytes => exact ⟨bytes, rfl⟩
    | error e =>
      obtain ⟨n, fault, -⟩ := h.layOut_eq_error_iff.1 laid
      exact absurd fault (h.reaches_iff.1 (reaches n) e)

/-- After every history, layout succeeds if all branches reach their targets, and then it gives the
words of the instructions in order. Otherwise it reports the first fault. Labels that were never
made have no position, and below half of all positions distances are exact. -/
theorem layOut_reports_first_fault {standing : List CodeBuffer} (reached : Reached b standing) :
    ((∃ bytes, b.layOut = .ok bytes) ↔ ∀ n, b.Reaches n) ∧
      (∀ bytes, b.layOut = .ok bytes →
        bytes.length = b.code.size * instructionBytes ∧ ∀ n (x : Instruction), b.code[n]? = some x →
          ∃ w, x.encode (n * instructionBytes) b.position? = .ok w ∧
            bigEndian ((bytes.drop (n * instructionBytes)).take instructionBytes) = w.toNat) ∧
      (∀ e, b.layOut = .error e ↔ ∃ n, b.Fault n e ∧ ∀ m < n, b.Reaches m) ∧
      (∀ l : Label, b.labelCount ≤ l.index → b.position? l = none) ∧
      (b.code.size < modulus 61 → ∀ n < b.code.size, ∀ l k, b.Away n l k ↔
        ∃ p, b.position? l = some p ∧ (p : Int) = (n + k) * instructionBytes) := by
  have sound := reached.sound_and_backed.1
  refine ⟨sound.exists_layOut_iff, fun bytes laid => words_of_layOut laid,
    fun e => sound.layOut_eq_error_iff, fun l outside => ?_,
    fun small n inside l k => sound.away_iff small inside⟩
  cases bound : b.position? l with
  | none => rfl
  | some p => exact absurd (index_lt_of_position? bound) (Nat.not_lt.2 outside)

/-- A fused branch back to the start is in reach, and then a jump goes to a label that was never
made. -/
theorem layOut_reports_jump_after_loop :
    let start := (empty.act .newLabel).act (.bind ⟨0⟩)
    let loop := (start.act (.append .nop)).act
      (.appendFused .equal .xcc .zero (.reg .zero) ⟨0⟩)
    let b := loop.act (.appendJump ⟨1⟩)
    Reached b [] ∧ b.layOut = .error (.neverBound ⟨1⟩) := by
  intro start loop b
  have reached : Reached b [] :=
    .act _ (.act _ (.act _ (.act (.bind ⟨0⟩) (.act .newLabel .empty))))
  refine ⟨reached, ((layOut_reports_first_fault reached).2.2.1 _).2 ⟨2, ?_, fun m before => ?_⟩⟩
  · exact .neverBound rfl rfl rfl
  · intro x l here target
    obtain rfl | rfl : m = 0 ∨ m = 1 := by omega
    · cases here
      contradiction
    · cases here
      cases target
      exact ⟨-1, ⟨0, rfl, by decide⟩, by decide⟩

end CodeBuffer

end Multiway
