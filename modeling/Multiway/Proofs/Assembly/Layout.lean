import Multiway.Lowering.Draft
import Mathlib.Tactic.Common

/-!
# Where layout stops

Laying code out stops at the first instruction that cannot be encoded. This is a branch whose label
has no position, or whose distance does not fit its field.
-/
namespace Multiway

/-- A list is processed up to the first element that fails. -/
theorem mapM_eq_error_iff {α β ε : Type} {f : α → Except ε β} {xs : List α} {e : ε} :
    xs.mapM f = .error e ↔ ∃ (k : ℕ) (x : α), xs[k]? = some x ∧ f x = .error e ∧
      ∀ j < k, ∀ y, xs[j]? = some y → ∃ b, f y = .ok b := by
  induction xs with
  | nil => simp [pure, Except.pure]
  | cons x xs ih =>
    rw [List.mapM_cons]
    cases head : f x with
    | error e' =>
      simp only [bind, Except.bind, Except.error.injEq]
      constructor
      · rintro rfl
        exact ⟨0, x, rfl, head, fun j hj => absurd hj (Nat.not_lt_zero j)⟩
      · rintro ⟨k, y, found, failed, before⟩
        cases k with
        | zero =>
          cases found
          rw [head] at failed
          exact Except.error.inj failed
        | succ k =>
          obtain ⟨b, ok⟩ := before 0 (Nat.succ_pos k) x rfl
          rw [head] at ok
          contradiction
    | ok b =>
      have rest : (do let bs ← xs.mapM f; pure (b :: bs)) = .error e ↔
          xs.mapM f = .error e := by
        cases xs.mapM f <;> simp [bind, Except.bind, pure, Except.pure]
      show (do let bs ← xs.mapM f; pure (b :: bs)) = .error e ↔ _
      rw [rest, ih]
      constructor
      · rintro ⟨k, y, found, failed, before⟩
        refine ⟨k + 1, y, found, failed, fun j hj z here => ?_⟩
        cases j with
        | zero =>
          cases here
          exact ⟨b, head⟩
        | succ j => exact before j (Nat.lt_of_succ_lt_succ hj) z here
      · rintro ⟨k, y, found, failed, before⟩
        cases k with
        | zero =>
          cases found
          rw [head] at failed
          contradiction
        | succ k => exact ⟨k, y, found, failed, fun j hj => before (j + 1) (Nat.succ_lt_succ hj)⟩

/-- Where all elements of a list are processed, each has its own result. -/
theorem getElem?_of_mapM_eq_ok {α β ε : Type} {f : α → Except ε β} {xs : List α} {ys : List β}
    (h : xs.mapM f = .ok ys) : ys.length = xs.length ∧
      ∀ (k : ℕ) (x : α), xs[k]? = some x → ∃ y, ys[k]? = some y ∧ f x = .ok y := by
  induction xs generalizing ys with
  | nil =>
    cases h
    simp
  | cons x xs ih =>
    rw [List.mapM_cons] at h
    cases head : f x with
    | error e => simp [head, bind, Except.bind] at h
    | ok y =>
      cases rest : xs.mapM f with
      | error e => simp [head, rest, bind, Except.bind] at h
      | ok zs =>
        simp only [head, rest, bind, Except.bind, pure, Except.pure, Except.ok.injEq] at h
        subst h
        obtain ⟨length, results⟩ := ih rest
        refine ⟨by simp [length], fun k z found => ?_⟩
        cases k with
        | zero =>
          cases found
          exact ⟨y, rfl, head⟩
        | succ k => exact results k z found

namespace CodeBuffer

variable {b : CodeBuffer}

/-- The instructions with their indices. -/
theorem getElem?_zipIdx_code {k : ℕ} {x : Instruction × ℕ} :
    b.code.toList.zipIdx[k]? = some x ↔ b.code[k]? = some x.1 ∧ x.2 = k := by
  obtain ⟨i, n⟩ := x
  rw [List.getElem?_zipIdx, Array.getElem?_toList, Option.map_eq_some_iff]
  constructor
  · rintro ⟨i', found, same⟩
    cases same
    exact ⟨found, Nat.zero_add k⟩
  · rintro ⟨found, rfl⟩
    exact ⟨i, found, by rw [Nat.zero_add]⟩

/-- Layout fails as the first instruction does that cannot be encoded. -/
theorem layOut_eq_error_iff {e : Error} :
    b.layOut = .error e ↔ ∃ (k : ℕ) (x : Instruction), b.code[k]? = some x ∧
      x.encode (k * instructionBytes) b.position? = .error e ∧
        ∀ j < k, ∀ y : Instruction, b.code[j]? = some y →
          ∃ w, y.encode (j * instructionBytes) b.position? = .ok w := by
  have words : b.layOut = .error e ↔ b.words = .error e := by
    unfold layOut
    cases b.words <;> simp [Except.map]
  rw [words, CodeBuffer.words, mapM_eq_error_iff]
  constructor
  · rintro ⟨k, ⟨x, n⟩, found, failed, before⟩
    obtain ⟨found, rfl⟩ := getElem?_zipIdx_code.1 found
    refine ⟨n, x, found, failed, fun j hj y here => ?_⟩
    exact before j hj (y, j) (getElem?_zipIdx_code.2 ⟨here, rfl⟩)
  · rintro ⟨k, x, found, failed, before⟩
    refine ⟨k, (x, k), getElem?_zipIdx_code.2 ⟨found, rfl⟩, failed, fun j hj y here => ?_⟩
    obtain ⟨found, index⟩ := getElem?_zipIdx_code.1 here
    have encodes := before j hj y.1 found
    rwa [← index] at encodes

end CodeBuffer

namespace Draft

/-- The instruction of an index, if there is one, can be encoded. -/
def Encodes (d : Draft) (k : ℕ) : Prop :=
  ∀ x, d.code.code[k]? = some x → ∃ w, x.encode (k * instructionBytes) d.code.position? = .ok w

/-- A draft cannot be finished if its code cannot be laid out. -/
theorem finish_eq_error_iff {d : Draft} {e : Error} :
    d.finish = .error e ↔ ∃ k x, d.code.code[k]? = some x ∧
      x.encode (k * instructionBytes) d.code.position? = .error e ∧ ∀ j < k, d.Encodes j := by
  have layout : d.finish = .error e ↔ d.code.layOut = .error e := by
    unfold finish
    cases d.code.layOut <;> simp [Except.map]
  exact layout.trans CodeBuffer.layOut_eq_error_iff

end Draft

namespace Instruction

variable {x : Instruction} {position : ℕ} {resolve : Label → Option ℕ}

/-- A branch that is out of reach tells its own position and target. -/
theorem map_branchField_eq_outOfReach {bits : ℕ} {f : BitVec bits → Word} {target l : Label} {p : ℕ}
    {d : Int} (h : (branchField bits position target resolve).map f = .error (.outOfReach p l d)) :
    p = position ∧ l = target ∧ ∃ destination, resolve target = some destination ∧
      ¬FitsSigned bits (inInstructions (distance position destination)) := by
  unfold branchField at h
  cases resolved : resolve target with
  | none => simp [resolved, Except.map] at h
  | some destination =>
    simp only [resolved] at h
    by_cases fits : FitsSigned bits (inInstructions (distance position destination))
    · simp [fits, Except.map] at h
    · simp only [fits, if_false, Except.map, Except.error.injEq, Error.outOfReach.injEq] at h
      obtain ⟨rfl, rfl, -⟩ := h
      exact ⟨rfl, rfl, destination, rfl, fits⟩

theorem position_of_encode {p : ℕ} {l : Label} {d : Int}
    (h : x.encode position resolve = .error (.outOfReach p l d)) : p = position := by
  cases x with
  | branch codes test annul predictTaken target => exact (map_branchField_eq_outOfReach h).1
  | fused test codes left right target => exact (map_branchField_eq_outOfReach h).1
  | _ => contradiction

/-- A fused branch is out of reach if its distance does not fit. -/
theorem encode_fused_eq_outOfReach_iff (h : x.isFused) :
    (∃ l d, x.encode position resolve = .error (.outOfReach position l d)) ↔
      ∃ l destination, x.target? = some l ∧ resolve l = some destination ∧
        ¬FitsSigned fusedReachBits (inInstructions (distance position destination)) := by
  cases x with
  | fused test codes left right target =>
    simp only [encode, target?]
    constructor
    · rintro ⟨l, d, failed⟩
      obtain ⟨-, rfl, destination, resolved, wide⟩ := map_branchField_eq_outOfReach failed
      exact ⟨_, destination, rfl, resolved, wide⟩
    · rintro ⟨l, destination, same, resolved, wide⟩
      cases same
      refine ⟨target, distance position destination, ?_⟩
      rw [branchField, resolved]
      simp only
      rw [if_neg wide]
      rfl
  | _ => contradiction

end Instruction

end Multiway
