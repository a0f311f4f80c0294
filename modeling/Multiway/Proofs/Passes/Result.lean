import Multiway.Proofs.Assembly.Layout
import Multiway.Proofs.Passes.Bindings

/-!
# Results of a pass

The forms of the comparisons can be read off the code of a pass, and a fused branch stands where the
outline tells. So what layout says about a fused branch comes down to the distance between its stand
and the mark of its label. A branch backward is always in reach.
-/
namespace Multiway

/-- Whether the comparison that an instruction belongs to is fused, if it belongs to one. -/
def Instruction.form? : Instruction → Option Bool
  | compare .. => some false
  | fused .. => some true
  | _ => none

namespace Draft

/-- The forms of the comparisons, in the order of the code. -/
def forms (d : Draft) : List Bool := d.code.code.toList.filterMap Instruction.form?

/-- Layout stops at a fused branch, since its target is out of reach. -/
def RejectsFused (d : Draft) : Prop :=
  ∃ k x l distance, d.code.code[k]? = some x ∧ x.isFused ∧
    d.finish = .error (.outOfReach (k * instructionBytes) l distance)

/-- Layout stops at a fused branch if it is the first instruction that cannot be encoded. -/
theorem rejectsFused_iff {d : Draft} :
    d.RejectsFused ↔ ∃ k x l destination, d.code.code[k]? = some x ∧ x.isFused ∧
      x.target? = some l ∧ d.code.position? l = some destination ∧
        ¬FitsSigned fusedReachBits
            (inInstructions (distance (k * instructionBytes) destination)) ∧
          ∀ j < k, d.Encodes j := by
  constructor
  · rintro ⟨k, x, l, far, found, fused, failed⟩
    obtain ⟨k', x', found', failed', before⟩ := finish_eq_error_iff.1 failed
    have same : k * instructionBytes = k' * instructionBytes :=
      Instruction.position_of_encode failed'
    obtain rfl : k = k' := Nat.eq_of_mul_eq_mul_right (by decide) same
    obtain rfl : x = x' := by
      rw [found] at found'
      exact Option.some.inj found'
    obtain ⟨l', destination, target, position, wide⟩ :=
      (Instruction.encode_fused_eq_outOfReach_iff fused).1 ⟨l, far, failed'⟩
    exact ⟨k, x, l', destination, found, fused, target, position, wide, before⟩
  · rintro ⟨k, x, l, destination, found, fused, target, position, wide, before⟩
    obtain ⟨l', far, failed⟩ :=
      (Instruction.encode_fused_eq_outOfReach_iff fused).2 ⟨l, destination, target, position, wide⟩
    exact ⟨k, x, l', far, found, fused, finish_eq_error_iff.2 ⟨k, x, found, failed, before⟩⟩

end Draft

namespace Piece

/-- Only the last instruction of a comparison in its shorter form is a fused branch. -/
theorem of_isFused {x : Piece} {fused behind : Bool} {k : ℕ} {i : Instruction}
    (found : (x.code fused behind)[k]? = some i) (h : i.isFused) :
    ∃ c, x = .comparison c ∧ fused ∧
      k = c.plan.length + (if c.plan.isEmpty && behind then 1 else 0) ∧
      i.target? = some c.target := by
  cases x with
  | comparison c =>
    refine ⟨c, rfl, ?_⟩
    have loads : c.plan.length ≤ k := by
      by_contra early
      rw [code, Emission.comparison, List.getElem?_append_left (Nat.lt_of_not_le early)] at found
      have := Key.isLoading_of_mem_loadPlan (List.mem_of_getElem? found)
      cases i <;> simp_all [Instruction.isFused, Key.IsLoading]
    rw [code, Emission.comparison, List.getElem?_append_right loads] at found
    obtain ⟨n, rfl⟩ := Nat.exists_eq_add_of_le loads
    rw [← LoadPlan.length, Nat.add_sub_cancel_left] at found
    cases fused
    · obtain _ | _ | _ | n := n <;> simp at found <;> subst found <;> contradiction
    · cases padded : c.plan.isEmpty && behind with
      | true =>
        obtain _ | _ | n := n <;> simp [padded] at found
        · subst found
          contradiction
        · subst found
          exact ⟨rfl, rfl, rfl⟩
      | false =>
        obtain _ | n := n <;> simp [padded] at found
        subst found
        exact ⟨rfl, rfl, rfl⟩
  | jump target =>
    obtain _ | _ | k := k <;> simp [code] at found <;> subst found <;> contradiction
  | nops count =>
    rw [List.eq_of_mem_replicate (List.mem_of_getElem? found)] at h
    contradiction
  | mark label => simp [code] at found

theorem filterMap_form?_code (x : Piece) (fused behind : Bool) :
    (x.code fused behind).filterMap Instruction.form? = if x.isComparison then [fused] else [] := by
  cases x with
  | comparison c =>
    have loads : c.plan.instructions.filterMap Instruction.form? = [] := by
      rw [List.filterMap_eq_nil_iff]
      intro i mem
      have := Key.isLoading_of_mem_loadPlan mem
      cases i <;> first | rfl | contradiction
    rw [code, Emission.comparison, List.filterMap_append, loads]
    cases fused <;> cases c.plan.isEmpty && behind <;> rfl
  | jump target => rfl
  | nops count =>
    simp only [code, isComparison, Bool.false_eq_true, if_false]
    rw [List.filterMap_eq_nil_iff]
    intro i mem
    rw [List.eq_of_mem_replicate mem]
    rfl
  | mark label => rfl

end Piece

namespace Outline

variable {P : Outline} {F : Forms}

def comparing (P : Outline) (n : ℕ) : List ℕ :=
  (List.range n).filter fun i => (P.piece i).isComparison

theorem filterMap_form?_codeTo (n : ℕ) :
    (P.codeTo F n).filterMap Instruction.form? = (P.comparing n).map F := by
  induction n with
  | zero => rfl
  | succ n ih =>
    rw [codeTo, List.filterMap_append, ih, Piece.filterMap_form?_code, comparing, comparing,
      List.range_succ, List.filter_append, List.map_append]
    cases h : (P.piece n).isComparison <;> simp [h]

/-- Every fused branch in the code belongs to a comparison, and stands where that one tells. -/
theorem exists_of_isFused {n k : ℕ} {x : Instruction} (found : (P.codeTo F n)[k]? = some x)
    (h : x.isFused) :
    ∃ i c, i < n ∧ P.piece i = .comparison c ∧ F i ∧ k = P.stand F i c ∧
      x.target? = some c.target := by
  induction n with
  | zero => simp [codeTo] at found
  | succ n ih =>
    by_cases before : k < (P.codeTo F n).length
    · rw [codeTo, List.getElem?_append_left before] at found
      obtain ⟨i, c, hi, rest⟩ := ih found
      exact ⟨i, c, hi.trans (Nat.lt_succ_self n), rest⟩
    · rw [codeTo, List.getElem?_append_right (Nat.le_of_not_lt before)] at found
      obtain ⟨c, piece, fused, place, target⟩ := Piece.of_isFused found h
      refine ⟨n, c, Nat.lt_succ_self n, piece, fused, ?_, target⟩
      rw [length_codeTo] at before place
      rw [stand]
      omega

/-- The forms of two passes differ at as many comparisons as the forms that can be read off. -/
theorem countP_zip_comparing (G : Forms) (hF : ∀ i, F i → (P.piece i).isComparison) (n : ℕ) :
    (((P.comparing n).map F).zip ((P.comparing n).map G)).countP (fun x => x.1 && !x.2) =
      reverted F G n := by
  rw [List.zip_map', List.countP_map, comparing, List.countP_filter, reverted]
  congr 1
  ext i
  have compares := hF i
  cases h : F i
  · simp [h]
  · simp [h, compares h]

namespace Stage

variable {m : Machine} {callers u : ℕ} {before : Option Forms} {p : ConstantPool} {d : Draft}

theorem forms_draft (h : Stage P m callers before P.length u p d) :
    d.forms = (P.comparing P.length).map (P.forms m before) := by
  rw [Draft.forms, h.code, filterMap_form?_codeTo]

/-- The bounds of positions are those of the buffer. -/
theorem offset_lt (h : Stage P m callers before P.length u p d)
    (small : d.code.code.size < bufferBound) {i : ℕ} (hi : i ≤ P.length) :
    P.offset (P.forms m before) i < bufferBound := by
  rw [h.size] at small
  exact (offset_mono hi).trans_lt small

/-- A fused branch that does not fit branches forward, and was chosen by the hint of the pass
before. -/
theorem forward_of_not_fits (h : Stage P m callers before P.length u p d)
    (slack : m.slack < bufferBound) (once : P.BindsOnce)
    (small : d.code.code.size < bufferBound) {k : ℕ} {x : Instruction} {l : Label}
    {destination : ℕ} (found : d.code.code[k]? = some x) (fused : x.isFused)
    (target : x.target? = some l) (position : d.code.position? l = some destination)
    (wide : ¬FitsSigned fusedReachBits
      (inInstructions (distance (k * instructionBytes) destination))) :
    ∃ i c b, P.piece i = .comparison c ∧ P.forms m before i ∧ P.mark? i c.target = none ∧
      P.mark? P.length c.target = some b ∧ k = P.stand (P.forms m before) i c ∧
      destination = P.offset (P.forms m before) b * instructionBytes ∧
      k + 511 < P.offset (P.forms m before) b := by
  rw [← Array.getElem?_toList, h.code] at found
  obtain ⟨i, c, hi, piece, chosen, rfl, target'⟩ := exists_of_isFused found fused
  obtain rfl : l = c.target := by
    rw [target] at target'
    exact Option.some.inj target'
  rw [h.positions, Option.map_eq_some_iff] at position
  obtain ⟨b, mark, rfl⟩ := position
  obtain ⟨hb, marked⟩ := mark?_eq_some mark
  have inside := h.offset_lt small (Nat.succ_le_of_lt hi)
  have stand := (stand_lt piece).trans inside
  rw [fitsSigned_distance stand (h.offset_lt small hb.le)] at wide
  cases known : P.mark? i c.target with
  | some j =>
    obtain ⟨hj, marked'⟩ := mark?_eq_some known
    obtain rfl := once marked marked'
    rw [forms_eq] at chosen
    obtain ⟨-, reaches⟩ := (chooses_backward slack stand piece known).1 chosen
    unfold ReachesBack at reaches
    omega
  | none =>
    refine ⟨i, c, b, piece, chosen, known, mark, rfl, rfl, ?_⟩
    have later := lt_of_unmarked piece known mark
    have := (stand_lt (F := P.forms m before) piece).trans_le (offset_mono later)
    omega

/-- A pass is rejected for a fused branch exactly if the first instruction that cannot be encoded is
a fused branch whose label is more than 511 instructions ahead. -/
theorem rejectsFused_iff_ahead (h : Stage P m callers before P.length u p d)
    (slack : m.slack < bufferBound) (once : P.BindsOnce)
    (small : d.code.code.size < bufferBound) :
    d.RejectsFused ↔ ∃ k x l destination, d.code.code[k]? = some x ∧ x.isFused ∧
      x.target? = some l ∧ d.code.position? l = some destination ∧
        (k + 511) * instructionBytes < destination ∧ ∀ j < k, d.Encodes j := by
  rw [Draft.rejectsFused_iff]
  constructor
  · rintro ⟨k, x, l, destination, found, fused, target, position, wide, before⟩
    obtain ⟨i, c, b, -, -, -, -, -, rfl, ahead⟩ :=
      h.forward_of_not_fits slack once small found fused target position wide
    exact ⟨k, x, l, _, found, fused, target, position,
      Nat.mul_lt_mul_of_pos_right ahead (by decide), before⟩
  · rintro ⟨k, x, l, destination, found, fused, target, position, ahead, before⟩
    refine ⟨k, x, l, destination, found, fused, target, position, fun fits => ?_, before⟩
    have placed := position
    rw [h.positions, Option.map_eq_some_iff] at placed
    obtain ⟨b, mark, rfl⟩ := placed
    have inside : k < bufferBound := by
      obtain ⟨hk, -⟩ := Array.getElem?_eq_some_iff.1 found
      exact hk.trans small
    have bound := h.offset_lt small (mark?_eq_some mark).1.le
    rw [fitsSigned_distance inside bound] at fits
    have := Nat.lt_of_mul_lt_mul_right ahead
    omega

/-- The comparison for whose fused branch a pass is rejected. -/
theorem forward_of_rejectsFused (h : Stage P m callers before P.length u p d)
    (slack : m.slack < bufferBound) (once : P.BindsOnce)
    (small : d.code.code.size < bufferBound) (rejects : d.RejectsFused) :
    ∃ i c b, P.piece i = .comparison c ∧ P.forms m before i ∧ P.mark? i c.target = none ∧
      P.mark? P.length c.target = some b ∧
      P.stand (P.forms m before) i c + 511 < P.offset (P.forms m before) b := by
  obtain ⟨k, x, l, destination, found, fused, target, position, wide, -⟩ :=
    Draft.rejectsFused_iff.1 rejects
  obtain ⟨i, c, b, piece, chosen, unmarked, mark, rfl, -, ahead⟩ :=
    h.forward_of_not_fits slack once small found fused target position wide
  exact ⟨i, c, b, piece, chosen, unmarked, mark, ahead⟩

/-- A pass is rejected for a fused branch only if the comparisons that have become longer again take
more instructions than the slack. -/
theorem slack_lt_of_rejectsFused {n : ℕ}
    (h : Stage P m callers (P.formsBefore m n) P.length u p d) (slack : m.slack < bufferBound)
    (once : P.BindsOnce) (small : d.code.code.size < bufferBound)
    (fits : ∀ k, n = k + 1 → P.Fits m k) (rejects : d.RejectsFused) :
    ∃ k, n = k + 1 ∧
      m.slack < 2 * reverted (P.formsOf m k) (P.formsOf m (k + 1)) P.length := by
  obtain ⟨i, c, b, piece, chosen, unmarked, mark, ahead⟩ :=
    h.forward_of_rejectsFused slack once small rejects
  rw [← formsOf_eq] at chosen ahead
  obtain ⟨-, k, a, b', rfl, first, mark', hai, hib, reaches⟩ :=
    reachesForth_of_formsOf slack fits piece unmarked chosen
  obtain rfl : b = b' := by
    rw [mark] at mark'
    exact Option.some.inj mark'
  have compares := Piece.isComparison_of_comparesTo (first?_eq_some first).2.1
  exact ⟨k, rfl, slack_lt_of_out_of_reach piece hai hib compares reaches ahead
    (mark?_eq_some mark).1.le⟩

end Stage

end Outline

end Multiway
