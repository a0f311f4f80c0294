import Multiway.Proofs.Assembly.Layout
import Multiway.Proofs.Draft.Course
import Multiway.Proofs.Lowering.Probe
import Multiway.Proofs.Passes.Reach

/-!
# Fused branches to bound labels

Whether a fused branch reaches a label that is bound already is decided from the place where the
branch will stand and from that of the label. Neither of the two changes any more while the pass
takes its course, and the slack only makes the decision stricter. So such a branch is always
encoded, whatever is emitted after it.
-/
namespace Multiway

namespace CodeBuffer

variable {b x : CodeBuffer}

/-- Labels that are bound stay where they are. -/
theorem Underlies.position? (h : b.Underlies x) {l : Label} {p : ℕ}
    (bound : b.position? l = some p) : x.position? l = some p := by
  obtain ⟨ls, -, unbound, same⟩ := h.bound
  rw [same l fun mem => ?_]
  · exact bound
  · have none : b.position? l = none := unbound l mem
    rw [bound] at none
    contradiction

/-- Instructions that have been emitted stay where they are. -/
theorem Underlies.getElem?_code (h : b.Underlies x) {k : ℕ} {i : Instruction}
    (found : b.code[k]? = some i) : x.code[k]? = some i := by
  obtain ⟨is, code⟩ := h.code
  obtain ⟨inside, -⟩ := Array.getElem?_eq_some_iff.1 found
  rw [code, Array.getElem?_append_left inside]
  exact found

theorem estimate?_of_position? {m : Machine} {probe p : ℕ} {hint : Hint} {target : Label}
    (bound : b.position? target = some p) :
    b.estimate? m probe hint target = some (m.pad (distance probe p)) := by
  rw [estimate?, bound]
  rfl

/-- What is taken to be in reach of a bound label is in its reach. -/
theorem fits_of_reaches {m : Machine} (slack : m.slack < modulus 60) {probe p : ℕ} {hint : Hint}
    {target : Label} (bound : b.position? target = some p)
    (reaches : b.reaches m probe hint target) :
    FitsSigned fusedReachBits (inInstructions (distance probe p)) := by
  rw [CodeBuffer.reaches, estimate?_of_position? bound, Option.any_some, decide_eq_true_eq]
    at reaches
  exact fitsSigned_of_inFusedReach_pad slack reaches

end CodeBuffer

/-- Layout does not stop at an instruction that can be encoded. -/
theorem Draft.finish_ne_outOfReach {d : Draft} {k : ℕ} {x : Instruction}
    (found : d.code.code[k]? = some x) {w : Word}
    (encoded : x.encode (k * instructionBytes) d.code.position? = .ok w) (l : Label) (n : Int) :
    d.finish ≠ .error (.outOfReach (k * instructionBytes) l n) := by
  intro stopped
  obtain ⟨j, y, here, failed, -⟩ := finish_eq_error_iff.1 stopped
  have position := Instruction.position_of_encode failed
  have same : k = j := Nat.eq_of_mul_eq_mul_right (show 0 < instructionBytes by decide) position
  subst same
  rw [found, Option.some.injEq] at here
  rw [← here, encoded] at failed
  contradiction

theorem Instruction.exists_encode_fused (test : FlagTest) (codes : CodeSet) (left : Register)
    (right : Operand) {target : Label} {position p : ℕ} {resolve : Label → Option ℕ}
    (bound : resolve target = some p)
    (fits : FitsSigned fusedReachBits (inInstructions (distance position p))) :
    ∃ w, (fused test codes left right target).encode position resolve = .ok w := by
  simp only [encode, branchField, bound]
  rw [if_pos fits]
  exact ⟨_, rfl⟩

namespace Emission

variable {e : Emission} {key : Key} {condition : Condition} {target : Label} {d d' : Draft}

theorem sound_and_underlies_of_compare (sound : d.code.Sound)
    (compared : (e.compare key condition target).run d = .ok () d') :
    d'.code.Sound ∧ d.code.Underlies d'.code := by
  obtain ⟨as, code⟩ := e.exists_compare_actAll key condition target d
  unfold Sink.stateAfter at code
  rw [compared] at code
  simp only at code
  rw [code]
  exact ⟨sound.actAll as, (CodeBuffer.grown_actAll as).underlies⟩

/-- A fused branch that has been emitted is where it has been told to be. -/
theorem fused_of_getElem? (compared : (e.compare key condition target).run d = .ok () d') {k : ℕ}
    {x : Instruction} (new : d.code.code.size ≤ k) (found : d'.code.code[k]? = some x)
    (isFused : x.isFused) :
    e.fuses key target d ∧
      d.code.fusedPosition? (key.loadPlan e.base e.scratch d.pool) = some (k * instructionBytes) ∧
      x = .fused condition.flagTest (e.codes key) e.value (e.operand key) target := by
  obtain ⟨-, rfl⟩ := run_compare_eq_ok_iff.1 compared
  rw [← Array.getElem?_toList, CodeBuffer.toList_code_emitAll, CodeBuffer.code_hintFor,
    List.getElem?_append_right (by simpa using new), Array.length_toList] at found
  obtain ⟨fuses, place, rfl⟩ := eq_of_isFused found isFused
  obtain ⟨-, -, probe, stands, -⟩ := fuses_iff.1 fuses
  have here : probe = k * instructionBytes := by
    rw [(fusedPosition?_eq_some_iff.1 stands).2, CodeBuffer.position_emitAll, ← place,
      CodeBuffer.position, ← Nat.add_mul, Nat.add_sub_of_le new]
  exact ⟨fuses, here ▸ stands, rfl⟩

/-- A comparison that is fused puts its branch where it has been told to. If the target is bound,
the branch is encoded whatever else is emitted in the pass; a bound target that is out of reach is
never branched to in this form. -/
theorem fused_backward (reached : d.Reached) (slack : d.machine.slack < modulus 60)
    (compared : (e.compare key condition target).run d = .ok () d') :
    (∀ k x, d.code.code.size ≤ k → d'.code.code[k]? = some x → x.isFused →
      d.code.fusedPosition? (key.loadPlan e.base e.scratch d.pool) = some (k * instructionBytes) ∧
      ∀ p, d.code.position? target = some p → ∀ y standing, d'.Onward y standing →
        y.code.code[k]? = some x ∧
        (∃ w, x.encode (k * instructionBytes) y.code.position? = .ok w) ∧
        ∀ l n, y.finish ≠ .error (.outOfReach (k * instructionBytes) l n)) ∧
    ∀ p, d.code.position? target = some p →
      (∀ probe, d.code.fusedPosition? (key.loadPlan e.base e.scratch d.pool) = some probe →
        ¬InFusedReach (d.machine.pad (distance probe p))) →
      d'.code.code.toList = d.code.code.toList ++
        ((key.loadPlan e.base e.scratch d.pool).instructions ++ [.compare e.value (e.operand key),
          .branch (e.codes key) condition.flagTest true true target, .nop]) := by
  constructor
  · intro k x new found isFused
    obtain ⟨fuses, stands, rfl⟩ := fused_of_getElem? compared new found isFused
    refine ⟨stands, fun p bound y standing onward => ?_⟩
    obtain ⟨-, -, probe, told, reaches⟩ := fuses_iff.1 fuses
    rw [stands, Option.some.injEq] at told
    subst told
    have fits := CodeBuffer.fits_of_reaches slack
      ((d.code.position?_hintFor target target).trans bound) reaches
    obtain ⟨sound, grown⟩ := sound_and_underlies_of_compare reached.sound compared
    have later : d'.code.Underlies y.code := onward.underlies sound
    have there : y.code.position? target = some p := later.position? (grown.position? bound)
    have here := later.getElem?_code found
    obtain ⟨w, encoded⟩ := Instruction.exists_encode_fused condition.flagTest (e.codes key) e.value
      (e.operand key) there fits
    exact ⟨here, ⟨w, encoded⟩, Draft.finish_ne_outOfReach here encoded⟩
  · intro p bound outside
    obtain ⟨-, rfl⟩ := run_compare_eq_ok_iff.1 compared
    have longer : ¬e.fuses key target d := by
      intro fuses
      obtain ⟨-, -, probe, stands, reaches⟩ := fuses_iff.1 fuses
      rw [CodeBuffer.reaches, CodeBuffer.estimate?_of_position?
        ((d.code.position?_hintFor target target).trans bound), Option.any_some,
        decide_eq_true_eq] at reaches
      exact outside probe stands reaches
    rw [comparisonIn, if_neg longer]
    exact CodeBuffer.toList_code_emitAll _ _

/-- A loop of one instruction: the branch back to its beginning stands at four, and is encoded
however the pass goes on. -/
theorem fused_backward_over_nop :
    let e : Emission := ⟨#[.immediate 1], ⟨8⟩, .word, ⟨9⟩, ⟨1⟩⟩
    let d := Draft.after [.newLabel, .bind ⟨0⟩, .append .nop]
      { machine := { fusedBranches := true } }
    let x : Instruction := .fused .equal .icc ⟨8⟩ (.imm 1) ⟨0⟩
    ∃ d', d.Reached ∧ d.machine.slack < modulus 60 ∧
      (e.compare (.immediate 1) .equal ⟨0⟩).run d = .ok () d' ∧ d'.code.code[1]? = some x ∧
      d.code.fusedPosition? {} = some 4 ∧ d.code.position? ⟨0⟩ = some 0 ∧
      ∀ y standing, d'.Onward y standing → y.code.code[1]? = some x ∧
        (∃ w, x.encode 4 y.code.position? = .ok w) ∧
        ∀ l n, y.finish ≠ .error (.outOfReach 4 l n) := by
  intro e d x
  have course : Draft.Onward { machine := { fusedBranches := true } } d [] :=
    Draft.Onward.start.after (by simp [Draft.Operation.Advances])
  have reached : d.Reached := .onward (.fresh _) course
  have slack : d.machine.slack < modulus 60 := by decide
  have fuses : e.fuses (.immediate 1) ⟨0⟩ d := by decide
  have emitted : e.comparisonIn (.immediate 1) .equal ⟨0⟩ d = [x] := by
    rw [comparisonIn, if_pos fuses]
    rfl
  have loadable : (Key.immediate 1).isPooled → ¬e.base.isZero := fun pooled =>
    absurd pooled Bool.false_ne_true
  obtain ⟨d', compared, code⟩ : ∃ d', (e.compare (.immediate 1) .equal ⟨0⟩).run d = .ok () d' ∧
      d'.code.code = d.code.code ++ [x] := by
    refine ⟨_, run_compare_eq_ok_iff.2 ⟨loadable, rfl⟩, ?_⟩
    rw [emitted, CodeBuffer.code_emitAll, CodeBuffer.code_hintFor]
  have found : d'.code.code[1]? = some x := by
    rw [code]
    rfl
  obtain ⟨stands, encodes⟩ :=
    (fused_backward reached slack compared).1 1 x (by decide) found rfl
  exact ⟨d', reached, slack, compared, found, stands, rfl, encodes 0 rfl⟩

end Emission

end Multiway
