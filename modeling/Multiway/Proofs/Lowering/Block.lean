import Multiway.Lowering.Switch
import Multiway.Proofs.Dispatch.Requests
import Multiway.Proofs.Pool.Integrity

/-!
# Blocks of emitted code

Each event adds one block of instructions to a draft, which is empty for a label that is bound. What
a whole run adds is the blocks of its events, one after the other, and the labels that it binds are
found at the beginning of their blocks. Nothing that was in the draft before is moved.
-/
namespace Multiway

namespace CodeBuffer

theorem emitAll_eq (b : CodeBuffer) (is : List Instruction) :
    b.emitAll is = { b with code := b.code ++ is } := by
  induction is generalizing b with
  | nil => simp [emitAll]
  | cons i is ih =>
    simp only [emitAll, List.foldl_cons] at ih ⊢
    simp [ih, emit]

theorem emitAll_append (b : CodeBuffer) (is js : List Instruction) :
    b.emitAll (is ++ js) = (b.emitAll is).emitAll js := List.foldl_append

theorem toList_code_emitAll (b : CodeBuffer) (is : List Instruction) :
    (b.emitAll is).code.toList = b.code.toList ++ is := by
  rw [code_emitAll, Array.toList_appendList]

theorem position_emitAll (b : CodeBuffer) (is : List Instruction) :
    (b.emitAll is).position = b.position + is.length * instructionBytes := by
  induction is generalizing b with
  | nil => simp [emitAll]
  | cons i is ih =>
    have rest := ih (b.emit i)
    rw [position_emit] at rest
    simp only [emitAll, List.foldl_cons, List.length_cons, Nat.add_mul] at rest ⊢
    omega

theorem separateFused_eq (b : CodeBuffer) :
    b.separateFused = b.emitAll (if b.hazard = .afterFused then [.nop] else []) := by
  unfold separateFused
  cases h : b.hazard <;> rfl

@[simp] theorem position?_emitAll (b : CodeBuffer) (is : List Instruction) (l : Label) :
    (b.emitAll is).position? l = b.position? l := by
  rw [emitAll_eq]
  rfl

@[simp] theorem position?_hintFor (b : CodeBuffer) (l l' : Label) :
    (b.hintFor l).2.position? l' = b.position? l' := rfl

@[simp] theorem code_hintFor (b : CodeBuffer) (l : Label) : (b.hintFor l).2.code = b.code := rfl

theorem position?_setIfInBounds {b : CodeBuffer} {l l' : Label} {p : ℕ}
    (h : b.positions[l.index]? = some none) :
    ((b.positions.setIfInBounds l.index (some p))[l'.index]?).join =
      if l' = l then some p else b.position? l' := by
  have inside : l.index < b.positions.size := by
    by_contra outside
    simp [Array.getElem?_eq_none (Nat.le_of_not_lt outside)] at h
  by_cases hl : l' = l
  · subst hl
    simp [inside]
  · have other : l.index ≠ l'.index := fun same => hl (by cases l; cases l'; simp_all)
    simp [hl, other, position?]

/-- What binding a label does, unless it fails. -/
theorem eq_of_bind {b b' : CodeBuffer} {l : Label} (h : b.bind l = .ok b') :
    b' = { b with
      positions := b.positions.setIfInBounds l.index (some b.position)
      bindings := b.bindings.push l
      hints := b.hints.modify l fun hint => { hint with target := some b.position } } := by
  unfold CodeBuffer.bind at h
  split at h
  · contradiction
  · contradiction
  · exact (Except.ok.inj h).symm

theorem bind_eq_ok {b b' : CodeBuffer} {l : Label} (h : b.bind l = .ok b') :
    b.position? l = none ∧ b'.code = b.code ∧
      ∀ l', b'.position? l' = if l' = l then some b.position else b.position? l' := by
  unfold CodeBuffer.bind at h
  split at h
  · contradiction
  · contradiction
  · rename_i unbound
    cases h
    refine ⟨by simp [position?, unbound], rfl, fun l' => position?_setIfInBounds unbound⟩

theorem position?_newLabel (b : CodeBuffer) (l : Label) :
    b.newLabel.2.position? l = b.position? l := by
  simp only [newLabel, position?, Array.getElem?_push]
  split_ifs with last
  · simp [last]
  · rfl

theorem position?_localLabel (b : CodeBuffer) (l : Label) :
    b.localLabel.2.position? l = b.position? l := by
  unfold localLabel
  split
  · rfl
  · exact position?_newLabel b l

@[simp] theorem code_localLabel (b : CodeBuffer) : b.localLabel.2.code = b.code := by
  unfold localLabel newLabel
  split <;> rfl

end CodeBuffer

namespace Emission

/-- The code of a comparison after a load plan. -/
def comparison (e : Emission) (plan : LoadPlan) (key : Key) (condition : Condition) (target : Label)
    (fused padded : Bool) : List Instruction :=
  plan.instructions ++
    if fused then
      (if padded then [.nop] else []) ++
        [.fused condition.flagTest (e.codes key) e.value (e.operand key) target]
    else
      [.compare e.value (e.operand key),
        .branch (e.codes key) condition.flagTest true true target, .nop]

/-- The code that a comparison adds, and what else it changes. -/
theorem compare_eq (e : Emission) (key : Key) (condition : Condition) (target : Label) (d : Draft) :
    e.compare key condition target d =
      match LoadPlan.forKey key e.base e.scratch d.pool with
      | .error error => .error error { d with code := (d.code.hintFor target).2 }
      | .ok (plan, pool) =>
        let (hint, code) := d.code.hintFor target
        let fused := takesFused d.machine code plan hint key target
        let padded := (code.emitAll plan.instructions).hazard = .afterFused
        .ok () { d with
          code := code.emitAll (e.comparison plan key condition target fused padded), pool } := by
  unfold compare
  cases LoadPlan.forKey key e.base e.scratch d.pool with
  | error error => rfl
  | ok planned =>
    obtain ⟨plan, pool⟩ := planned
    simp only [comparison, CodeBuffer.emitAll_append]
    split_ifs with fused padded
    · rw [CodeBuffer.emitFused, CodeBuffer.separateFused_eq, if_pos (of_decide_eq_true padded),
        CodeBuffer.emitAll_append]
      rfl
    · rw [CodeBuffer.emitFused, CodeBuffer.separateFused_eq, if_neg (by simpa using padded),
        CodeBuffer.emitAll_append]
      rfl
    · rfl

/-- What an event does to a draft when its code is emitted. -/
inductive Performs (e : Emission) (d : Draft) : Event → Draft → Prop
  | test {index : ℕ} {key : Key} {d' : Draft} (condition : Condition) (target : Label) :
    e.keys[index]? = some key → (e.compare key condition target).run d = .ok () d' →
    Performs e d (.test index condition target) d'
  | jump (target : Label) :
    Performs e d (.jump target) { d with code := d.code.emitAll [.jump target, .nop] }
  | bind {label : Label} {code : CodeBuffer} : d.code.bind label = .ok code →
    Performs e d (.bind label) { d with code }

theorem performs_of_perform {e : Emission} {v : Event} {d d' : Draft}
    (h : (e.sink.perform v).run d = .ok () d') : e.Performs d v d' := by
  cases v with
  | test index condition target =>
    simp only [Sink.perform, sink] at h
    cases held : e.keys[index]? with
    | none =>
      simp only [held] at h
      contradiction
    | some key =>
      simp only [held] at h
      exact .test condition target held h
  | jump target =>
    cases h
    exact .jump target
  | bind label =>
    simp only [Sink.perform, sink, EStateM.run] at h
    cases bound : d.code.bind label with
    | error error => simp [bound] at h
    | ok code =>
      simp only [bound, EStateM.Result.ok.injEq, true_and] at h
      subst h
      exact .bind bound

/-- The plan leaves the key where it is compared, if it is kept in the pool. -/
def Loads (e : Emission) (p : ConstantPool) (key : Key) (plan : LoadPlan) : Prop :=
  match key.constant? with
  | none => plan = {}
  | some c => ¬e.base.isZero ∧
    ∃ o, p.offset? c = some o ∧ plan = LoadPlan.atOffset c.width e.base e.scratch o

/-- The block of an event, where the pool holds the constants. -/
inductive Lowers (e : Emission) (p : ConstantPool) : Event → List Instruction → Prop
  | test {index : ℕ} {key : Key} (condition : Condition) (target : Label) {plan : LoadPlan}
      {fused : Bool} (padded : Bool) : e.keys[index]? = some key → e.Loads p key plan →
      (fused → FitsFused key) →
      Lowers e p (.test index condition target)
        (e.comparison plan key condition target fused padded)
  | jump (target : Label) : Lowers e p (.jump target) [.jump target, .nop]
  | bind (label : Label) : Lowers e p (.bind label) []

theorem loads_of_forKey {e : Emission} {key : Key} {plan : LoadPlan} {p p' : ConstantPool}
    (h : LoadPlan.forKey key e.base e.scratch p = .ok (plan, p')) :
    e.Loads p' key plan ∧ p.Extends p' ∧ (p.Sound → p'.Sound) := by
  unfold LoadPlan.forKey at h
  unfold Loads
  cases constant : key.constant? with
  | none =>
    simp only [constant] at h
    cases h
    exact ⟨rfl, .refl _, id⟩
  | some c =>
    simp only [constant] at h
    by_cases base : e.base.isZero
    · simp [base] at h
    · simp only [base, Bool.false_eq_true, if_false, Except.ok.injEq, Prod.mk.injEq] at h
      obtain ⟨rfl, rfl⟩ := h
      exact ⟨⟨base, _, p.offset?_intern c, rfl⟩, p.extends_intern c, fun sound => sound.intern c⟩

theorem Loads.cases {e : Emission} {p : ConstantPool} {key : Key} {plan : LoadPlan}
    (h : e.Loads p key plan) :
    (key.isPooled = false ∧ plan = {}) ∨ (key.isPooled ∧ ∃ width offset,
      plan = LoadPlan.atOffset width e.base e.scratch offset) := by
  unfold Loads at h
  unfold Key.isPooled
  cases constant : key.constant? with
  | none =>
    simp only [constant] at h
    exact Or.inl ⟨rfl, h⟩
  | some c =>
    simp only [constant] at h
    obtain ⟨-, offset, -, plan⟩ := h
    exact Or.inr ⟨rfl, c.width, offset, plan⟩

theorem Loads.mono {e : Emission} {p p' : ConstantPool} {key : Key} {plan : LoadPlan}
    (h : e.Loads p key plan) (grown : p.Extends p') : e.Loads p' key plan := by
  unfold Loads at h ⊢
  cases constant : key.constant? with
  | none => simpa [constant] using h
  | some c =>
    simp only [constant] at h ⊢
    obtain ⟨base, o, held, rfl⟩ := h
    exact ⟨base, o, grown.offsets held, rfl⟩

theorem Lowers.mono {e : Emission} {p p' : ConstantPool} {v : Event} {is : List Instruction}
    (h : e.Lowers p v is) (grown : p.Extends p') : e.Lowers p' v is := by
  cases h with
  | test condition target padded held loads fits =>
    exact .test condition target padded held (loads.mono grown) fits
  | jump target => exact .jump target
  | bind label => exact .bind label

end Emission

/-- A switch that is emitted has made its requests. -/
theorem Switch.run_of_emit {s : Switch} {d d' : Draft} (emitted : s.emit d = .ok () d') :
    s.emission.sink.run s.routes s.strategy.requests d = .ok () d' := by
  unfold emit at emitted
  cases run : s.emission.sink.run s.routes s.strategy.requests d with
  | error error abandoned => simp [run] at emitted
  | ok _ emitted' => simpa [run] using emitted

end Multiway
