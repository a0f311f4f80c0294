import Multiway.Proofs.Assembly.Encoding
import Multiway.Proofs.Lowering.Success
import Mathlib.Data.List.Chain

/-!
# Composition of emitted code

What a list of requests adds to a draft is one block for each test and each jump, in the order in
which they are made. The block of a test loads the key and goes on in the longer form or in the
shorter one. Code that is composed in this way has no fused branch directly after a branch or
another fused branch, whatever stands before it, and all of its immediates fit.
-/
namespace Multiway

namespace Emission

/-- Code that is composed of the blocks of events. It stands behind `last`, if there is an
instruction before it, and loads its keys from a pool. -/
inductive Composes (e : Emission) (m : Machine) (p : ConstantPool) :
    Option Instruction → List Event → List Instruction → Prop
  | done {last : Option Instruction} : Composes e m p last [] []
  | bind {last : Option Instruction} {vs : List Event} {is : List Instruction} (l : Label) :
    Composes e m p last vs is → Composes e m p last (.bind l :: vs) is
  | jump {last : Option Instruction} {vs : List Event} {is : List Instruction} (l : Label) :
    Composes e m p (some .nop) vs is → Composes e m p last (.jump l :: vs) ([.jump l, .nop] ++ is)
  | longer {last : Option Instruction} {vs : List Event} {is : List Instruction} {index : ℕ}
      {key : Key} {plan : LoadPlan} (condition : Condition) (l : Label) :
    e.keys[index]? = some key → e.Loads p key plan → Composes e m p (some .nop) vs is →
    Composes e m p last (.test index condition l :: vs)
      (plan.instructions ++ [.compare e.value (e.operand key),
        .branch (e.codes key) condition.flagTest true true l, .nop] ++ is)
  | shorter {last : Option Instruction} {vs : List Event} {is : List Instruction} {index : ℕ}
      {key : Key} {plan : LoadPlan} (condition : Condition) (l : Label) :
    e.keys[index]? = some key → e.Loads p key plan → m.fusedBranches → FitsFused key →
    (key.isPooled = false → ¬last.any (·.hasDelaySlot)) →
    Composes e m p
      (some (.fused condition.flagTest (e.codes key) e.value (e.operand key) l)) vs is →
    Composes e m p last (.test index condition l :: vs)
      (plan.instructions ++ (if !key.isPooled && last.any (·.isFused) then [.nop] else []) ++
        [.fused condition.flagTest (e.codes key) e.value (e.operand key) l] ++ is)

namespace Composes

variable {e : Emission} {m : Machine} {p : ConstantPool} {last : Option Instruction}
  {us vs : List Event} {is js : List Instruction}

theorem append (first : e.Composes m p last us is)
    (rest : e.Composes m p (is.getLast?.or last) vs js) :
    e.Composes m p last (us ++ vs) (is ++ js) := by
  induction first with
  | done => exact rest
  | bind l _ ih => exact .bind l (ih rest)
  | jump l _ ih =>
    rw [List.getLast?_append, Option.or_assoc] at rest
    rw [List.append_assoc]
    exact .jump l (ih rest)
  | longer condition l held loads _ ih =>
    rw [List.getLast?_append, Option.or_assoc, List.getLast?_append] at rest
    rw [List.append_assoc _ _ js]
    exact .longer condition l held loads (ih rest)
  | shorter condition l held loads has fits clear _ ih =>
    rw [List.getLast?_append, Option.or_assoc, List.getLast?_append] at rest
    rw [List.append_assoc _ _ js]
    exact .shorter condition l held loads has fits clear (ih rest)

theorem mono {p' : ConstantPool} (h : e.Composes m p last vs is) (grown : p.Extends p') :
    e.Composes m p' last vs is := by
  induction h with
  | done => exact .done
  | bind l _ ih => exact .bind l ih
  | jump l _ ih => exact .jump l ih
  | longer condition l held loads _ ih => exact .longer condition l held (loads.mono grown) ih
  | shorter condition l held loads has fits clear _ ih =>
    exact .shorter condition l held (loads.mono grown) has fits clear ih

end Composes

/-! ## What a run composes -/

/-- The second draft is the first one and code that is composed of the blocks of events. -/
structure Adds (e : Emission) (d : Draft) (vs : List Event) (is : List Instruction)
    (d' : Draft) : Prop where
  code : d'.code.code.toList = d.code.code.toList ++ is
  machine : d'.machine = d.machine
  pool : d.pool.Extends d'.pool
  composes : e.Composes d.machine d'.pool d.code.code.back? vs is

theorem Adds.trans {e : Emission} {d₁ d₂ d₃ : Draft} {us vs : List Event}
    {is js : List Instruction} (first : e.Adds d₁ us is d₂) (rest : e.Adds d₂ vs js d₃) :
    e.Adds d₁ (us ++ vs) (is ++ js) d₃ where
  code := by rw [rest.code, first.code, List.append_assoc]
  machine := rest.machine.trans first.machine
  pool := first.pool.trans rest.pool
  composes := by
    have later := rest.composes
    have last : d₂.code.code.back? = is.getLast?.or d₁.code.code.back? := by
      rw [← Array.getLast?_toList, ← Array.getLast?_toList, first.code, List.getLast?_append]
    rw [first.machine, last] at later
    exact (first.composes.mono rest.pool).append later

variable {e : Emission} {d d' : Draft}

/-- A comparison composes its block in one of the two forms. -/
theorem adds_of_compare {index : ℕ} {key : Key} {condition : Condition} {target : Label}
    (held : e.keys[index]? = some key)
    (h : (e.compare key condition target).run d = .ok () d') :
    ∃ is, e.Adds d [.test index condition target] is d' := by
  obtain ⟨loadable, rfl⟩ := run_compare_eq_ok_iff.1 h
  obtain ⟨loads, grown, -⟩ := loads_of_forKey (Key.forKey_eq loadable e.scratch d.pool)
  refine ⟨e.comparisonIn key condition target d, CodeBuffer.toList_code_emitAll _ _, rfl, grown, ?_⟩
  unfold comparisonIn
  split_ifs with fused
  · obtain ⟨has, fits, probe, stands, -⟩ := fuses_iff.1 fused
    have clear : key.isPooled = false → ¬d.code.code.back?.any (·.hasDelaySlot) := by
      intro simple slot
      refine (fusedPosition?_eq_some_iff.1 stands).1 simple ?_
      exact CodeBuffer.hazard_eq_delaySlot_iff.2 ((Option.any_eq_true _ _).1 slot)
    have separated : decide (d.code.hazard = .afterFused) = d.code.code.back?.any (·.isFused) := by
      rw [Bool.eq_iff_iff, decide_eq_true_eq, CodeBuffer.hazard_eq_afterFused_iff,
        Option.any_eq_true]
    have shorter : e.Composes d.machine (key.reserve d.pool) d.code.code.back? _ _ :=
      .shorter condition target held loads has fits clear .done
    rw [approach, separated]
    simpa using shorter
  · have longer : e.Composes d.machine (key.reserve d.pool) d.code.code.back? _ _ :=
      .longer condition target held loads .done
    simpa using longer

theorem adds_of_perform {v : Event} (h : (e.sink.perform v).run d = .ok () d') :
    ∃ is, e.Adds d [v] is d' := by
  cases performs_of_perform h with
  | test _ _ held compared => exact adds_of_compare held compared
  | jump target =>
    exact ⟨[.jump target, .nop], CodeBuffer.toList_code_emitAll d.code [.jump target, .nop], rfl,
      .refl _, .jump target .done⟩
  | bind bound =>
    obtain ⟨-, same, -⟩ := CodeBuffer.bind_eq_ok bound
    exact ⟨[], by simp [same], rfl, .refl _, .bind _ .done⟩

theorem traces_adds (e : Emission) :
    e.sink.Traces fun d vs _ d' => ∃ is, e.Adds d vs is d' where
  nil d := ⟨[], by simp, rfl, .refl _, .done⟩
  append := by
    rintro d₁ d₂ d₃ us vs _ _ ⟨is, first⟩ ⟨js, rest⟩
    exact ⟨is ++ js, first.trans rest⟩
  perform performed := adds_of_perform performed
  makeLabel {l d d'} label := by
    cases label
    refine ⟨[], ?_, rfl, .refl _, .done⟩
    rw [List.append_nil]
    exact congrArg Array.toList d.code.code_localLabel

/-! ## Immediates -/

/-- All instructions of a load plan have immediates that fit. -/
theorem Loads.immediatesFit {p : ConstantPool} {key : Key} {plan : LoadPlan}
    (h : e.Loads p key plan) : ∀ i ∈ plan.instructions, i.ImmediatesFit := by
  obtain ⟨-, rfl⟩ | ⟨-, width, o, rfl⟩ := h.cases
  · simp
  · have high : (o % modulus 32) >>> 10 < modulus 22 := by
      have : o % modulus 32 < modulus 32 := Nat.mod_lt _ (modulus_pos 32)
      rw [Nat.shiftRight_eq_div_pow]
      exact Nat.div_lt_of_lt_mul this
    have low : FitsSigned 13 ((o % modulus 32 % modulus 10 : ℕ) : ℤ) := by
      have : o % modulus 32 % modulus 10 < modulus 10 := Nat.mod_lt _ (modulus_pos 10)
      have : modulus 10 ≤ modulus 12 := modulus_le (by decide)
      rw [fitsSigned_succ]
      omega
    intro i mem
    simp only [LoadPlan.atOffset] at mem
    split_ifs at mem with near
    · obtain rfl := List.mem_singleton.1 mem
      exact near
    · simp only [List.mem_cons, List.not_mem_nil, or_false] at mem
      obtain rfl | rfl | rfl := mem
      · exact high
      · exact low
      · trivial

variable {m : Machine} {p : ConstantPool} {last : Option Instruction} {vs : List Event}
  {is : List Instruction}

/-- All instructions of composed code have immediates that fit. -/
theorem Composes.immediatesFit (h : e.Composes m p last vs is)
    (narrow : ∀ {value : Int32}, .immediate value ∈ e.keys →
      FitsSigned Key.immediateBits value.toInt) : ∀ i ∈ is, i.ImmediatesFit := by
  induction h with
  | done => simp
  | bind l _ ih => exact ih
  | jump l _ ih =>
    simp only [List.cons_append, List.nil_append, List.forall_mem_cons]
    exact ⟨trivial, trivial, ih⟩
  | @longer _ _ _ _ key _ _ _ held loads _ ih =>
    have operand : (e.operand key).Fits 13 := by
      cases key with
      | immediate value => exact narrow (Array.mem_of_getElem? held)
      | word _ | extended _ => trivial
    simp only [List.forall_mem_append, List.forall_mem_cons]
    exact ⟨⟨loads.immediatesFit, operand, trivial, trivial, by simp⟩, ih⟩
  | @shorter _ _ _ _ key _ _ _ _ loads _ fits _ _ ih =>
    have operand : (e.operand key).Fits 5 := by
      cases key with
      | immediate value => exact fits
      | word _ | extended _ => trivial
    have pad (separate : Bool) :
        ∀ i ∈ (if separate then [Instruction.nop] else []), i.ImmediatesFit := by
      intro i mem
      split_ifs at mem
      · obtain rfl := List.mem_singleton.1 mem
        trivial
      · contradiction
    simp only [List.forall_mem_append, List.forall_mem_cons]
    exact ⟨⟨⟨loads.immediatesFit, pad _⟩, operand, by simp⟩, ih⟩

end Emission

/-! ## Fused branches apart -/

/-- No fused branch stands directly after a branch or after another fused branch. -/
def Instruction.Apart (is : List Instruction) : Prop :=
  is.IsChain fun x y => y.isFused → ¬x.hasDelaySlot ∧ ¬x.isFused

namespace Instruction

theorem apart_append_of_not_isFused {is js : List Instruction} (h : Apart is)
    (none : ∀ j ∈ js, ¬j.isFused) : Apart (is ++ js) := by
  refine List.IsChain.append h ?_ ?_
  · exact (List.pairwise_of_forall_mem_list fun _ _ y hy fused => absurd fused (none y hy)).isChain
  · exact fun _ _ y hy fused => absurd fused (none y (List.mem_of_mem_head? hy))

theorem apart_append_singleton {is : List Instruction} {i : Instruction} (h : Apart is)
    (clear : ∀ x ∈ is.getLast?, ¬x.hasDelaySlot ∧ ¬x.isFused) : Apart (is ++ [i]) := by
  refine List.IsChain.append h (.singleton i) ?_
  intro x hx y _ _
  exact clear x hx

theorem apart_append {is js : List Instruction} {i : Instruction} (front : Apart (is ++ [i]))
    (rest : Apart (i :: js)) : Apart (is ++ i :: js) :=
  List.isChain_split.2 ⟨front, rest⟩

theorem apart_toList (last : Option Instruction) : Apart last.toList := by
  cases last with
  | none => exact .nil
  | some i => exact .singleton i

end Instruction

namespace Emission

open Instruction

variable {e : Emission} {m : Machine} {p : ConstantPool} {last : Option Instruction}
  {vs : List Event} {is : List Instruction}

/-- A load plan puts nothing in the way of a fused branch. -/
theorem Loads.getLast?_clear {key : Key} {plan : LoadPlan} (loads : e.Loads p key plan)
    (pooled : key.isPooled) :
    ∃ x, plan.instructions.getLast? = some x ∧ ¬x.hasDelaySlot ∧ ¬x.isFused := by
  obtain ⟨simple, -⟩ | ⟨-, width, o, rfl⟩ := loads.cases
  · rw [simple] at pooled
    contradiction
  · simp only [LoadPlan.atOffset]
    split_ifs
    · exact ⟨_, rfl, Bool.false_ne_true, Bool.false_ne_true⟩
    · exact ⟨_, rfl, Bool.false_ne_true, Bool.false_ne_true⟩

theorem Loads.not_isFused {key : Key} {plan : LoadPlan} (loads : e.Loads p key plan) :
    ∀ i ∈ plan.instructions, ¬i.isFused := by
  intro i mem
  obtain ⟨-, rfl⟩ | ⟨-, width, o, rfl⟩ := loads.cases
  · contradiction
  · have loading := Key.isLoading_of_mem_atOffset mem
    cases i <;> simp_all [Key.IsLoading, Instruction.isFused]

/-- What stands before a fused branch of composed code leaves room for it. -/
theorem apart_shorter {key : Key} {plan : LoadPlan} (loads : e.Loads p key plan)
    (clear : key.isPooled = false → ¬last.any (·.hasDelaySlot)) (i : Instruction) :
    Apart (last.toList ++ (plan.instructions ++
      (if !key.isPooled && last.any (·.isFused) then [.nop] else []) ++ [i])) := by
  rw [← List.append_assoc]
  apply apart_append_singleton
  · apply apart_append_of_not_isFused (apart_toList last)
    intro j mem
    rw [List.mem_append] at mem
    obtain mem | mem := mem
    · exact loads.not_isFused j mem
    · split_ifs at mem
      · obtain rfl := List.mem_singleton.1 mem
        exact Bool.false_ne_true
      · contradiction
  · cases pooled : key.isPooled with
    | true =>
      obtain ⟨x, hx, free⟩ := loads.getLast?_clear pooled
      intro y hy
      rw [Bool.not_true, Bool.false_and, if_neg Bool.false_ne_true, List.append_nil,
        List.getLast?_append, hx] at hy
      obtain rfl := Option.some.inj hy
      exact free
    | false =>
      obtain ⟨-, rfl⟩ | ⟨loaded, -⟩ := loads.cases
      · cases last with
        | none => simp
        | some x =>
          have slot := clear pooled
          cases fused : x.isFused <;> simp_all [Instruction.hasDelaySlot, Instruction.isFused]
      · rw [pooled] at loaded
        contradiction

/-- Fused branches of composed code stand apart from each other and from branches. -/
theorem Composes.apart (h : e.Composes m p last vs is) : Apart (last.toList ++ is) := by
  induction h with
  | done =>
    rw [List.append_nil]
    exact apart_toList _
  | bind l _ ih => exact ih
  | @jump last vs is l _ ih =>
    have front : Apart ((last.toList ++ [.jump l]) ++ [.nop]) :=
      apart_append_of_not_isFused (apart_append_of_not_isFused (apart_toList last)
        (by simp [Instruction.jump, Instruction.isFused])) (by simp [Instruction.isFused])
    simpa using apart_append front ih
  | @longer last vs is index key plan condition l _ loads _ ih =>
    have front : Apart ((last.toList ++ (plan.instructions ++ [.compare e.value (e.operand key),
        .branch (e.codes key) condition.flagTest true true l])) ++ [.nop]) := by
      apply apart_append_of_not_isFused
      · apply apart_append_of_not_isFused (apart_toList last)
        rw [List.forall_mem_append]
        exact ⟨loads.not_isFused, by simp [Instruction.isFused]⟩
      · simp [Instruction.isFused]
    simpa using apart_append front ih
  | @shorter _ _ _ _ key _ condition l _ loads _ _ clear _ ih =>
    have front := apart_shorter loads clear
      (.fused condition.flagTest (e.codes key) e.value (e.operand key) l)
    rw [← List.append_assoc] at front
    simpa using apart_append front ih

/-- Fused branches stand in code only for a machine that has them. -/
theorem Composes.fusedBranches (h : e.Composes m p last vs is) :
    ∀ i ∈ is, i.isFused → m.fusedBranches := by
  induction h with
  | done => simp
  | bind l _ ih => exact ih
  | jump l _ ih =>
    simp only [List.cons_append, List.nil_append, List.forall_mem_cons]
    exact ⟨fun fused => absurd fused Bool.false_ne_true,
      fun fused => absurd fused Bool.false_ne_true, ih⟩
  | longer condition l _ loads _ ih =>
    simp only [List.forall_mem_append, List.forall_mem_cons]
    exact ⟨⟨fun i mem fused => absurd fused (loads.not_isFused i mem), by
      simp [Instruction.isFused]⟩, ih⟩
  | shorter condition l _ loads has _ _ _ ih => exact fun _ _ _ => has

end Emission

/-- Whatever an accepted switch is asked for, the code grows by the blocks of what is asked for. Its
fused branches stand apart from branches and from each other, and all immediates fit. -/
theorem Switch.composes_of_run {t s : Switch} (accepted : t.check = .ok s) {routes : Routes}
    {rs : List Request} {d d' : Draft} (run : s.emission.sink.run routes rs d = .ok () d') :
    ∃ events made is, s.emission.sink.Serves routes rs #[] d events made d' ∧
      d'.code.code.toList = d.code.code.toList ++ is ∧
      s.emission.Composes d.machine d'.pool d.code.code.back? events is ∧
      (∀ i ∈ is, i.isFused → d.machine.fusedBranches) ∧
      Instruction.Apart (d.code.code.back?.toList ++ is) ∧ ∀ i ∈ is, i.ImmediatesFit := by
  obtain ⟨events, made, served⟩ := Sink.run_eq_ok_iff.1 run
  obtain ⟨-, -, is, adds⟩ := s.emission.traces_adds.serves served
  exact ⟨events, made, is, served, adds.code, adds.composes, adds.composes.fusedBranches,
    adds.composes.apart, adds.composes.immediatesFit (accepted_of_check accepted).immediates⟩

/-- Behind a branch with an empty delay slot the first comparison takes its longer form. The other
two are fused, and a `nop` separates them. -/
theorem Switch.composes_of_run_after_branch :
    let s : Switch := {
      strategy := .linear ⟨#[.immediate 1, .immediate 2, .immediate 3], [0, 1, 2], by decide⟩
      routes := ⟨#[⟨0⟩, ⟨0⟩, ⟨0⟩], ⟨0⟩, none⟩, value := ⟨8⟩, width := .word, base := some ⟨9⟩,
      scratch := ⟨1⟩ }
    let d := Draft.after [.newLabel, .bind ⟨0⟩, .append (.jump ⟨0⟩)]
      { machine := { fusedBranches := true } }
    ∃ d', s.check = .ok s ∧
      s.emission.sink.run s.routes s.strategy.requests d = .ok () d' ∧
      ∃ events made is,
        s.emission.sink.Serves s.routes s.strategy.requests #[] d events made d' ∧
        d'.code.code.toList = d.code.code.toList ++ is ∧
        s.emission.Composes d.machine d'.pool d.code.code.back? events is ∧
        (∀ i ∈ is, i.isFused → d.machine.fusedBranches) ∧
        Instruction.Apart (d.code.code.back?.toList ++ is) ∧ ∀ i ∈ is, i.ImmediatesFit := by
  intro s d
  have accepted : s.check = .ok s := rfl
  have keys : LinearSearch.ofKeys [.immediate 1, .immediate 2, .immediate 3] = .ok _ := rfl
  have distinct : d.code.Distinct := Draft.distinct_after _ (Draft.distinct_fresh _)
  obtain ⟨d', _, _, emitted, -⟩ := (accepted_of_check accepted).exists_emit (d := d)
    (.inOrder keys) (distinct.ready fun _ mem => absurd mem List.not_mem_nil)
  have run := run_of_emit emitted
  exact ⟨d', accepted, run, Switch.composes_of_run accepted run⟩

end Multiway
