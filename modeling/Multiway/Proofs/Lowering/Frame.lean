import Multiway.Proofs.Draft.Failure
import Multiway.Proofs.Execution.Frame
import Multiway.Proofs.Lowering.Simulation
import Multiway.Proofs.Lowering.Success

/-!
# Registers of emitted code

What a switch emits writes the scratch register only, and only to load keys. It compares nothing but
the dispatched value, and loads from nothing but the base of the constant pool. The check tells the
scratch register from the dispatched value, so the value is the same at each comparison. It does not
tell the scratch register from the base. If they are the same, the first load leaves a key where the
next one takes the base from.
-/
namespace Multiway

namespace Emission

variable {e : Emission}

/-- The instruction compares the dispatched value, or writes the scratch register, which it loads
from the base if it is a load. -/
def Uses (e : Emission) : Instruction → Prop
  | .compare left _ => left = e.value
  | .fused _ _ left _ _ => left = e.value
  | .setHigh _ dest => dest = e.scratch
  | .or left _ dest => left = e.scratch ∧ dest = e.scratch
  | .load _ base _ dest => base = e.base ∧ dest = e.scratch
  | .branch .. | .nop => True

theorem Uses.eq_scratch {i : Instruction} (h : e.Uses i) {r : Register} (dest : i.dest? = some r) :
    r = e.scratch := by
  cases i with
  | setHigh value d => exact (Option.some.inj dest).symm.trans h
  | or left right d => exact (Option.some.inj dest).symm.trans h.2
  | load width base offset d => exact (Option.some.inj dest).symm.trans h.2
  | compare | branch | fused | nop => contradiction

/-- Whether an event is a test for a key in the constant pool. -/
def needsLoad (e : Emission) : Event → Bool
  | .test index _ _ => e.keys[index]?.any (·.isPooled)
  | _ => false

variable {p : ConstantPool}

theorem uses_of_mem_atOffset {width : Width} {offset : ℕ} {i : Instruction}
    (mem : i ∈ (LoadPlan.atOffset width e.base e.scratch offset).instructions) : e.Uses i := by
  simp only [LoadPlan.atOffset] at mem
  split_ifs at mem
  · obtain rfl := List.mem_singleton.1 mem
    exact ⟨rfl, rfl⟩
  · simp only [List.mem_cons, List.not_mem_nil, or_false] at mem
    obtain rfl | rfl | rfl := mem
    · rfl
    · exact ⟨rfl, rfl⟩
    · exact ⟨rfl, rfl⟩

/-- A key from the pool is left in the scratch register. -/
theorem exists_dest_atOffset (width : Width) (base scratch : Register) (offset : ℕ) :
    ∃ i ∈ (LoadPlan.atOffset width base scratch offset).instructions, i.dest? = some scratch := by
  simp only [LoadPlan.atOffset]
  split_ifs
  · exact ⟨_, List.mem_singleton_self _, rfl⟩
  · exact ⟨_, List.mem_cons_self, rfl⟩

/-- What follows the load in a comparison compares the dispatched value and writes no register. -/
theorem uses_of_mem_comparison {plan : LoadPlan} {key : Key} {condition : Condition} {l : Label}
    {fused padded : Bool} {i : Instruction}
    (mem : i ∈ e.comparison plan key condition l fused padded) :
    i ∈ plan.instructions ∨ e.Uses i ∧ i.dest? = none := by
  obtain load | rest := List.mem_append.1 mem
  · exact Or.inl load
  · right
    split_ifs at rest <;> simp only [List.mem_append, List.mem_cons, List.not_mem_nil, or_false,
      false_or] at rest
    · obtain rfl | rfl := rest
      · exact ⟨trivial, rfl⟩
      · exact ⟨rfl, rfl⟩
    · subst rest
      exact ⟨rfl, rfl⟩
    · obtain rfl | rfl | rfl := rest
      · exact ⟨rfl, rfl⟩
      · exact ⟨trivial, rfl⟩
      · exact ⟨trivial, rfl⟩

theorem Lowers.uses {v : Event} {is : List Instruction} (h : e.Lowers p v is) :
    ∀ i ∈ is, e.Uses i := by
  intro i mem
  cases h with
  | test _ _ _ _ loads _ =>
    obtain load | ⟨uses, -⟩ := uses_of_mem_comparison mem
    · obtain ⟨-, rfl⟩ | ⟨-, width, offset, rfl⟩ := loads.cases
      · contradiction
      · exact uses_of_mem_atOffset load
    · exact uses
  | jump =>
    simp only [List.mem_cons, List.not_mem_nil, or_false] at mem
    obtain rfl | rfl := mem <;> trivial
  | bind => contradiction

/-- The block of an event writes a register exactly if it is about a key in the pool. -/
theorem Lowers.exists_dest_iff {v : Event} {is : List Instruction} (h : e.Lowers p v is) :
    (∃ i ∈ is, i.dest? = some e.scratch) ↔ e.needsLoad v := by
  cases h with
  | test condition l padded held loads _ =>
    rw [needsLoad, held, Option.any_some]
    constructor
    · rintro ⟨i, mem, dest⟩
      obtain load | ⟨-, none⟩ := uses_of_mem_comparison mem
      · obtain ⟨-, rfl⟩ | ⟨pooled, -⟩ := loads.cases
        · contradiction
        · exact pooled
      · rw [none] at dest
        contradiction
    · intro pooled
      obtain ⟨simple, -⟩ | ⟨-, width, offset, rfl⟩ := loads.cases
      · rw [simple] at pooled
        contradiction
      · obtain ⟨i, mem, dest⟩ := exists_dest_atOffset width e.base e.scratch offset
        exact ⟨i, List.mem_append_left _ mem, dest⟩
  | jump l => simp [needsLoad, Instruction.jump, Instruction.dest?]
  | bind l => simp [needsLoad]

/-- What a run adds uses registers as its blocks do. -/
theorem Grows.uses {d d' : Draft} {bs : List Block} (h : e.Grows d bs d') :
    (∀ i ∈ Block.codeOf bs, e.Uses i) ∧
      ((∃ i ∈ Block.codeOf bs, i.dest? = some e.scratch) ↔
        ∃ v ∈ bs.map Block.event, e.needsLoad v) := by
  constructor
  · intro i mem
    obtain ⟨b, block, mem⟩ := List.mem_flatMap.1 mem
    exact (h.lowers b block).uses i mem
  · constructor
    · rintro ⟨i, mem, dest⟩
      obtain ⟨b, block, mem⟩ := List.mem_flatMap.1 mem
      exact ⟨b.event, List.mem_map_of_mem block,
        (h.lowers b block).exists_dest_iff.1 ⟨i, mem, dest⟩⟩
    · rintro ⟨v, mem, loads⟩
      obtain ⟨b, block, rfl⟩ := List.mem_map.1 mem
      obtain ⟨i, mem, dest⟩ := (h.lowers b block).exists_dest_iff.2 loads
      exact ⟨i, List.mem_flatMap.2 ⟨b, block, mem⟩, dest⟩

end Emission

namespace Switch

variable {s : Switch} {d d' : Draft}

theorem code_of_emit_error {e : Error} (failed : s.emit d = .error e d') :
    d'.code.code = d.code.code := by
  obtain ⟨x, evolves, rfl⟩ := emit_error failed
  exact evolves.1.code.code_rewind

/-- The base of an accepted switch is the scratch register only if it is given as such. -/
theorem Accepted.base_eq_scratch_iff (h : s.Accepted) :
    s.emission.base = s.scratch ↔ s.base = some s.scratch := by
  cases given : s.base with
  | some r => simp [emission, given]
  | none =>
    have zero : Register.zero ≠ s.scratch := fun same =>
      h.scratch_ne_zero (by simp [← same, Register.isZero])
    simp [emission, given, zero]

/-- The code that an accepted switch adds writes no register but the scratch register, which is not
that of the dispatched value. It writes the base exactly if that is the scratch register and a key
is loaded. What it does not write is the same after any number of steps. -/
structure Frames (s : Switch) (d d' : Draft) (events : List Event) (is : List Instruction) :
    Prop where
  code : d'.code.code.toList = d.code.code.toList ++ is
  uses : ∀ i ∈ is, s.emission.Uses i
  value : ∀ i ∈ is, i.dest? ≠ some s.value
  base_iff : (∃ i ∈ is, i.dest? = some s.emission.base) ↔
    s.base = some s.scratch ∧ ∃ v ∈ events, s.emission.needsLoad v
  run : ∀ (m : Memory) (p : Processor) (n : ℕ) (x : Execution),
    Path ((d.appended d').step m) n (.arriving p (.inside 0)) x →
      x.processor.read s.value = p.read s.value ∧
      ((∀ i ∈ is, i.dest? ≠ some s.emission.base) →
        x.processor.read s.emission.base = p.read s.emission.base)

theorem Accepted.exists_frames (h : s.Accepted) (emitted : s.emit d = .ok () d') :
    ∃ events made is, s.emission.sink.Serves s.routes s.strategy.requests #[] d events made d' ∧
      s.Frames d d' events is := by
  obtain ⟨events, made, served⟩ := Sink.run_eq_ok_iff.1 (run_of_emit emitted)
  obtain ⟨bs, rfl, grows⟩ := Emission.grows_of_serves served
  obtain ⟨uses, loads⟩ := grows.uses
  have value : ∀ i ∈ Block.codeOf bs, i.dest? ≠ some s.value := fun i mem dest =>
    h.scratch_ne_value ((uses i mem).eq_scratch dest).symm
  refine ⟨_, made, Block.codeOf bs, served, grows.code, uses, value, ?_, fun m p n x path => ?_⟩
  · rw [← h.base_eq_scratch_iff, ← loads]
    constructor
    · rintro ⟨i, mem, dest⟩
      have same := (uses i mem).eq_scratch dest
      exact ⟨same, i, mem, by rw [dest, same]⟩
    · rintro ⟨same, i, mem, dest⟩
      exact ⟨i, mem, by rw [dest, same]; rfl⟩
  · rw [grows.appended] at path
    exact ⟨Fragment.read_path value path, fun base => Fragment.read_path base path⟩

/-- What an accepted switch adds to a draft leaves the dispatched value alone, and the base unless
that is the scratch register. A switch that cannot be emitted adds nothing. -/
theorem frames_of_check {t s : Switch} (accepted : t.check = .ok s) (d : Draft) :
    (∀ e d', s.emit d = .error e d' → d'.code.code = d.code.code) ∧
    ∀ d', s.emit d = .ok () d' → ∃ events made is,
      s.emission.sink.Serves s.routes s.strategy.requests #[] d events made d' ∧
      s.Frames d d' events is :=
  ⟨fun _ _ failed => code_of_emit_error failed,
    fun _ emitted => (accepted_of_check accepted).exists_frames emitted⟩

/-- A search loads two keys behind a label, from a base of its own. -/
theorem frames_of_check_words :
    let s : Switch := {
      strategy := .linear ⟨#[.word 7, .word 9], [0, 1], by decide⟩
      routes := ⟨#[⟨0⟩, ⟨0⟩], ⟨0⟩, none⟩, value := ⟨8⟩, width := .word, base := some ⟨9⟩,
      scratch := ⟨1⟩ }
    let d := Draft.after [.newLabel, .bind ⟨0⟩] {}
    s.check = .ok s ∧ ∃ d', s.emit d = .ok () d' ∧ ∃ events made is,
      s.emission.sink.Serves s.routes s.strategy.requests #[] d events made d' ∧
      s.Frames d d' events is := by
  intro s d
  have accepted : s.check = .ok s := rfl
  have keys : LinearSearch.ofKeys [.word 7, .word 9] = .ok _ := rfl
  have distinct : d.code.Distinct := Draft.distinct_after _ (Draft.distinct_fresh {})
  obtain ⟨d', events, made, emitted, served⟩ := (accepted_of_check accepted).exists_emit
    (d := d) (.inOrder keys) (distinct.ready fun _ mem => absurd mem List.not_mem_nil)
  exact ⟨accepted, d', emitted, (frames_of_check accepted d).2 d' emitted⟩

/-- A switch whose scratch register is its base is accepted, and writes the base. -/
theorem writes_base_of_alias :
    let s : Switch := {
      strategy := .linear ⟨#[.word 7, .word 9], [0, 1], by decide⟩
      routes := ⟨#[⟨0⟩, ⟨1⟩], ⟨2⟩, none⟩, value := ⟨8⟩, width := .word, base := some ⟨1⟩,
      scratch := ⟨1⟩ }
    let d := Draft.after [.newLabel, .newLabel, .newLabel] {}
    s.check = .ok s ∧ s.strategy.IsSearch ∧ ∃ d' is, s.emit d = .ok () d' ∧
      d'.code.code.toList = d.code.code.toList ++ is ∧ ∃ i ∈ is, i.dest? = s.base := by
  intro s d
  have fit : s.Accepted := accepted_of_check (t := s) rfl
  have keys : LinearSearch.ofKeys [.word 7, .word 9] = .ok _ := rfl
  have search : s.strategy.IsSearch := .inOrder keys
  have distinct : d.code.Distinct := Draft.distinct_after _ (Draft.distinct_fresh {})
  obtain ⟨d', events, made, emitted, -⟩ := fit.exists_emit
    (d := d) search (distinct.ready fun _ mem => absurd mem List.not_mem_nil)
  obtain ⟨events, made, is, served, frames⟩ := fit.exists_frames emitted
  have first : .test 0 .equal ⟨0⟩ ∈ events := by
    rw [served.events_eq (numbers_getD made ⟨2⟩)]
    exact List.mem_cons_self
  exact ⟨rfl, search, d', is, emitted, frames.code, frames.base_iff.2 ⟨rfl, _, first, rfl⟩⟩

end Switch

end Multiway
