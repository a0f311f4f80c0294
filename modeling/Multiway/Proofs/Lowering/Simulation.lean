import Multiway.Proofs.Dispatch.Program
import Multiway.Proofs.Lowering.Comparison
import Multiway.Proofs.Lowering.Success

/-!
# Emitted code behaves as its events

The code that an accepted switch adds to a draft is run by a processor, and the events of the switch
are run as a program. Both depart in the same way: each event is followed by the instructions of
its block, which arrive at the block of the next event. The blocks change nothing but the scratch
register and the flags, so the dispatched value and the base of the constant pool stay what they
are.
-/
namespace Multiway

namespace Block

variable (bs : List Block)

/-- The code of blocks, with the labels that are bound in it. -/
def fragment : Fragment where
  code := codeOf bs
  site? := site? bs

/-- Where the `n`th block begins. -/
def start (n : ℕ) : ℕ := (codeOf (bs.take n)).length

variable {bs}

theorem start_succ {n : ℕ} {b : Block} (h : bs[n]? = some b) :
    start bs (n + 1) = start bs n + b.code.length := by
  rw [start, List.take_add_one, h, codeOf_append, List.length_append]
  simp [start, codeOf]

theorem has_start {n : ℕ} {b : Block} (h : bs[n]? = some b) :
    (fragment bs).Has (start bs n) b.code := by
  have split : bs = bs.take n ++ b :: bs.drop (n + 1) := by
    obtain ⟨inside, rfl⟩ := List.getElem?_eq_some_iff.1 h
    rw [← List.drop_eq_getElem_cons, List.take_append_drop]
  have code : codeOf bs = codeOf (bs.take n) ++ b.code ++ codeOf (bs.drop (n + 1)) := by
    rw [List.append_assoc]
    conv_lhs => rw [split, codeOf_append]
    rfl
  exact Fragment.has_of_code_eq code

/-- A label is found at the start of the block that binds it. -/
theorem site?_eq (l : Label) :
    site? bs l =
      if .bind l ∈ bs.map event then some (start bs ((bs.map event).idxOf (.bind l)))
      else none := by
  induction bs with
  | nil => rfl
  | cons b bs ih =>
    by_cases here : b.event = .bind l
    · simp [site?, here, start]
    · have other : Event.bind l ≠ b.event := fun same => here same.symm
      simp only [site?, if_neg here, ih, List.map_cons, List.mem_cons, other, false_or]
      split_ifs
      · rw [List.idxOf_cons, beq_eq_false_iff_ne.2 here]
        simp [start, codeOf]
      · rfl

end Block

namespace Emission

open Block

section

variable {e : Emission} {bs : List Block} {p : Processor} {m : Memory}

/-- The program is at an event, and the processor arrives at its block. -/
def Reaches (e : Emission) (bs : List Block) (p : Processor) (n : ℕ) (x : Execution) : Prop :=
  n ≤ bs.length ∧ ∃ q, e.Agrees p q ∧ x = .arriving q (.inside (start bs n))

theorem reaches_succ {n : ℕ} {b : Block} {q : Processor} (h : bs[n]? = some b)
    (agrees : e.Agrees p q) :
    e.Reaches bs p (n + 1) (.arriving q (.inside (start bs n + b.code.length))) := by
  obtain ⟨inside, -⟩ := List.getElem?_eq_some_iff.1 h
  exact ⟨inside, q, agrees, by rw [start_succ h]⟩

/-- Going to a label leads the processor where it leads the program. -/
theorem follows_goto (l : Label) {k : ℕ} {q : Processor} {x : Execution} (positive : 0 < k)
    (agrees : e.Agrees p q)
    (path : Path ((fragment bs).step m) k x (.arriving q ((fragment bs).place l)))
    (patience : ℕ → ℕ) (n : ℕ) :
    KeepsUp ((fragment bs).step m) (e.Reaches bs p) patience n x
      (Program.goto (bs.map event) l) := by
  unfold Program.goto
  by_cases bound : .bind l ∈ bs.map event
  · have place : (fragment bs).place l =
        .inside (start bs ((bs.map event).idxOf (.bind l))) := by
      simp only [Fragment.place, fragment, site?_eq, if_pos bound]
    rw [if_pos bound]
    refine ⟨k, _, path, ⟨?_, q, agrees, by rw [place]⟩, Or.inl positive⟩
    have := List.idxOf_lt_length_of_mem bound
    rw [List.length_map] at this
    exact this.le
  · have place : (fragment bs).place l = .outside l 0 := by
      simp only [Fragment.place, fragment, site?_eq, if_neg bound]
    rw [if_neg bound]
    refine ⟨k, _, path, ?_⟩
    rw [place]
    simp [Fragment.step, Execution.arriving]

/-- The processor follows each step of the program. -/
theorem follows_step {pool : ConstantPool} (checked : e.Checked) (base : e.base ≠ e.scratch)
    (sound : pool.Sound) (small : pool.size < modulus 32)
    (memory : m.HoldsPool (p.read e.base) pool)
    (lowers : ∀ b ∈ bs, e.Lowers pool b.event b.code) :
    Follows (Program.step (bs.map event) (e.holds (p.read e.value))) ((fragment bs).step m)
      (e.Reaches bs p) (bs.length - ·) := by
  rintro n _ ⟨within, q, agrees, rfl⟩
  unfold Program.step
  rw [List.getElem?_map]
  cases block : bs[n]? with
  | none =>
    have outside : bs.length ≤ n := List.getElem?_eq_none_iff.1 block
    refine ⟨0, _, .stay _, ?_⟩
    have start_eq : start bs n = (codeOf bs).length := by
      rw [start, List.take_of_length_le outside]
    simp [Fragment.step, Execution.arriving, start_eq, fragment]
  | some b =>
    have lowered := lowers b (List.mem_of_getElem? block)
    have has := has_start block
    simp only [Option.map_some]
    cases event : b.event with
    | test index condition l =>
      rw [event] at lowered
      obtain ⟨k, q', positive, agrees', path⟩ :=
        path_test checked base sound small memory agrees lowered has
      simp only
      split_ifs at path ⊢ with holds
      · exact follows_goto l positive agrees' path _ n
      · exact ⟨k, _, path, reaches_succ block agrees', Or.inl positive⟩
    | jump l =>
      rw [event] at lowered
      exact follows_goto l (by decide) agrees (path_jump lowered has) _ n
    | bind l =>
      rw [event] at lowered
      obtain ⟨inside, -⟩ := List.getElem?_eq_some_iff.1 block
      have empty : b.code = [] := by
        cases code : b.code with
        | nil => rfl
        | cons i is =>
          rw [code] at lowered
          cases lowered
      have next := reaches_succ block agrees
      rw [empty] at next
      exact ⟨0, _, .stay _, next, Or.inr (Nat.sub_lt_sub_left inside (Nat.lt_succ_self n))⟩

end

end Emission

/-- What the second draft has more than the first one: code, and labels that are bound in it. -/
def Draft.appended (d d' : Draft) : Fragment where
  code := d'.code.code.toList.drop d.code.code.size
  site? l :=
    if d.code.position? l = none then
      (d'.code.position? l).map fun p => p / instructionBytes - d.code.code.size
    else none

theorem Emission.Grows.appended {e : Emission} {d d' : Draft} {bs : List Block}
    (h : e.Grows d bs d') : d.appended d' = Block.fragment bs := by
  have code : d'.code.code.toList.drop d.code.code.size = Block.codeOf bs := by
    rw [h.code, ← Array.length_toList, List.drop_left]
  have sites : (d.appended d').site? = Block.site? bs := by
    funext l
    simp only [Draft.appended]
    split_ifs with unbound
    · rw [h.bound unbound]
      cases Block.site? bs l with
      | none => rfl
      | some n => simp [instructionBytes]
    · cases found : Block.site? bs l with
      | none => rfl
      | some n =>
        obtain ⟨b, mem, event⟩ := Block.exists_of_site? found
        exact absurd (h.fresh b mem event) unbound
  rw [Block.fragment, ← code, ← sites]
  rfl

theorem Switch.Accepted.checked {s : Switch} (h : s.Accepted) : s.emission.Checked where
  scratch_ne_zero := h.scratch_ne_zero
  value_ne_scratch := h.scratch_ne_value.symm
  immediates := h.immediates

/-- The code that an accepted switch adds to a draft departs as the events of the switch do, for
whatever a register file holds and memory holds beside the constant pool. -/
theorem Switch.departs_iff_of_emit {t s : Switch} (accepted : t.check = .ok s)
    (base : s.base ≠ some s.scratch) {d d' : Draft} {marks : List ConstantPool.Mark}
    (reached : d.pool.Reached marks) (small : d'.pool.size < modulus 32)
    (emitted : s.emit d = .ok () d') :
    ∃ events made, s.emission.sink.Serves s.routes s.strategy.requests #[] d events made d' ∧
      ∀ (p : Processor) (m : Memory), m.HoldsPool (p.read s.emission.base) d'.pool →
        ∀ departure,
          (Departs ((d.appended d').step m) (.arriving p (.inside 0)) departure ↔
            Departs (Program.step events (s.emission.holds (p.read s.value))) 0 departure) ∧
          (Departs ((d.appended d').step m) (.arriving p (.inside 0)) departure →
            departure ≠ .astray) := by
  have checked := (accepted_of_check accepted).checked
  have base_ne : s.emission.base ≠ s.emission.scratch := by
    intro same
    cases given : s.base with
    | none =>
      simp only [emission, given, Option.getD_none] at same
      exact checked.scratch_ne_zero (by simp [emission, ← same, Register.isZero])
    | some r =>
      simp only [emission, given, Option.getD_some] at same
      exact base (by rw [given, same])
  obtain ⟨events, made, served⟩ := Sink.run_eq_ok_iff.1 (run_of_emit emitted)
  obtain ⟨bs, rfl, grows⟩ := Emission.grows_of_serves served
  have sound := grows.sound reached.sound
  refine ⟨_, made, served, fun p m memory departure => ?_⟩
  have alike := departs_iff_of_follows
    (Emission.follows_step checked base_ne sound small memory grows.lowers)
    (show s.emission.Reaches bs p 0 (.arriving p (.inside 0)) from
      ⟨Nat.zero_le _, p, fun _ _ => rfl, rfl⟩) departure
  rw [grows.appended]
  refine ⟨alike, fun departs => ?_⟩
  rintro rfl
  exact Program.not_departs_astray (alike.1 departs)

/-- A switch over keys of all kinds is emitted behind a label that two of its keys lead back to. -/
theorem Switch.departs_iff_of_emit_mixed :
    let d := Draft.after [.newLabel, .newLabel, .bind ⟨0⟩] { machine := { fusedBranches := true } }
    let e := mixed.emission
    ∃ d', mixed.check = .ok mixed ∧ mixed.base ≠ some mixed.scratch ∧ d.pool.Reached [] ∧
      d'.pool.size < modulus 32 ∧ mixed.emit d = .ok () d' ∧
      ∃ events made, e.sink.Serves mixed.routes mixed.strategy.requests #[] d events made d' ∧
        ∀ (p : Processor) (m : Memory), m.HoldsPool (p.read e.base) d'.pool →
          ∀ departure,
            (Departs ((d.appended d').step m) (.arriving p (.inside 0)) departure ↔
              Departs (Program.step events (e.holds (p.read mixed.value))) 0 departure) ∧
            (Departs ((d.appended d').step m) (.arriving p (.inside 0)) departure →
              departure ≠ .astray) := by
  intro d e
  have distinct : d.code.Distinct := Draft.distinct_after _ (Draft.distinct_fresh _)
  obtain ⟨d', emitted, bound⟩ := exists_emit_mixed (d := d)
    (distinct.ready fun _ mem => absurd mem List.not_mem_nil)
  have small : d'.pool.size < modulus 32 := bound.trans_lt (by decide)
  exact ⟨d', rfl, by decide, .empty, small, emitted,
    Switch.departs_iff_of_emit (t := mixed) rfl (by decide) .empty small emitted⟩

end Multiway
