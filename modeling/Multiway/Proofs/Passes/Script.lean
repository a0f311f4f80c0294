import Multiway.Proofs.Draft.History
import Multiway.Proofs.Passes.Emitting
import Multiway.Proofs.Passes.Series

/-!
# Scripts

A script is a fixed list of steps, each of which emits a switch over a search, emits `nop`s, or
binds a label that was made beforehand. It is run in one pass after another over the same draft. The
outline of its passes depends on the script alone, so each pass goes through the stages of one and
the same outline, and none of its steps fails.
-/
namespace Multiway

/-- A step of a script. -/
inductive Step where
  | emit (s : Switch)
  | nops (count : ℕ)
  | bind (l : Label)

/-- The steps of a script, in order. -/
abbrev Script := List Step

namespace Step

/-- What is done with a draft in a step. -/
def operations : Step → List Draft.Operation
  | emit s => [.emit s]
  | nops count => Draft.room count
  | bind l => [.bind l]

/-- A switch is checked and searches for its target, and all labels are among the first ones. -/
def Accepted (callers : ℕ) : Step → Prop
  | emit s => (∃ t : Switch, t.check = .ok s) ∧ s.strategy.IsSearch ∧ s.routes.Below callers
  | nops _ => True
  | bind l => l.index < callers

def bound? : Step → Option Label
  | bind l => some l
  | _ => none

def labels : Step → ℕ
  | emit s => s.strategy.labels
  | _ => 0

/-- The pieces of a step, where `next` is the index of the first label made. -/
def pieces (next : ℕ) (p : ConstantPool) : Step → List Piece
  | emit s => s.pieces next p
  | nops count => [.nops count]
  | bind l => [.mark l]

def reserve (next : ℕ) (p : ConstantPool) : Step → ConstantPool
  | emit s => s.reserve next p
  | _ => p

end Step

namespace Script

/-- What is done with a draft in a pass. -/
def operations (s : Script) : List Draft.Operation := s.flatMap Step.operations

/-- The labels that a script binds itself. -/
def bound (s : Script) : List Label := s.filterMap Step.bound?

/-- The number of labels that the searches make. -/
def labels (s : Script) : ℕ := (s.map Step.labels).sum

/-- The pieces of a script, where `next` is the index of the first label made. -/
def pieces : Script → ℕ → ConstantPool → Outline
  | [], _, _ => []
  | x :: xs, next, p => x.pieces next p ++ pieces xs (next + x.labels) (x.reserve next p)

def reserve : Script → ℕ → ConstantPool → ConstantPool
  | [], _, p => p
  | x :: xs, next, p => reserve xs (next + x.labels) (x.reserve next p)

/-- The outline of every pass over a script. -/
def outline (s : Script) (callers : ℕ) : Outline := s.pieces callers .empty

/-- A fresh draft after some passes over a script, with labels made beforehand. -/
def afterPasses (s : Script) (m : Machine) (callers : ℕ) : ℕ → Draft
  | 0 => Draft.after (List.replicate callers .newLabel) { machine := m }
  | n + 1 => Draft.after (.nextPass :: s.operations) (s.afterPasses m callers n)

@[simp] theorem operations_cons (x : Step) (xs : Script) :
    operations (x :: xs) = x.operations ++ operations xs := List.flatMap_cons

theorem labels_cons (x : Step) (xs : Script) : labels (x :: xs) = x.labels + labels xs := by
  rw [labels, List.map_cons, List.sum_cons]
  rfl

end Script

namespace Outline.Stage

variable {P : Outline} {m : Machine} {callers : ℕ} {before : Option Forms} {i u : ℕ}
  {p : ConstantPool} {d : Draft}

theorem step (h : Stage P m callers before i u p d) (once : P.BindsOnce) {x : Step}
    (accepted : x.Accepted callers) (pieces : P.Continues i (x.pieces (callers + u) p)) :
    (∀ r ∈ Draft.responses x.operations d, r = .done) ∧
      Stage P m callers before (i + (x.pieces (callers + u) p).length) (u + x.labels)
        (x.reserve (callers + u) p) (Draft.after x.operations d) := by
  cases x with
  | emit s =>
    obtain ⟨⟨t, checked⟩, search, -⟩ := accepted
    obtain ⟨d', emitted, stage⟩ := h.emit once (Switch.accepted_of_check checked) search pieces
    have responds : d.respond (.emit s) = (.done, d') := by
      rw [Draft.respond, emitted]
    constructor
    · intro r mem
      rw [Step.operations, Draft.responses, responds] at mem
      exact List.mem_singleton.1 mem
    · rw [Step.operations, Draft.after, List.foldl_cons, responds]
      exact stage
  | nops count =>
    constructor
    · intro r mem
      rw [Step.operations, Draft.responses_room] at mem
      exact List.eq_of_mem_replicate mem
    · rw [Step.operations, Draft.after_room]
      exact h.emitAll pieces.cons.1 rfl
  | bind l =>
    have piece := pieces.cons.1
    obtain ⟨code, bound, stage⟩ :=
      h.bind piece (once.mark?_eq_none piece) (Nat.lt_add_right u accepted)
    have responds : d.respond (.bind l) = (.done, { d with code }) := by
      rw [Draft.respond, bound]
    constructor
    · intro r mem
      rw [Step.operations, Draft.responses, responds] at mem
      exact List.mem_singleton.1 mem
    · rw [Step.operations, Draft.after, List.foldl_cons, responds]
      exact stage

/-- No step of a script fails, and together they lead through the pieces of the script. -/
theorem script (h : Stage P m callers before i u p d) (once : P.BindsOnce) {s : Script}
    (accepted : ∀ x ∈ s, x.Accepted callers)
    (pieces : P.Continues i (s.pieces (callers + u) p)) :
    (∀ r ∈ Draft.responses s.operations d, r = .done) ∧
      Stage P m callers before (i + (s.pieces (callers + u) p).length) (u + s.labels)
        (s.reserve (callers + u) p) (Draft.after s.operations d) := by
  induction s generalizing i u p d with
  | nil => exact ⟨fun r mem => absurd mem List.not_mem_nil, h⟩
  | cons x xs ih =>
    rw [Script.pieces] at pieces
    obtain ⟨first, rest⟩ := pieces.append
    obtain ⟨done, stage⟩ := h.step once (accepted x List.mem_cons_self) first
    rw [Nat.add_assoc] at rest
    obtain ⟨doneRest, stageRest⟩ :=
      ih stage (fun y mem => accepted y (List.mem_cons_of_mem _ mem)) rest
    rw [Script.operations_cons, Draft.responses_append, Draft.after_append, Script.labels_cons,
      Script.pieces, Script.reserve, List.length_append]
    constructor
    · intro r mem
      obtain mem | mem := List.mem_append.1 mem
      · exact done r mem
      · exact doneRest r mem
    · simpa [Nat.add_assoc] using stageRest

/-- A pass that is finished leaves its hints to the next one. -/
theorem nextPass (h : Stage P m callers before P.length u p d) :
    Stage P m callers (some (P.forms m before)) 0 0 .empty d.nextPass where
  machine := h.machine
  pool := rfl
  code := rfl
  positions l := by
    simp only [Draft.nextPass, CodeBuffer.nextPass, CodeBuffer.position?,
      Array.getElem?_replicate]
    split_ifs <;> rfl
  hints l := Std.ExtHashMap.getElem?_empty
  measured l := by
    rw [Draft.nextPass, CodeBuffer.measured_nextPass, h.hints, h.measured, measured?, measured?,
      Option.bind_some]
    -- a hint is complete in one pass exactly if it is in the other
    cases before with
    | none => simp
    | some G =>
      rw [Option.bind_some, hint?, hint?]
      cases P.first? P.length l with
      | none => rfl
      | some j => cases P.mark? P.length l <;> simp [Hint.isComplete, Option.filter_some]
  supply := by
    obtain ⟨count, locals, -, -⟩ := h.supply
    refine ⟨?_, locals, rfl, Nat.zero_le _⟩
    simpa [Draft.nextPass, CodeBuffer.nextPass, CodeBuffer.labelCount] using count

end Outline.Stage

namespace Script

theorem after_newLabels (n : ℕ) (d : Draft) :
    Draft.after (List.replicate n .newLabel) d =
      { d with code.positions := d.code.positions ++ Array.replicate n none } := by
  induction n generalizing d with
  | zero => simp [Draft.after]
  | succ n ih =>
    have rest := ih { d with code.positions := d.code.positions.push none }
    have positions : d.code.positions.push none ++ Array.replicate n none =
        d.code.positions ++ Array.replicate (n + 1) none := by
      rw [Array.push_eq_append, Array.append_assoc, Array.replicate_succ']
    rw [positions] at rest
    exact rest

variable {s : Script} {m : Machine} {callers : ℕ}

theorem stage_fresh (P : Outline) :
    P.Stage m callers none 0 0 .empty (s.afterPasses m callers 0).nextPass := by
  rw [afterPasses, after_newLabels]
  refine ⟨rfl, rfl, rfl, ?_, fun _ => Std.ExtHashMap.getElem?_empty, ?_, ?_⟩
  · intro l
    simp only [Draft.nextPass, CodeBuffer.nextPass, CodeBuffer.position?,
      Array.getElem?_replicate]
    split_ifs <;> rfl
  · intro l
    simp only [Draft.nextPass, CodeBuffer.nextPass, Outline.measured?,
      Std.ExtHashMap.getElem?_union, Std.ExtHashMap.getElem?_filter', Std.ExtHashMap.getElem?_empty]
    rfl
  · refine ⟨?_, fun n hn => ?_, rfl, le_rfl⟩
    · simp [Draft.nextPass, CodeBuffer.nextPass, CodeBuffer.labelCount]
    · simp [Draft.nextPass, CodeBuffer.nextPass] at hn

/-- Every pass over a script goes through without an error, and builds the same outline in the
forms that the passes before determine. -/
theorem stage_afterPasses (accepted : ∀ x ∈ s, x.Accepted callers)
    (once : (s.outline callers).BindsOnce) (n : ℕ) :
    (∀ r ∈ Draft.responses s.operations (s.afterPasses m callers n).nextPass, r = .done) ∧
      (s.outline callers).Stage m callers ((s.outline callers).formsBefore m n)
        (s.outline callers).length s.labels (s.reserve callers .empty)
        (s.afterPasses m callers (n + 1)) := by
  have continues : (s.outline callers).Continues 0 (s.pieces (callers + 0) .empty) :=
    ⟨[], List.append_nil _⟩
  have start : (s.outline callers).Stage m callers ((s.outline callers).formsBefore m n) 0 0
      .empty (s.afterPasses m callers n).nextPass := by
    induction n with
    | zero => exact stage_fresh _
    | succ n ih =>
      have passed := (ih.script once accepted continues).2
      rw [Nat.zero_add] at passed
      have next := passed.nextPass
      rwa [← Outline.formsOf_eq] at next
  have passed := start.script once accepted continues
  rw [Nat.zero_add, Nat.zero_add] at passed
  exact passed

end Script

end Multiway
