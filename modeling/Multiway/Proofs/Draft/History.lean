import Multiway.Proofs.Draft.Evolution

/-!
# Histories of a draft

A draft has a history of operations, each of which gives a response: labels are made and bound,
hints are asked for, instructions and constants are added, strategies make requests, switches are
emitted, former marks are rewound to, passes begin, and the code is laid out. Every history leads to
a consistent draft.
-/
namespace Multiway

namespace Draft

/-- What may be done with a draft. -/
inductive Operation where
  | newLabel
  | localLabel
  | bind (l : Label)
  | hint (l : Label)
  | append (i : Instruction)
  | separateFused
  | intern (c : Constant)
  | requests (e : Emission) (routes : Routes) (rs : List Request)
  | emit (s : Switch)
  | configure (m : Machine)
  | mark
  | rewind (m : Mark)
  | nextPass
  | finish
  /-- Shows the code, the positions of all labels and the constants. -/
  | inspect

/-- What comes of an operation. -/
inductive Response where
  | done
  | refused
  | failed (e : Error)
  | label (l : Label)
  | hint (h : Hint)
  | offset (n : ℕ)
  | answers (outcomes : List (Except Error Answer))
  | mark (m : Mark)
  | image (result : Except Error Image)
  | contents (code : Array Instruction) (positions : Array (Option ℕ)) (data : Array UInt8)

/-- The response to an operation, and the draft after it. -/
def respond (d : Draft) : Operation → Response × Draft
  | .newLabel =>
    let (l, code) := d.code.newLabel
    (.label l, { d with code })
  | .localLabel =>
    let (l, code) := d.code.localLabel
    (.label l, { d with code })
  | .bind l =>
    match d.code.bind l with
    | .ok code => (.done, { d with code })
    | .error e => (.failed e, d)
  | .hint l =>
    let (hint, code) := d.code.hintFor l
    (.hint hint, { d with code })
  | .append i => (.done, { d with code := d.code.emit i })
  | .separateFused => (.done, { d with code := d.code.separateFused })
  | .intern c =>
    let (offset, pool) := d.pool.intern c
    (.offset offset, { d with pool })
  | .requests e routes rs =>
    let (outcomes, progress) := e.sink.answers routes rs { state := d }
    (.answers outcomes, progress.state)
  | .emit s =>
    match s.emit d with
    | .ok _ d => (.done, d)
    | .error e d => (.failed e, d)
  | .configure machine => (.done, { d with machine })
  | .mark => (.mark d.mark, d)
  | .rewind m =>
    match d.rewind? m with
    | some d => (.done, d)
    | none => (.refused, d)
  | .nextPass => (.done, d.nextPass)
  | .finish => (.image d.finish, d)
  | .inspect => (.contents d.code.code d.code.positions d.pool.bytes, d)

def responses : List Operation → Draft → List Response
  | [], _ => []
  | o :: os, d => (d.respond o).1 :: responses os (d.respond o).2

def after (os : List Operation) (d : Draft) : Draft :=
  os.foldl (fun d o => (d.respond o).2) d

theorem responses_append (os os' : List Operation) (d : Draft) :
    responses (os ++ os') d = responses os d ++ responses os' (after os d) := by
  induction os generalizing d with
  | nil => rfl
  | cons o os ih =>
    rw [List.cons_append, responses, ih]
    rfl

theorem after_append (os os' : List Operation) (d : Draft) :
    after (os ++ os') d = after os' (after os d) := List.foldl_append

/-- Instructions that do nothing but take room. -/
def room (n : ℕ) : List Operation := List.replicate n (.append .nop)

theorem after_room (n : ℕ) (d : Draft) :
    after (room n) d = { d with code := d.code.emitAll (List.replicate n .nop) } := by
  induction n generalizing d with
  | zero => rfl
  | succ n ih =>
    rw [room, List.replicate_succ]
    exact ih { d with code := d.code.emit .nop }

theorem responses_room (n : ℕ) (d : Draft) : responses (room n) d = List.replicate n .done := by
  induction n generalizing d with
  | zero => rfl
  | succ n ih =>
    rw [room, List.replicate_succ, List.replicate_succ]
    exact congrArg (Response.done :: ·) (ih { d with code := d.code.emit .nop })

theorem consistent_fresh (m : Machine) : Consistent { machine := m } :=
  ⟨CodeBuffer.consistent_empty, ConstantPool.within_empty⟩

theorem Consistent.rewind {d : Draft} (h : d.Consistent) (m : Mark) : (d.rewind m).Consistent :=
  ⟨h.code.rewind m.code, h.pool.rewind m.pool⟩

/-- Every operation keeps a draft consistent. -/
theorem Consistent.respond {d : Draft} (h : d.Consistent) (o : Operation) :
    (d.respond o).2.Consistent := by
  cases o with
  | newLabel => exact ⟨h.code.newLabel, h.pool⟩
  | localLabel => exact ⟨h.code.localLabel, h.pool⟩
  | bind l =>
    simp only [Draft.respond]
    split
    · rename_i code bound
      exact ⟨h.code.bind bound, h.pool⟩
    · exact h
  | hint l => exact ⟨h.code.hintFor l, h.pool⟩
  | append i => exact ⟨h.code.emitAll [i], h.pool⟩
  | separateFused =>
    simp only [Draft.respond, CodeBuffer.separateFused_eq]
    exact ⟨h.code.emitAll _, h.pool⟩
  | intern c => exact ⟨h.code, h.pool.intern c⟩
  | requests e routes rs => exact (e.keeps_evolves.answers routes rs { state := d }).2 h
  | emit s =>
    have evolves := s.evolves_run d
    unfold Sink.stateAfter at evolves
    simp only [Draft.respond, Switch.emit]
    rw [EStateM.run] at evolves
    cases run : s.emission.sink.run s.routes s.strategy.requests d with
    | ok _ x =>
      simp only [run] at evolves ⊢
      exact evolves.2 h
    | error e x =>
      simp only [run] at evolves ⊢
      exact (evolves.2 h).rewind d.mark
  | configure m => exact ⟨h.code, h.pool⟩
  | mark => exact h
  | rewind m =>
    simp only [Draft.respond, rewind?, CodeBuffer.rewind?]
    split_ifs
    · exact h.rewind m
    · exact h
  | nextPass => exact ⟨h.code.nextPass, ConstantPool.within_empty⟩
  | finish => exact h
  | inspect => exact h

/-- Every history leads from a consistent draft to a consistent one. -/
theorem Consistent.after {d : Draft} (h : d.Consistent) (os : List Operation) :
    (Draft.after os d).Consistent := by
  induction os generalizing d with
  | nil => exact h
  | cons o os ih => exact ih (h.respond o)

end Draft

end Multiway
