import Multiway.Proofs.Draft.History

/-!
# Failed emission

A switch that cannot be emitted after all leaves a draft in which everything is as before but for
hints. Hints that were asked for first on the way are kept, and record positions in code that is
gone; hints about labels that are not made yet are lost. Either shows in a later pass at the latest.
Where neither happens the draft is the same as before.
-/
namespace Multiway

namespace Draft

/-- Where drafts respond alike, they have the same hints to give. -/
theorem hintFor_eq_of_responses_eq {d d' : Draft} (alike : ∀ os, responses os d' = responses os d)
    (os : List Operation) (l : Label) :
    ((after os d').code.hintFor l).1 = ((after os d).code.hintFor l).1 := by
  have same := alike (os ++ [.hint l])
  rw [responses_append, responses_append, alike os, List.append_cancel_left_eq] at same
  simpa [responses, respond] using same

/-- The position that a label is first considered at in this pass, if that happens now at the
latest. -/
def considered (d : Draft) (l : Label) : ℕ :=
  (d.code.hints[l]?.getD ⟨d.code.position, d.code.position? l⟩).position

theorem considered_room_of_mem {d : Draft} {l : Label} {h : Hint}
    (found : d.code.hints[l]? = some h) (n : ℕ) : (after (room n) d).considered l = h.position := by
  rw [after_room, considered, CodeBuffer.emitAll_eq]
  simp [found]

theorem considered_room_of_not_mem {d : Draft} {l : Label} (absent : d.code.hints[l]? = none)
    (n : ℕ) : (after (room n) d).considered l = d.code.position + n * instructionBytes := by
  have position := CodeBuffer.position_emitAll d.code (List.replicate n .nop)
  rw [after_room, considered]
  rw [CodeBuffer.emitAll_eq] at position ⊢
  simp [absent, position]

/-- A draft in which a label has been considered differs from one in which it has not, as soon as
the code has grown enough. -/
theorem exists_considered_ne {d d' : Draft} {l : Label} {h : Hint}
    (found : d'.code.hints[l]? = some h) (absent : d.code.hints[l]? = none) :
    ∃ n, (after (room n) d').considered l ≠ (after (room n) d).considered l := by
  refine ⟨h.position + 1, ?_⟩
  rw [considered_room_of_mem found, considered_room_of_not_mem absent]
  simp only [instructionBytes]
  omega

/-- The position that a label has been considered at in one pass comes back as its hint in the
next. -/
theorem position_hintFor_of_nextPass {d : Draft} (consistent : d.Consistent) {l : Label}
    (inside : l.index < d.code.labelCount) :
    ((after [.hint l, .bind l, .nextPass] d).code.hintFor l).1.position = d.considered l := by
  let d₁ := (d.respond (.hint l)).2
  let d₂ := (d₁.respond (.bind l)).2
  have consistent₁ : d₁.Consistent := consistent.respond _
  have consistent₂ : d₂.Consistent := consistent₁.respond _
  have asked : ∃ target, d₁.code.hints[l]? = some ⟨d.considered l, target⟩ := by
    simp only [d₁, respond, CodeBuffer.hintFor, Std.ExtHashMap.getElem?_insert_self, considered]
    exact ⟨_, rfl⟩
  have bound : (∃ p, d₂.code.position? l = some p) ∧
      ∃ target, d₂.code.hints[l]? = some ⟨d.considered l, target⟩ := by
    obtain ⟨target, here⟩ := asked
    simp only [d₂, respond]
    cases outcome : d₁.code.bind l with
    | ok code =>
      obtain ⟨-, -, positions⟩ := CodeBuffer.bind_eq_ok outcome
      obtain ⟨target', later⟩ := (CodeBuffer.grown_bind outcome).hints here
      exact ⟨⟨_, by rw [positions, if_pos rfl]⟩, target', later⟩
    | error e =>
      refine ⟨?_, target, here⟩
      unfold CodeBuffer.bind at outcome
      split at outcome
      · rename_i unknown
        have outside := Array.getElem?_eq_none_iff.1 unknown
        exact absurd inside (Nat.not_lt.2 outside)
      · rename_i p old
        exact ⟨p, by simp [CodeBuffer.position?, old]⟩
      · contradiction
  obtain ⟨⟨p, position⟩, target, hint⟩ := bound
  have complete : target = some p := by
    rw [← position]
    exact consistent₂.code.hint hint
  have measured : d₂.nextPass.code.measured[l]? = some ⟨d.considered l, target⟩ := by
    simp [nextPass, CodeBuffer.measured_nextPass, hint, complete, Hint.isComplete]
  show (d₂.nextPass.code.hintFor l).1.position = _
  simp [CodeBuffer.hintFor, measured]

/-- A label without a measured hint has the hint of this pass. -/
theorem position_hintFor_room {d : Draft} {l : Label} (none : d.code.measured[l]? = none) (n : ℕ) :
    ((after (room n) d).code.hintFor l).1.position = (after (room n) d).considered l := by
  rw [considered, CodeBuffer.hintFor, after_room, CodeBuffer.emitAll_eq]
  simp [none]

/-- No hint is left of what was done since, and none has been lost. -/
def HintsRestored (d d' : Draft) : Prop :=
  (∀ l ∈ d'.code.hints, l ∈ d.code.hints) ∧ ∀ l ∈ d.code.hints, l.index < d.code.labelCount

end Draft

namespace Switch

open Draft

variable {s : Switch} {d d' : Draft} {e : Error}

/-- What is left of a draft after a failed emission. -/
theorem emit_error (failed : s.emit d = .error e d') :
    ∃ x, d.Evolves x ∧ d' = x.rewind d.mark := by
  have evolves := s.evolves_run d
  unfold Sink.stateAfter at evolves
  unfold emit at failed
  rw [EStateM.run] at evolves
  cases run : s.emission.sink.run s.routes s.strategy.requests d with
  | ok _ x => simp [run] at failed
  | error e' x =>
    simp only [run, EStateM.Result.error.injEq] at failed evolves
    exact ⟨x, evolves, failed.2.symm⟩

theorem eq_of_emit_error (consistent : d.Consistent) (failed : s.emit d = .error e d') :
    d' = { d with code := { d.code with hints := d'.code.hints } } := by
  obtain ⟨x, evolves, rfl⟩ := emit_error failed
  have code := evolves.1.code.rewind consistent.code
  have pool : x.pool.rewind d.pool.mark = d.pool :=
    evolves.1.pool.rewind_mark fun h => consistent.pool _ _ h
  have machine := evolves.1.machine
  show Draft.mk (x.code.rewind d.code.mark) (x.pool.rewind d.pool.mark) x.machine = _
  rw [pool, machine, code]
  rfl

theorem hints_of_emit_error (consistent : d.Consistent) (failed : s.emit d = .error e d')
    (l : Label) (inside : l.index < d.code.labelCount) {h : Hint}
    (found : d.code.hints[l]? = some h) : d'.code.hints[l]? = some h := by
  obtain ⟨x, evolves, rfl⟩ := emit_error failed
  obtain ⟨target, kept⟩ := evolves.1.code.hints found
  have after := evolves.1.code.hints_rewind (evolves.2 consistent).code l
  rw [if_pos inside, kept] at after
  have known := consistent.code.hint found
  rw [Option.map_some] at after
  rw [← known] at after
  exact after

theorem index_lt_of_emit_error (failed : s.emit d = .error e d') {l : Label} {h : Hint}
    (found : d'.code.hints[l]? = some h) : l.index < d.code.labelCount := by
  obtain ⟨x, evolves, rfl⟩ := emit_error failed
  have after := CodeBuffer.hints_rewind (b := x.code) d.code.mark l
  by_contra outside
  rw [CodeBuffer.labels_mark, if_neg outside] at after
  have none : ((x.rewind d.mark).code.hints)[l]? = none := after
  rw [none] at found
  contradiction

theorem eq_of_hintsRestored (consistent : d.Consistent) (failed : s.emit d = .error e d')
    (restored : HintsRestored d d') : d' = d := by
  have hints : d'.code.hints = d.code.hints := by
    apply Std.ExtHashMap.ext_getElem?
    intro l
    cases before : d.code.hints[l]? with
    | some h =>
      have mem : l ∈ d.code.hints := by
        rw [Std.ExtHashMap.mem_iff_isSome_getElem?, before]
        rfl
      exact hints_of_emit_error consistent failed l (restored.2 l mem) before
    | none =>
      cases found : d'.code.hints[l]? with
      | none => rfl
      | some h =>
        have mem : l ∈ d'.code.hints := by
          rw [Std.ExtHashMap.mem_iff_isSome_getElem?, found]
          rfl
        have kept := restored.1 l mem
        rw [Std.ExtHashMap.mem_iff_isSome_getElem?, before] at kept
        contradiction
  rw [eq_of_emit_error consistent failed, hints]

/-- A hint that was asked for first by the failed emission shows in the next pass. -/
theorem mem_hints_of_alike (consistent : d.Consistent) (failed : s.emit d = .error e d')
    (alike : ∀ os, responses os d' = responses os d) {l : Label} (mem : l ∈ d'.code.hints) :
    l ∈ d.code.hints := by
  obtain ⟨h, found⟩ := Option.isSome_iff_exists.1 (Std.ExtHashMap.mem_iff_isSome_getElem?.1 mem)
  have inside := index_lt_of_emit_error failed found
  have consistent' : d'.Consistent := by
    obtain ⟨x, evolves, rfl⟩ := emit_error failed
    exact (evolves.2 consistent).rewind d.mark
  have count : d'.code.labelCount = d.code.labelCount := by
    rw [eq_of_emit_error consistent failed]
    rfl
  by_contra absent
  rw [Std.ExtHashMap.mem_iff_isSome_getElem?, Option.not_isSome_iff_eq_none] at absent
  obtain ⟨n, differ⟩ := exists_considered_ne found absent
  have same := congrArg Hint.position
    (hintFor_eq_of_responses_eq alike (room n ++ [.hint l, .bind l, .nextPass]) l)
  have roomy (x : Draft) : (after (room n) x).code.labelCount = x.code.labelCount := by
    rw [after_room, CodeBuffer.emitAll_eq]
    rfl
  rw [after_append, after_append,
    position_hintFor_of_nextPass (consistent'.after _) (by rw [roomy, count]; exact inside),
    position_hintFor_of_nextPass (consistent.after _) (by rw [roomy]; exact inside)] at same
  exact differ same

/-- The loss of a hint about a label that is not made yet shows as soon as the code has grown. -/
theorem index_lt_of_alike (consistent : d.Consistent) (failed : s.emit d = .error e d')
    (alike : ∀ os, responses os d' = responses os d) {l : Label} (mem : l ∈ d.code.hints) :
    l.index < d.code.labelCount := by
  obtain ⟨h, found⟩ := Option.isSome_iff_exists.1 (Std.ExtHashMap.mem_iff_isSome_getElem?.1 mem)
  by_contra outside
  have lost : d'.code.hints[l]? = none := by
    cases kept : d'.code.hints[l]? with
    | none => rfl
    | some h' => exact absurd (index_lt_of_emit_error failed kept) outside
  have unmeasured : d.code.measured[l]? = none := by
    cases known : d.code.measured[l]? with
    | none => rfl
    | some h' => exact absurd (consistent.code.measured known) outside
  have unmeasured' : d'.code.measured[l]? = none := by
    rw [eq_of_emit_error consistent failed]
    exact unmeasured
  obtain ⟨n, differ⟩ := exists_considered_ne found lost
  have same := congrArg Hint.position (hintFor_eq_of_responses_eq alike (room n) l)
  rw [position_hintFor_room unmeasured', position_hintFor_room unmeasured] at same
  exact differ same.symm

/-- After every history, a failed emission changes nothing but hints, and it stays unnoticed for
ever exactly if it has not changed those. -/
theorem alike_iff_of_emit_error (m : Machine) (history : List Operation)
    (failed : s.emit (after history { machine := m }) = .error e d') :
    let d := after history { machine := m }
    d' = { d with code := { d.code with hints := d'.code.hints } } ∧
      ((∀ later, responses later d' = responses later d) ↔ HintsRestored d d') := by
  intro d
  have consistent : d.Consistent := (consistent_fresh m).after history
  refine ⟨eq_of_emit_error consistent failed, ?_, ?_⟩
  · intro alike
    exact ⟨fun l mem => mem_hints_of_alike consistent failed alike mem,
      fun l mem => index_lt_of_alike consistent failed alike mem⟩
  · intro restored later
    rw [eq_of_hintsRestored consistent failed restored]

/-- A switch that fails before it asks about any label is never noticed. -/
theorem alike_of_emit_error_noSuchKey :
    let s : Switch := {
      strategy := .scripted #[.immediate 1] [.testToTarget 5 .equal]
      routes := ⟨#[⟨0⟩], ⟨0⟩, none⟩, value := ⟨8⟩, width := .word, base := some ⟨9⟩,
      scratch := ⟨1⟩ }
    let d := after [.newLabel] {}
    ∃ d', s.emit d = .error (.noSuchKey 5) d' ∧
      d' = { d with code := { d.code with hints := d'.code.hints } } ∧
        ((∀ later, responses later d' = responses later d) ↔ HintsRestored d d') := by
  intro s d
  have failed : s.emit d = .error (.noSuchKey 5) (d.rewind d.mark) := rfl
  exact ⟨_, failed, alike_iff_of_emit_error {} [.newLabel] failed⟩

/-- A strategy asks about a label and then names a key that does not exist. The hint about the
label remains, and begins at a place where no code is. -/
theorem noticed_emit_error :
    let s : Switch := {
      strategy := .scripted #[.immediate 1] [.testToTarget 0 .equal, .testToTarget 5 .equal]
      routes := ⟨#[⟨0⟩], ⟨0⟩, none⟩, value := ⟨8⟩, width := .word, base := some ⟨9⟩,
      scratch := ⟨1⟩ }
    let d := after [.newLabel] {}
    ∃ d', s.check = .ok s ∧ s.emit d = .error (.noSuchKey 5) d' ∧
      responses [.append .nop, .hint ⟨0⟩] d' ≠ responses [.append .nop, .hint ⟨0⟩] d := by
  intro s d
  have consistent : d.Consistent := (consistent_fresh {}).after [.newLabel]
  obtain ⟨x, run, hint⟩ : ∃ x,
      s.emission.sink.run s.routes s.strategy.requests d = .error (.noSuchKey 5) x ∧
        x.code.hints[(⟨0⟩ : Label)]? = some ⟨0, none⟩ := by
    refine ⟨_, rfl, ?_⟩
    show ((∅ : Std.ExtHashMap Label Hint).insert ⟨0⟩
      ((∅ : Std.ExtHashMap Label Hint)[(⟨0⟩ : Label)]?.getD ⟨0, none⟩))[(⟨0⟩ : Label)]? = _
    simp
  have failed : s.emit d = .error (.noSuchKey 5) (x.rewind d.mark) := by
    rw [emit, run]
  have evolves : d.Evolves x := by
    have evolves := s.evolves_run d
    unfold Sink.stateAfter at evolves
    simpa only [EStateM.run, run] using evolves
  have kept : (x.rewind d.mark).code.hints[(⟨0⟩ : Label)]? = some ⟨0, none⟩ := by
    have after := evolves.1.code.hints_rewind (evolves.2 consistent).code ⟨0⟩
    rw [if_pos (by decide), hint] at after
    exact after
  have unmeasured : d.code.measured[(⟨0⟩ : Label)]? = none :=
    Std.ExtHashMap.getElem?_empty
  have unmeasured' : (x.rewind d.mark).code.measured[(⟨0⟩ : Label)]? = none := by
    rw [eq_of_emit_error consistent failed]
    exact unmeasured
  refine ⟨x.rewind d.mark, rfl, failed, fun same => ?_⟩
  have hints : ((after (room 1) (x.rewind d.mark)).code.hintFor ⟨0⟩).1 =
      ((after (room 1) d).code.hintFor ⟨0⟩).1 := by
    simp only [responses, List.cons.injEq] at same
    exact Response.hint.inj same.2.1
  have positions := congrArg Hint.position hints
  rw [position_hintFor_room unmeasured', position_hintFor_room unmeasured,
    considered_room_of_mem kept, considered_room_of_not_mem Std.ExtHashMap.getElem?_empty]
    at positions
  contradiction

end Switch

end Multiway
