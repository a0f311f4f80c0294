import Multiway.Proofs.Draft.History
import Multiway.Proofs.Draft.Integrity

/-!
# The course of a pass

What an operation does to the code buffer of a draft is a list of actions, unless it rewinds the
buffer or begins a pass; a switch that cannot be emitted rewinds what it has done itself. So
whatever all actions keep is kept by all operations.

A pass takes its course as operations follow each other, where rewinding goes back to a mark that
has been set in the meantime. The draft that the course began with is never taken back.
-/
namespace Multiway

namespace CodeBuffer

def actAll (b : CodeBuffer) (as : List Action) : CodeBuffer := as.foldl act b

theorem actAll_append (b : CodeBuffer) (as bs : List Action) :
    b.actAll (as ++ bs) = (b.actAll as).actAll bs := List.foldl_append

theorem actAll_map_append (b : CodeBuffer) (is : List Instruction) :
    b.actAll (is.map .append) = b.emitAll is := List.foldl_map

variable {b : CodeBuffer}

theorem grown_actAll (as : List Action) : b.Grown (b.actAll as) := by
  induction as generalizing b with
  | nil => exact .refl b
  | cons a as ih => exact (grown_act a).trans ih

theorem Sound.actAll (h : b.Sound) (as : List Action) : (b.actAll as).Sound := by
  induction as generalizing b with
  | nil => exact h
  | cons a as ih => exact ih (h.act a)

end CodeBuffer

open CodeBuffer

theorem Emission.exists_compare_actAll (e : Emission) (key : Key) (condition : Condition)
    (target : Label) (d : Draft) :
    ∃ as, (Sink.stateAfter (e.compare key condition target) d).code = d.code.actAll as := by
  have emitted (is : List Instruction) :
      ∃ as, (d.code.hintFor target).2.emitAll is = d.code.actAll as := by
    refine ⟨[.hint target] ++ is.map .append, ?_⟩
    rw [actAll_append, actAll_map_append]
    rfl
  unfold Sink.stateAfter
  rw [EStateM.run, compare_eq]
  cases LoadPlan.forKey key e.base e.scratch d.pool with
  | error error => exact emitted []
  | ok planned => exact emitted _

/-- Whatever a strategy asks for, it comes to a list of actions on the code, also if it fails. -/
theorem Emission.keeps_actAll (e : Emission) :
    e.sink.Keeps fun d x => ∃ as, x.code = d.code.actAll as where
  refl d := ⟨[], rfl⟩
  trans := by
    rintro d x y ⟨as, first⟩ ⟨bs, rest⟩
    exact ⟨as ++ bs, by rw [rest, first, actAll_append]⟩
  perform v d := by
    cases v with
    | test index condition target =>
      simp only [Sink.perform, sink]
      cases e.keys[index]? with
      | none => exact ⟨[], rfl⟩
      | some key => exact e.exists_compare_actAll key condition target d
    | jump target => exact ⟨[.appendJump target], rfl⟩
    | bind label =>
      unfold Sink.stateAfter
      simp only [Sink.perform, sink, EStateM.run]
      cases bound : d.code.bind label with
      | error error => exact ⟨[], rfl⟩
      | ok code => exact ⟨[.bind label], by simp [actAll, act, bound]⟩
  makeLabel d := ⟨[.localLabel], rfl⟩

namespace Draft

/-- Whether a pass goes on with an operation, and no mark falls. -/
def Operation.Advances (o : Operation) : Prop := (∀ m, o ≠ .rewind m) ∧ o ≠ .nextPass

/-- What an operation does to the code. -/
theorem code_respond (d : Draft) (o : Operation) :
    (∃ as, (d.respond o).2.code = d.code.actAll as) ∨
      (∃ as m, (m = d.mark ∨ o = .rewind m) ∧
        (d.respond o).2.code = (d.code.actAll as).rewind m.code) ∨
      o = .nextPass ∧ (d.respond o).2.code = d.code.nextPass := by
  cases o with
  | newLabel => exact Or.inl ⟨[.newLabel], rfl⟩
  | localLabel => exact Or.inl ⟨[.localLabel], rfl⟩
  | bind l =>
    left
    simp only [respond]
    cases bound : d.code.bind l with
    | error e => exact ⟨[], rfl⟩
    | ok code => exact ⟨[.bind l], by simp [actAll, act, bound]⟩
  | hint l => exact Or.inl ⟨[.hint l], rfl⟩
  | append i => exact Or.inl ⟨[.append i], rfl⟩
  | separateFused => exact Or.inl ⟨[.separateFused], rfl⟩
  | requests e routes rs => exact Or.inl (e.keeps_actAll.answers routes rs { state := d })
  | emit s =>
    have kept := s.emission.keeps_actAll.run s.routes s.strategy.requests d
    unfold Sink.stateAfter at kept
    simp only [respond, Switch.emit]
    rw [EStateM.run] at kept
    cases run : s.emission.sink.run s.routes s.strategy.requests d with
    | ok _ x =>
      simp only [run] at kept
      exact Or.inl kept
    | error e x =>
      simp only [run] at kept
      obtain ⟨as, same⟩ := kept
      exact Or.inr (Or.inl ⟨as, d.mark, Or.inl rfl, by rw [← same]; rfl⟩)
  | rewind m =>
    simp only [respond, rewind?, CodeBuffer.rewind?]
    split_ifs
    · exact Or.inr (Or.inl ⟨[], m, Or.inr rfl, rfl⟩)
    · exact Or.inl ⟨[], rfl⟩
  | nextPass => exact Or.inr (Or.inr ⟨rfl, rfl⟩)
  | intern c => exact Or.inl ⟨[], rfl⟩
  | configure m => exact Or.inl ⟨[], rfl⟩
  | mark => exact Or.inl ⟨[], rfl⟩
  | finish => exact Or.inl ⟨[], rfl⟩
  | inspect => exact Or.inl ⟨[], rfl⟩

variable {d x : Draft}

/-- What a pass goes on with leaves the code sound, and takes nothing back. -/
theorem sound_and_underlies_respond (sound : d.code.Sound) {o : Operation} (advances : o.Advances) :
    (d.respond o).2.code.Sound ∧ d.code.Underlies (d.respond o).2.code := by
  obtain ⟨as, code⟩ | ⟨as, m, mark, code⟩ | ⟨next, -⟩ := d.code_respond o
  · rw [code]
    exact ⟨sound.actAll as, (grown_actAll as).underlies⟩
  · obtain rfl | rewinds := mark
    · have underlies : d.code.Underlies (d.code.actAll as) := (grown_actAll as).underlies
      rw [code]
      exact ⟨underlies.sound_rewind sound (sound.actAll as), underlies.underlies_rewind sound⟩
    · exact absurd rewinds (advances.1 m)
  · exact absurd next advances.2

/-- What a draft becomes while a pass takes its course, and the drafts at the marks that have been
set meanwhile and are still standing, the latest one first. -/
inductive Onward (d : Draft) : Draft → List Draft → Prop
  | start : Onward d d []
  | respond {x : Draft} {standing : List Draft} {o : Operation} :
    o.Advances → Onward d x standing → Onward d (x.respond o).2 standing
  | mark {x : Draft} {standing : List Draft} : Onward d x standing → Onward d x (x :: standing)
  | rewind {x s : Draft} {later earlier : List Draft} :
    Onward d x (later ++ s :: earlier) → Onward d (x.rewind s.mark) (s :: earlier)

/-- The draft that a course began with underlies all that stands. -/
theorem Onward.backed {standing : List Draft} (onward : d.Onward x standing)
    (sound : d.code.Sound) :
    x.code.Sound ∧ x.code.Backed (standing.map (·.code) ++ [d.code]) := by
  induction onward with
  | start => exact ⟨sound, sound, (Grown.refl _).underlies, trivial⟩
  | respond advances _ ih =>
    obtain ⟨sound, underlies⟩ := sound_and_underlies_respond ih.1 advances
    exact ⟨sound, ih.2.of_underlies underlies⟩
  | mark _ ih => exact ⟨ih.1, ih.1, (Grown.refl _).underlies, ih.2⟩
  | rewind _ ih =>
    obtain ⟨sound, backed⟩ := ih
    rw [List.map_append, List.append_assoc] at backed
    obtain ⟨below, underlies, backed⟩ := backed.tail
    exact ⟨underlies.sound_rewind below sound, below, underlies.underlies_rewind below, backed⟩

/-- As long as a pass takes its course, the draft that it began with is never taken back. -/
theorem Onward.underlies {standing : List Draft} (onward : d.Onward x standing)
    (sound : d.code.Sound) : d.code.Underlies x.code :=
  ((onward.backed sound).2.of_mem (by simp)).2

/-- A draft that passes lead to, one after the other. -/
inductive Reached : Draft → Prop
  | fresh (m : Machine) : Reached { machine := m }
  | onward {d x : Draft} {standing : List Draft} : Reached d → d.Onward x standing → Reached x
  | nextPass {d : Draft} : Reached d → Reached d.nextPass

theorem Onward.after {standing : List Draft} (onward : d.Onward x standing) {os : List Operation}
    (advance : ∀ o ∈ os, o.Advances) : d.Onward (Draft.after os x) standing := by
  induction os generalizing x with
  | nil => exact onward
  | cons o os ih =>
    rw [List.forall_mem_cons] at advance
    exact ih (onward.respond advance.1) advance.2

theorem Reached.sound (reached : d.Reached) : d.code.Sound := by
  induction reached with
  | fresh m => exact sound_empty
  | onward _ onward ih => exact (onward.backed ih).1
  | nextPass _ ih => exact ih.nextPass

end Draft

end Multiway
