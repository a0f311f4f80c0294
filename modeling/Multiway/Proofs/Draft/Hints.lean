import Multiway.Proofs.Draft.Course
import Mathlib.Data.List.Induction

/-!
# What hints report

In the course of a pass a label may be asked about, again and again, and it may be bound. If both
happen, in either order, the pass has measured the label: it leaves a hint from the position of the
first question to the position of the label. Later passes get this hint until one of them measures
the label again. A label that was never measured has a hint of the present pass only.
-/
namespace Multiway

namespace CodeBuffer

def Action.asked? : Action → Option Label
  | .hint l => some l
  | _ => none

/-- The position at which actions ask about a label for the first time. -/
def firstAsked (l : Label) (b : CodeBuffer) : List Action → Option ℕ
  | [] => none
  | a :: as => if a.asked? = some l then some b.position else firstAsked l (b.act a) as

/-- The hint that a pass leaves about a label, if it both asks about it and binds it. -/
def measure (b : CodeBuffer) (as : List Action) (l : Label) : Option Hint :=
  (b.firstAsked l as).bind fun p =>
    ((b.actAll as).position? l).map fun q => ⟨p, some q⟩

/-- The buffer at the beginning of the pass that follows some passes. -/
def afterPasses (passes : List (List Action)) : CodeBuffer :=
  passes.foldl (fun b as => (b.actAll as).nextPass) empty

/-- The hint about a label that one of several passes leaves. -/
def measuredIn (passes : List (List Action)) (k : ℕ) (l : Label) : Option Hint :=
  passes[k]?.bind fun as => (afterPasses (passes.take k)).measure as l

variable {b : CodeBuffer} {as : List Action} {l : Label}

/-! ## Within a pass -/

/-- Only a question about a label adds a hint about it, and none changes where a hint begins. -/
theorem map_position_act (b : CodeBuffer) (a : Action) (l : Label) :
    (b.act a).hints[l]?.map Hint.position =
      (b.hints[l]?.map Hint.position).or (if a.asked? = some l then some b.position else none) := by
  have emitted (is : List Instruction) : (b.emitAll is).hints[l]?.map Hint.position =
      (b.hints[l]?.map Hint.position).or none := by
    rw [emitAll_eq, Option.or_none]
  cases a with
  | newLabel => exact Option.or_none.symm
  | localLabel =>
    simp only [act, localLabel]
    split <;> exact Option.or_none.symm
  | bind l' =>
    refine Eq.trans ?_ Option.or_none.symm
    simp only [act]
    cases bound : b.bind l' with
    | error e => rfl
    | ok b' =>
      simp only [eq_of_bind bound, Std.ExtHashMap.getElem?_modify, beq_iff_eq]
      by_cases same : l' = l
      · subst same
        rw [if_pos rfl, Option.map_map]
        rfl
      · rw [if_neg same]
  | hint l' =>
    simp only [act, hintFor, Std.ExtHashMap.getElem?_insert, beq_iff_eq, Action.asked?,
      Option.some.injEq]
    by_cases same : l' = l
    · subst same
      simp only [if_true]
      cases b.hints[l']? <;> rfl
    · simp only [same, if_false, Option.or_none]
  | append i => exact emitted [i]
  | separateFused =>
    simp only [act, separateFused_eq]
    exact emitted _
  | appendFused test codes left right target =>
    simp only [act, emitFused_eq]
    exact emitted _
  | appendJump target => exact emitted [.jump target, .nop]

/-- Hints begin at the position of the first question. -/
theorem map_position_actAll (b : CodeBuffer) (as : List Action) (l : Label) :
    (b.actAll as).hints[l]?.map Hint.position =
      (b.hints[l]?.map Hint.position).or (b.firstAsked l as) := by
  induction as generalizing b with
  | nil => exact Option.or_none.symm
  | cons a as ih =>
    rw [actAll, List.foldl_cons, ← actAll, ih, map_position_act, Option.or_assoc, firstAsked]
    split_ifs <;> rfl

/-- A pass that began without hints knows those that its questions have left. -/
theorem Consistent.hints_actAll (h : (b.actAll as).Consistent) (fresh : b.hints = ∅) :
    (b.actAll as).hints[l]? = (b.firstAsked l as).map fun p => ⟨p, (b.actAll as).position? l⟩ := by
  have positions := map_position_actAll b as l
  rw [fresh] at positions
  simp only [Std.ExtHashMap.getElem?_empty, Option.map_none, Option.none_or] at positions
  rw [← positions]
  cases found : (b.actAll as).hints[l]? with
  | none => rfl
  | some hint =>
    rw [Option.map_some, Option.map_some, ← h.hint found]

/-! ## From pass to pass -/

theorem afterPasses_append (passes : List (List Action)) (as : List Action) :
    afterPasses (passes ++ [as]) = ((afterPasses passes).actAll as).nextPass :=
  List.foldl_append

theorem sound_afterPasses (passes : List (List Action)) : (afterPasses passes).Sound := by
  induction passes using List.reverseRecOn with
  | nil => exact sound_empty
  | append_singleton passes as ih =>
    rw [afterPasses_append]
    exact (ih.actAll as).nextPass

theorem hints_afterPasses (passes : List (List Action)) : (afterPasses passes).hints = ∅ := by
  induction passes using List.reverseRecOn with
  | nil => rfl
  | append_singleton passes as _ => rw [afterPasses_append]; rfl

/-- A pass that measures a label replaces what was known about it. -/
theorem Consistent.measured_nextPass (h : (b.actAll as).Consistent) (fresh : b.hints = ∅) :
    (b.actAll as).nextPass.measured[l]? = (b.measure as l).or b.measured[l]? := by
  rw [CodeBuffer.measured_nextPass, h.hints_actAll fresh, (grown_actAll as).measured, measure]
  cases b.firstAsked l as with
  | none => rfl
  | some p => cases (b.actAll as).position? l <;> rfl

theorem measuredIn_append (passes : List (List Action)) (as : List Action) (k : ℕ) (l : Label) :
    measuredIn (passes ++ [as]) k l = if k < passes.length then measuredIn passes k l
      else if k = passes.length then (afterPasses passes).measure as l else none := by
  unfold measuredIn
  split_ifs with early last
  · rw [List.getElem?_append_left early, List.take_append_of_le_length early.le]
  · rw [last, List.getElem?_concat_length, List.take_left' rfl]
    rfl
  · rw [List.getElem?_eq_none (by simp only [List.length_append, List.length_singleton]; omega)]
    rfl

/-- What is known about a label is what the latest pass left that measured it. -/
theorem measured_afterPasses_iff {passes : List (List Action)} {h : Hint} :
    (afterPasses passes).measured[l]? = some h ↔
      ∃ k, measuredIn passes k l = some h ∧ ∀ j > k, measuredIn passes j l = none := by
  induction passes using List.reverseRecOn with
  | nil => simp [afterPasses, empty, measuredIn]
  | append_singleton passes as ih =>
    have consistent := ((sound_afterPasses passes).actAll as).toConsistent
    rw [afterPasses_append, consistent.measured_nextPass (hints_afterPasses passes)]
    simp only [measuredIn_append]
    cases last : (afterPasses passes).measure as l with
    | some h' =>
      rw [Option.some_or]
      constructor
      · rintro ⟨⟩
        exact ⟨passes.length, by simp, fun j after => by rw [if_neg (by omega), if_neg (by omega)]⟩
      · rintro ⟨k, here, later⟩
        obtain early | rfl | late := Nat.lt_trichotomy k passes.length
        · simpa using later _ early
        · simpa using here
        · rw [if_neg (by omega), if_neg (by omega)] at here
          contradiction
    | none =>
      simp only [Option.none_or, ih, ite_self]
      -- the last pass leaves nothing, so the same pass is the latest one as before
      have outside {j : ℕ} (h : ¬j < passes.length) : measuredIn passes j l = none := by
        rw [measuredIn, List.getElem?_eq_none (Nat.le_of_not_lt h)]
        rfl
      have same (j : ℕ) : (if j < passes.length then measuredIn passes j l else none) =
          measuredIn passes j l := by
        split_ifs with inside
        · rfl
        · exact (outside inside).symm
      simp only [same]

/-- Whatever passes have been made, a hint reports what the latest pass left that both asked about
the label and bound it, in either order. If there is none, it reports the first question of the
present pass, and the position of the label if the pass has bound it. -/
theorem hintFor_reports_latest_measure (passes : List (List Action)) (as : List Action)
    (l : Label) :
    (∀ k h, measuredIn passes k l = some h → (∀ j > k, measuredIn passes j l = none) →
      (((afterPasses passes).actAll as).hintFor l).1 = h) ∧
    ((∀ k, measuredIn passes k l = none) →
      (((afterPasses passes).actAll as).hintFor l).1 =
        ⟨((afterPasses passes).firstAsked l as).getD ((afterPasses passes).actAll as).position,
          ((afterPasses passes).actAll as).position? l⟩) := by
  have known : ((afterPasses passes).actAll as).measured = (afterPasses passes).measured :=
    (grown_actAll as).measured
  have consistent := ((sound_afterPasses passes).actAll as).toConsistent
  have current := consistent.hints_actAll (l := l) (hints_afterPasses passes)
  refine ⟨fun k h here later => ?_, fun never => ?_⟩
  · rw [hintFor, known, measured_afterPasses_iff.2 ⟨k, here, later⟩, Option.getD_some]
  · have unknown : (afterPasses passes).measured[l]? = none := by
      rw [Option.eq_none_iff_forall_ne_some]
      intro h found
      obtain ⟨k, here, -⟩ := measured_afterPasses_iff.1 found
      rw [never k] at here
      contradiction
    rw [hintFor, known, unknown, Option.getD_none, current]
    cases (afterPasses passes).firstAsked l as <;> rfl

/-- The first pass asks about a label and binds it, the second one only asks, and the third one has
only bound it so far. -/
theorem hintFor_reports_first_of_three_passes :
    let first := [Action.newLabel, .hint ⟨0⟩, .append .nop, .bind ⟨0⟩]
    let second := [Action.append .nop, .hint ⟨0⟩]
    let third := [Action.append .nop, .append .nop, .bind ⟨0⟩]
    (((afterPasses [first, second]).actAll third).hintFor ⟨0⟩).1 = ⟨0, some 4⟩ := by
  intro first second third
  refine (hintFor_reports_latest_measure [first, second] third ⟨0⟩).1 0 _ rfl fun j later => ?_
  obtain rfl | ⟨k, rfl⟩ : j = 1 ∨ ∃ k, j = k + 2 := by
    by_cases second : j = 1
    · exact Or.inl second
    · exact Or.inr ⟨j - 2, by omega⟩
  · rfl
  · rfl

end CodeBuffer

end Multiway
