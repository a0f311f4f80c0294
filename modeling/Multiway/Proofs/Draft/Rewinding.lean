import Multiway.Proofs.Draft.Consistency

/-!
# Rewinding a code buffer

A buffer grows if code is appended to it, labels are made and bound, and hints are asked for.
Rewinding a buffer to the mark of one that it has grown out of restores that one but for its hints:
those that were asked for since the mark about labels that remain are kept, and those about labels
that are not in the table are lost.
-/
namespace Multiway

namespace CodeBuffer

/-! ## Taking bindings back -/

/-- What is left when the positions of some labels have been taken back. -/
theorem foldl_unbind (ls : List Label) (b : CodeBuffer) :
    (∀ l, (ls.foldl unbind b).position? l = if l ∈ ls then none else b.position? l) ∧
      (∀ l, (ls.foldl unbind b).hints[l]? =
        if l ∈ ls then b.hints[l]?.map fun hint => { hint with target := none }
        else b.hints[l]?) ∧
      (ls.foldl unbind b).labelCount = b.labelCount := by
  induction ls generalizing b with
  | nil => simp
  | cons l ls ih =>
    obtain ⟨positions, hints, count⟩ := ih (b.unbind l)
    refine ⟨fun l' => ?_, fun l' => ?_, ?_⟩
    · rw [List.foldl_cons, positions]
      by_cases later : l' ∈ ls
      · simp [later]
      · by_cases same : l = l'
        · subst same
          by_cases inside : l.index < b.positions.size <;>
            simp [position?, unbind, inside]
        · have other : l.index ≠ l'.index := fun h => same (by cases l; cases l'; simp_all)
          simp [position?, unbind, later, Ne.symm same, other]
    · rw [List.foldl_cons, hints]
      simp only [unbind, Std.ExtHashMap.getElem?_modify, beq_iff_eq, List.mem_cons]
      by_cases same : l = l'
      · subst same
        simp only [if_true, true_or, Option.map_map]
        split_ifs <;> rfl
      · simp [same, Ne.symm same]
    · rw [List.foldl_cons, count]
      simp [labelCount, unbind]

def boundSince (b : CodeBuffer) (m : Mark) : List Label := (b.bindings.drop m.bindings).toList

@[simp] theorem labels_mark (b : CodeBuffer) : b.mark.labels = b.labelCount := rfl

variable {b x : CodeBuffer}

theorem rewind_eq (b : CodeBuffer) (m : Mark) :
    b.rewind m =
      { code := b.code.take m.code
        positions := ((b.boundSince m).foldl unbind b).positions.take m.labels
        bindings := b.bindings.take m.bindings
        hints := ((b.boundSince m).foldl unbind b).hints.filter fun l _ => l.index < m.labels
        measured := b.measured.filter fun l _ => l.index < m.labels
        locals := b.locals.filter (·.index < m.labels)
        localsUsed := min m.localsUsed (b.locals.filter (·.index < m.labels)).size } := by
  simp only [boundSince, Array.foldl_toList]
  rfl

theorem position?_rewind (m : Mark) (l : Label) :
    (b.rewind m).position? l =
      if l.index < m.labels ∧ l ∉ b.boundSince m then b.position? l else none := by
  obtain ⟨positions, -, -⟩ := foldl_unbind (b.boundSince m) b
  have here := positions l
  rw [rewind_eq]
  simp only [position?, Array.take_eq_extract, Array.getElem?_extract] at here ⊢
  by_cases remains : l.index < m.labels
  · by_cases inside : l.index < ((b.boundSince m).foldl unbind b).positions.size
    · rw [if_pos (by omega), Nat.zero_add, here]
      by_cases recent : l ∈ b.boundSince m <;> simp [remains, recent]
    · rw [Array.getElem?_eq_none (Nat.le_of_not_lt inside)] at here
      rw [if_neg (by omega)]
      by_cases recent : l ∈ b.boundSince m
      · simp [recent]
      · simpa [remains, recent] using here
  · rw [if_neg (by omega), if_neg (fun both => remains both.1)]
    rfl

theorem hints_rewind (m : Mark) (l : Label) :
    (b.rewind m).hints[l]? =
      if l.index < m.labels then
        if l ∈ b.boundSince m then b.hints[l]?.map fun hint => { hint with target := none }
        else b.hints[l]?
      else none := by
  obtain ⟨-, hints, -⟩ := foldl_unbind (b.boundSince m) b
  rw [rewind_eq, Std.ExtHashMap.getElem?_filter', hints]
  by_cases remains : l.index < m.labels
  · rw [if_pos remains]
    simp only [remains, decide_true]
    split_ifs <;> cases b.hints[l]? <;> rfl
  · simp [remains]

theorem labelCount_rewind (m : Mark) : (b.rewind m).labelCount = min m.labels b.labelCount := by
  obtain ⟨-, -, count⟩ := foldl_unbind (b.boundSince m) b
  rw [rewind_eq]
  simp only [labelCount, Array.take_eq_extract, Array.size_extract] at count ⊢
  rw [count, Nat.sub_zero]

/-- Rewinding keeps a buffer consistent, whatever the mark is. -/
theorem Consistent.rewind (h : b.Consistent) (m : Mark) : (b.rewind m).Consistent where
  hint := by
    intro l hint found
    rw [hints_rewind] at found
    rw [position?_rewind]
    by_cases remains : l.index < m.labels
    · by_cases recent : l ∈ b.boundSince m
      · simp only [remains, recent, if_true, Option.map_eq_some_iff] at found
        obtain ⟨old, -, rfl⟩ := found
        simp [recent]
      · simp only [remains, recent, if_true, if_false] at found
        simpa [remains, recent] using h.hint found
    · simp [remains] at found
  measured := by
    intro l hint found
    rw [labelCount_rewind]
    rw [rewind_eq] at found
    simp only [Std.ExtHashMap.getElem?_filter', Option.filter_eq_some_iff] at found
    have := h.measured found.1
    have : l.index < m.labels := by simpa using found.2
    omega
  locals := by
    intro l mem
    rw [labelCount_rewind]
    rw [rewind_eq] at mem
    simp only [Array.mem_filter] at mem
    have := h.locals mem.1
    have : l.index < m.labels := by simpa using mem.2
    omega
  used := by
    rw [rewind_eq]
    exact Nat.min_le_right _ _

/-! ## Growth -/

/-- The second buffer has grown out of the first one. -/
structure Grown (b x : CodeBuffer) : Prop where
  code : ∃ is, x.code = b.code ++ is
  count : b.labelCount ≤ x.labelCount
  bound : ∃ ls : Array Label, x.bindings = b.bindings ++ ls ∧
    (∀ l ∈ ls, b.position? l = none) ∧ ∀ l ∉ ls, x.position? l = b.position? l
  hints : ∀ {l : Label} {h : Hint}, b.hints[l]? = some h →
    ∃ target, x.hints[l]? = some { h with target }
  measured : x.measured = b.measured
  locals : ∃ ls : Array Label, x.locals = b.locals ++ ls ∧ ∀ l ∈ ls, b.labelCount ≤ l.index

namespace Grown

theorem refl (b : CodeBuffer) : b.Grown b where
  code := ⟨#[], by simp⟩
  count := le_rfl
  bound := ⟨#[], by simp⟩
  hints h := ⟨_, h⟩
  measured := rfl
  locals := ⟨#[], by simp⟩

theorem trans {b x y : CodeBuffer} (hbx : b.Grown x) (hxy : x.Grown y) : b.Grown y where
  code := by
    obtain ⟨is, first⟩ := hbx.code
    obtain ⟨js, second⟩ := hxy.code
    exact ⟨is ++ js, by rw [second, first, Array.append_assoc]⟩
  count := hbx.count.trans hxy.count
  bound := by
    obtain ⟨ls, first, unbound, same⟩ := hbx.bound
    obtain ⟨ls', second, unbound', same'⟩ := hxy.bound
    refine ⟨ls ++ ls', by rw [second, first, Array.append_assoc], ?_, ?_⟩
    · intro l mem
      by_cases early : l ∈ ls
      · exact unbound l early
      · obtain h | h := Array.mem_append.1 mem
        · exact unbound l h
        · rw [← same l early]
          exact unbound' l h
    · intro l absent
      rw [Array.mem_append, not_or] at absent
      rw [same' l absent.2, same l absent.1]
  hints h := by
    obtain ⟨_, found⟩ := hbx.hints h
    obtain ⟨target, later⟩ := hxy.hints found
    exact ⟨target, later⟩
  measured := hxy.measured.trans hbx.measured
  locals := by
    obtain ⟨ls, first, new⟩ := hbx.locals
    obtain ⟨ls', second, new'⟩ := hxy.locals
    refine ⟨ls ++ ls', by rw [second, first, Array.append_assoc], ?_⟩
    intro l mem
    obtain h | h := Array.mem_append.1 mem
    · exact new l h
    · exact hbx.count.trans (new' l h)

theorem boundSince {b x : CodeBuffer} (grown : b.Grown x) :
    (∀ l ∈ x.boundSince b.mark, b.position? l = none) ∧
      ∀ l ∉ x.boundSince b.mark, x.position? l = b.position? l := by
  obtain ⟨ls, bindings, unbound, same⟩ := grown.bound
  have recent : x.boundSince b.mark = ls.toList := by
    rw [CodeBuffer.boundSince, bindings]
    simp [CodeBuffer.mark]
  rw [recent]
  exact ⟨fun l h => unbound l (by simpa using h), fun l h => same l (by simpa using h)⟩

/-- Rewinding to a former size restores all positions of that time. -/
theorem position?_rewind {b x : CodeBuffer} (grown : b.Grown x) (l : Label) :
    (x.rewind b.mark).position? l = b.position? l := by
  obtain ⟨unbound, same⟩ := grown.boundSince
  rw [CodeBuffer.position?_rewind]
  by_cases inside : l.index < b.labelCount
  · by_cases recent : l ∈ x.boundSince b.mark
    · simp [recent, unbound l recent]
    · rw [if_pos ⟨inside, recent⟩, same l recent]
  · rw [if_neg (fun both => inside both.1)]
    cases none : b.position? l with
    | none => rfl
    | some p => exact absurd (index_lt_of_position? none) inside

/-- Rewinding to a former size takes back all code since. -/
theorem code_rewind {b x : CodeBuffer} (grown : b.Grown x) : (x.rewind b.mark).code = b.code := by
  obtain ⟨is, code⟩ := grown.code
  rw [rewind_eq, code]
  simp [CodeBuffer.mark]

/-- Rewinding to a former size restores everything but hints. -/
theorem rewind {b x : CodeBuffer} (consistent : b.Consistent) (grown : b.Grown x) :
    x.rewind b.mark = { b with hints := (x.rewind b.mark).hints } := by
  have positions : (x.rewind b.mark).positions = b.positions := by
    have size : (x.rewind b.mark).positions.size = b.positions.size := by
      have := labelCount_rewind (b := x) b.mark
      have := grown.count
      simp only [labelCount, CodeBuffer.mark] at *
      omega
    refine Array.ext size fun i hi hi' => ?_
    have same := grown.position?_rewind ⟨i⟩
    simpa [position?, hi, hi'] using same
  have bindings : (x.rewind b.mark).bindings = b.bindings := by
    obtain ⟨ls, bindings, -⟩ := grown.bound
    rw [rewind_eq, bindings]
    simp [CodeBuffer.mark]
  have measured : (x.rewind b.mark).measured = b.measured := by
    rw [rewind_eq, grown.measured]
    apply Std.ExtHashMap.ext_getElem?
    intro l
    rw [Std.ExtHashMap.getElem?_filter']
    cases found : b.measured[l]? with
    | none => rfl
    | some hint =>
      exact Option.filter_some_pos (decide_eq_true (consistent.measured found))
  have locals : (x.rewind b.mark).locals = b.locals := by
    obtain ⟨ls, locals, new⟩ := grown.locals
    rw [rewind_eq, locals]
    have old : b.locals.filter (·.index < b.mark.labels) = b.locals := by
      rw [Array.filter_eq_self]
      exact fun l mem => decide_eq_true (consistent.locals mem)
    have none : ls.filter (·.index < b.mark.labels) = #[] := by
      rw [Array.filter_eq_empty_iff]
      exact fun l mem => Bool.eq_false_iff.1 (decide_eq_false (Nat.not_lt.2 (new l mem)))
    show Array.filter _ (b.locals ++ ls) 0 (b.locals ++ ls).size = _
    rw [Array.filter_append Array.size_append, old, none, Array.append_empty]
  have used : (x.rewind b.mark).localsUsed = b.localsUsed := by
    have size : (x.rewind b.mark).localsUsed = min b.localsUsed (x.rewind b.mark).locals.size := by
      rw [rewind_eq]
      rfl
    have := consistent.used
    rw [size, locals]
    omega
  rw [← grown.code_rewind, ← positions, ← bindings, ← measured, ← locals, ← used]

/-- After rewinding, a label has a hint if it remains and has been asked about. -/
theorem hints_rewind {b x : CodeBuffer} (consistent : x.Consistent) (grown : b.Grown x)
    (l : Label) :
    (x.rewind b.mark).hints[l]? =
      if l.index < b.labelCount then
        x.hints[l]?.map fun hint => { hint with target := b.position? l }
      else none := by
  have known := consistent.rewind b.mark
  have found := CodeBuffer.hints_rewind (b := x) b.mark l
  by_cases inside : l.index < b.labelCount
  · rw [if_pos inside]
    cases old : x.hints[l]? with
    | none =>
      rw [found]
      simp [old]
    | some hint =>
      have exists_target : ∃ target, (x.rewind b.mark).hints[l]? = some { hint with target } := by
        rw [found, labels_mark, if_pos inside, old]
        by_cases recent : l ∈ x.boundSince b.mark
        · exact ⟨none, by simp [recent]⟩
        · exact ⟨hint.target, by simp [recent]⟩
      obtain ⟨target, here⟩ := exists_target
      have := known.hint here
      rw [grown.position?_rewind] at this
      rw [here, ← this]
      rfl
  · rw [found, labels_mark, if_neg inside, if_neg inside]

end Grown

/-! ## What makes a buffer grow -/

theorem grown_emitAll (is : List Instruction) : b.Grown (b.emitAll is) := by
  rw [emitAll_eq]
  exact ⟨⟨is.toArray, Array.ext' (by simp)⟩, le_rfl, ⟨#[], by simp, by simp, fun _ _ => rfl⟩,
    fun h => ⟨_, h⟩, rfl, ⟨#[], by simp⟩⟩

theorem grown_hintFor (l : Label) : b.Grown (b.hintFor l).2 where
  code := ⟨#[], by simp⟩
  count := le_rfl
  bound := ⟨#[], by simp [hintFor], by simp, fun _ _ => rfl⟩
  hints {l' hint} h := by
    simp only [hintFor, Std.ExtHashMap.getElem?_insert, beq_iff_eq]
    by_cases same : l = l'
    · subst same
      rw [if_pos rfl, h]
      exact ⟨_, rfl⟩
    · rw [if_neg same]
      exact ⟨_, h⟩
  measured := rfl
  locals := ⟨#[], by simp [hintFor]⟩

theorem grown_localLabel : b.Grown b.localLabel.2 where
  code := ⟨#[], by simp⟩
  count := by
    unfold localLabel
    split
    · exact le_rfl
    · simp [newLabel, labelCount]
  bound := by
    refine ⟨#[], ?_, by simp, fun l _ => position?_localLabel b l⟩
    unfold localLabel
    split <;> simp [newLabel]
  hints {l hint} h := by
    unfold localLabel
    split <;> exact ⟨_, h⟩
  measured := by
    unfold localLabel
    split <;> rfl
  locals := by
    unfold localLabel
    split
    · exact ⟨#[], by simp⟩
    · refine ⟨#[⟨b.positions.size⟩], by simp [newLabel], fun l mem => ?_⟩
      obtain rfl := Array.mem_singleton.1 mem
      exact le_rfl

theorem grown_bind {b' : CodeBuffer} {l : Label} (bound : b.bind l = .ok b') : b.Grown b' := by
  obtain ⟨unbound, code, positions⟩ := bind_eq_ok bound
  obtain rfl := eq_of_bind bound
  refine ⟨⟨#[], by simp⟩, ?_, ⟨#[l], ?_, ?_, ?_⟩, ?_, rfl, ⟨#[], by simp⟩⟩
  · simp [labelCount]
  · exact Array.push_eq_append.symm
  · intro l' mem
    obtain rfl := Array.mem_singleton.1 mem
    exact unbound
  · intro l' absent
    rw [positions, if_neg (fun same => absent (Array.mem_singleton.2 same))]
  · intro l' hint found
    simp only [Std.ExtHashMap.getElem?_modify, beq_iff_eq]
    by_cases same : l = l'
    · subst same
      rw [if_pos rfl, found]
      exact ⟨_, rfl⟩
    · rw [if_neg same]
      exact ⟨_, found⟩

end CodeBuffer

end Multiway
