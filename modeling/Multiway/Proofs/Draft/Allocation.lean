import Multiway.Proofs.Draft.Locals

/-!
# The allocation of labels

Ordinary and local labels come from one table. A ledger notes beside a buffer which labels it has
handed out in either way, the local ones for each pass, and rewinding strikes what has been noted
since the mark. The local labels of every pass are the first ones of one list, and this list is as
long as the longest pass. So a pass gets the labels that an earlier one got, in the same order, and
shares none of them with those who ask for ordinary labels.
-/
namespace Multiway

theorem Label.index_lt_succ_iff {l : Label} {n : ℕ} : l.index < n + 1 ↔ l.index < n ∨ l = ⟨n⟩ := by
  obtain ⟨i⟩ := l
  rw [Nat.lt_succ_iff_lt_or_eq, Label.mk.injEq]

namespace CodeBuffer

/-- A local label is the next one of the list, or a new label at the end of it. -/
theorem localLabel_eq_next_or_new (b : CodeBuffer) :
    (b.locals[b.localsUsed]? = some b.localLabel.1 ∧ b.localLabel.2.locals = b.locals ∧
      b.localLabel.2.labelCount = b.labelCount) ∨
    (b.locals.size ≤ b.localsUsed ∧ b.localLabel.1 = ⟨b.labelCount⟩ ∧
      b.localLabel.2.locals = b.locals.push ⟨b.labelCount⟩ ∧
      b.localLabel.2.labelCount = b.labelCount + 1) := by
  unfold localLabel
  split
  · next l reused => exact Or.inl ⟨reused, rfl, rfl⟩
  · next none =>
    refine Or.inr ⟨Array.getElem?_eq_none_iff.1 none, rfl, rfl, ?_⟩
    simp [newLabel, labelCount]

theorem labelCount_bind {b b' : CodeBuffer} {l : Label} (bound : b.bind l = .ok b') :
    b'.labelCount = b.labelCount := by
  obtain rfl := eq_of_bind bound
  simp [labelCount]

end CodeBuffer

open CodeBuffer

/-- A buffer, and the labels that it has handed out. -/
structure Ledger where
  buffer : CodeBuffer := .empty
  /-- The ordinary labels. -/
  made : List Label := []
  /-- The local labels that this pass has asked for, in order. -/
  asked : List Label := []
  /-- What the earlier passes have asked for, the latest pass first. -/
  earlier : List (List Label) := []

namespace Ledger

/-- The local labels of all passes. -/
def passes (t : Ledger) : List (List Label) := t.asked :: t.earlier

/-- An action, with a note of the label that it hands out. -/
def act (t : Ledger) (a : Action) : Ledger where
  buffer := t.buffer.act a
  made :=
    match a with
    | .newLabel => t.made ++ [t.buffer.newLabel.1]
    | _ => t.made
  asked :=
    match a with
    | .localLabel => t.asked ++ [t.buffer.localLabel.1]
    | _ => t.asked
  earlier := t.earlier

def nextPass (t : Ledger) : Ledger :=
  { t with buffer := t.buffer.nextPass, asked := [], earlier := t.passes }

/-- A ledger that some history leads to, and the ledgers at the marks that are still standing, the
latest one first. Rewinding a buffer takes the ledger back to what it was at the mark. -/
inductive Reached : Ledger → List Ledger → Prop
  | empty : Reached {} []
  | act {t : Ledger} {standing : List Ledger} (a : Action) :
    Reached t standing → Reached (t.act a) standing
  | mark {t : Ledger} {standing : List Ledger} : Reached t standing → Reached t (t :: standing)
  | rewind {t s : Ledger} {later earlier : List Ledger} : Reached t (later ++ s :: earlier) →
    Reached { s with buffer := t.buffer.rewind s.buffer.mark } (s :: earlier)
  | nextPass {t : Ledger} {standing : List Ledger} : Reached t standing → Reached t.nextPass []

/-- The ledger agrees with its buffer. -/
structure Balanced (t : Ledger) : Prop where
  asked : t.asked = t.buffer.handedOut
  earlier : ∀ xs ∈ t.earlier, xs <+: t.buffer.locals.toList
  longest : t.buffer.locals.toList ∈ t.passes
  allocated : ∀ l : Label, l.index < t.buffer.labelCount ↔ l ∈ t.made ∨ l ∈ t.buffer.locals
  apart : ∀ l ∈ t.made, l ∉ t.buffer.locals

variable {t s : Ledger}

/-- The local labels of a pass are the first ones of the list. -/
theorem Balanced.initial (h : t.Balanced) {xs : List Label} (mem : xs ∈ t.passes) :
    xs <+: t.buffer.locals.toList := by
  obtain rfl | mem := List.mem_cons.1 mem
  · rw [h.asked]
    exact List.take_prefix _ _
  · exact h.earlier xs mem

/-! ## One step -/

/-- What the notes are about changes only as labels are handed out. -/
theorem Balanced.of_eq (h : t.Balanced) {b : CodeBuffer} (locals : b.locals = t.buffer.locals)
    (used : b.localsUsed = t.buffer.localsUsed) (count : b.labelCount = t.buffer.labelCount) :
    Balanced { t with buffer := b } where
  asked := by rw [h.asked, handedOut, handedOut, locals, used]
  earlier xs mem := locals ▸ h.earlier xs mem
  longest := locals ▸ h.longest
  allocated l := by
    rw [count, locals]
    exact h.allocated l
  apart l mem := by
    rw [locals]
    exact h.apart l mem

theorem Balanced.newLabel (h : t.Balanced) (consistent : t.buffer.Consistent) :
    (t.act .newLabel).Balanced where
  asked := h.asked
  earlier := h.earlier
  longest := h.longest
  allocated l := by
    have count : (t.act .newLabel).buffer.labelCount = t.buffer.labelCount + 1 := by
      simp [Ledger.act, CodeBuffer.act, CodeBuffer.newLabel, labelCount]
    have made : (t.act .newLabel).made = t.made ++ [⟨t.buffer.labelCount⟩] := rfl
    rw [count, made, Label.index_lt_succ_iff, h.allocated l, List.mem_append, List.mem_singleton]
    exact or_right_comm
  apart l mem held := by
    obtain old | new := List.mem_append.1 mem
    · exact h.apart l old held
    · obtain rfl := List.mem_singleton.1 new
      exact Nat.lt_irrefl _ (consistent.locals held)

theorem Balanced.length_asked (h : t.Balanced) (consistent : t.buffer.Consistent) :
    t.asked.length = t.buffer.localsUsed := by
  rw [h.asked, handedOut, List.length_take, Array.length_toList]
  exact Nat.min_eq_left consistent.used

theorem Balanced.localLabel (h : t.Balanced) (consistent : t.buffer.Consistent) :
    (t.act .localLabel).Balanced := by
  obtain ⟨handedOut, -⟩ := consistent.localLabel_cases
  have buffer : (t.act .localLabel).buffer = t.buffer.localLabel.2 := rfl
  have asked : (t.act .localLabel).asked = t.buffer.localLabel.2.handedOut := by
    rw [handedOut, ← h.asked]
    rfl
  obtain ⟨reused, locals, count⟩ | ⟨used, new, locals, count⟩ :=
    localLabel_eq_next_or_new t.buffer
  · refine ⟨asked, fun xs mem => ?_, ?_, fun l => ?_, fun l mem => ?_⟩
    · exact locals ▸ h.earlier xs mem
    · -- this pass has not got to the end of the list, so an earlier one has
      obtain whole | longest := List.mem_cons.1 h.longest
      · obtain ⟨inside, -⟩ := Array.getElem?_eq_some_iff.1 reused
        rw [← h.length_asked consistent, ← whole, Array.length_toList] at inside
        exact absurd inside (Nat.lt_irrefl _)
      · exact List.mem_cons_of_mem _ (locals ▸ longest)
    · exact count ▸ locals ▸ h.allocated l
    · exact locals ▸ h.apart l mem
  · have list : t.buffer.localLabel.2.locals.toList =
        t.buffer.locals.toList ++ [⟨t.buffer.labelCount⟩] := by
      rw [locals, Array.toList_push]
    refine ⟨asked, fun xs mem => ?_, ?_, fun l => ?_, fun l mem held => ?_⟩
    · rw [buffer, list]
      exact (h.earlier xs mem).trans (List.prefix_append _ _)
    · have whole : t.buffer.handedOut = t.buffer.locals.toList :=
        List.take_of_length_le (by rwa [Array.length_toList])
      have same : t.buffer.localLabel.2.locals.toList = (t.act .localLabel).asked := by
        rw [asked, handedOut, whole, new, list]
      exact List.mem_cons.2 (Or.inl same)
    · rw [buffer, count, locals, Array.mem_push, Label.index_lt_succ_iff, h.allocated l, or_assoc]
      rfl
    · have old : l.index < t.buffer.labelCount := (h.allocated l).2 (Or.inl mem)
      rw [buffer, locals, Array.mem_push] at held
      obtain held | rfl := held
      · exact h.apart l mem held
      · exact Nat.lt_irrefl _ old

theorem Balanced.act (h : t.Balanced) (consistent : t.buffer.Consistent) (a : Action) :
    (t.act a).Balanced := by
  have emitted (is : List Instruction) : Balanced { t with buffer := t.buffer.emitAll is } := by
    rw [emitAll_eq]
    exact h.of_eq rfl rfl rfl
  cases a with
  | newLabel => exact h.newLabel consistent
  | localLabel => exact h.localLabel consistent
  | bind l =>
    simp only [Ledger.act, CodeBuffer.act]
    cases bound : t.buffer.bind l with
    | error e => exact h
    | ok b =>
      obtain ⟨-, -, locals, used⟩ := bindings_of_bind bound
      exact h.of_eq locals used (labelCount_bind bound)
  | hint l => exact h.of_eq rfl rfl rfl
  | append i => exact emitted [i]
  | separateFused =>
    simp only [Ledger.act, CodeBuffer.act, separateFused_eq]
    exact emitted _
  | appendFused test codes left right target =>
    simp only [Ledger.act, CodeBuffer.act, emitFused_eq]
    exact emitted _
  | appendJump target => exact emitted [.jump target, .nop]

theorem Balanced.nextPass (h : t.Balanced) : t.nextPass.Balanced where
  asked := rfl
  earlier xs mem := h.initial mem
  longest := List.mem_cons_of_mem _ h.longest
  allocated l := by
    have count : t.nextPass.buffer.labelCount = t.buffer.labelCount := by
      simp [Ledger.nextPass, CodeBuffer.nextPass, labelCount]
    rw [count]
    exact h.allocated l
  apart := h.apart

/-! ## Histories -/

theorem Reached.buffer {standing : List Ledger} (h : Reached t standing) :
    CodeBuffer.Reached t.buffer (standing.map (·.buffer)) := by
  induction h with
  | empty => exact .empty
  | act a _ ih => exact ih.act a
  | mark _ ih => exact ih.mark
  | rewind _ ih =>
    rw [List.map_append] at ih
    exact ih.rewind
  | nextPass _ ih => exact ih.nextPass

theorem balanced_empty : Balanced {} where
  asked := rfl
  earlier xs mem := absurd mem List.not_mem_nil
  longest := List.mem_singleton.2 rfl
  allocated l := by simp [CodeBuffer.empty, labelCount]
  apart l mem := absurd mem List.not_mem_nil

theorem Reached.balanced {standing : List Ledger} (h : Reached t standing) :
    t.Balanced ∧ ∀ s ∈ standing, s.Balanced := by
  induction h with
  | empty => exact ⟨balanced_empty, fun s mem => absurd mem List.not_mem_nil⟩
  | act a reached ih => exact ⟨ih.1.act reached.buffer.sound_and_backed.1.toConsistent a, ih.2⟩
  | mark _ ih => exact ⟨ih.1, List.forall_mem_cons.2 ih⟩
  | @rewind t s later earlier reached ih =>
    have standing := reached.buffer.sound_and_backed.2
    rw [List.map_append] at standing
    obtain ⟨sound, underlies, -⟩ := standing.tail
    obtain ⟨-, balanced⟩ := ih
    have below : s.Balanced := balanced s (List.mem_append_right _ List.mem_cons_self)
    refine ⟨?_, fun s' mem => balanced s' (List.mem_append_right _ mem)⟩
    -- the buffer is that of the mark again but for its hints, which no note is about
    rw [(underlies.rewind sound).2]
    exact below.of_eq rfl rfl rfl
  | nextPass _ ih => exact ⟨ih.1.nextPass, fun s mem => absurd mem List.not_mem_nil⟩

theorem Balanced.getElem?_locals (h : t.Balanced) {xs : List Label} (mem : xs ∈ t.passes) {n : ℕ}
    {l : Label} (found : xs[n]? = some l) : t.buffer.locals.toList[n]? = some l := by
  obtain ⟨rest, locals⟩ := h.initial mem
  obtain ⟨inside, -⟩ := List.getElem?_eq_some_iff.1 found
  rw [← locals, List.getElem?_append_left inside, found]

/-- After every history, the `n`th local label of a pass is that of every other pass that has got
that far, and no other one of them. Each label in the table is either an ordinary one or a local one
of some pass. A pass that asks for no more local labels than an earlier one adds none of them to the
table. -/
theorem locals_stable_and_private {standing : List Ledger} (reached : Reached t standing) :
    (∀ xs ∈ t.passes, ∀ ys ∈ t.passes, ∀ (m n : ℕ) (l l' : Label),
      xs[m]? = some l → ys[n]? = some l' → (l = l' ↔ m = n)) ∧
    (∀ l : Label, l.index < t.buffer.labelCount ↔ l ∈ t.made ∨ ∃ xs ∈ t.passes, l ∈ xs) ∧
    (∀ l ∈ t.made, ∀ xs ∈ t.passes, l ∉ xs) ∧
    (∀ xs ∈ t.earlier, t.asked.length < xs.length →
      (t.act .localLabel).buffer.labelCount = t.buffer.labelCount) := by
  have balanced := reached.balanced.1
  have sound := reached.buffer.sound_and_backed.1
  refine ⟨?_, fun l => ?_, fun l made xs mem held => ?_, fun xs mem shorter => ?_⟩
  · intro xs hxs ys hys m n l l' hl hl'
    have first := balanced.getElem?_locals hxs hl
    have second := balanced.getElem?_locals hys hl'
    constructor
    · rintro rfl
      obtain ⟨inside, -⟩ := List.getElem?_eq_some_iff.1 first
      exact (List.getElem?_inj inside sound.nodup_locals).1 (first.trans second.symm)
    · rintro rfl
      exact Option.some.inj (first.symm.trans second)
  · rw [balanced.allocated l]
    refine or_congr_right ⟨fun held => ?_, fun ⟨xs, mem, held⟩ => ?_⟩
    · exact ⟨_, balanced.longest, Array.mem_toList_iff.2 held⟩
    · exact Array.mem_toList_iff.1 ((balanced.initial mem).subset held)
  · exact balanced.apart l made (Array.mem_toList_iff.1 ((balanced.initial mem).subset held))
  · obtain ⟨-, -, count⟩ | ⟨used, -⟩ := localLabel_eq_next_or_new t.buffer
    · exact count
    · have length : xs.length ≤ t.buffer.locals.size := (balanced.earlier xs mem).length_le
      rw [balanced.length_asked sound.toConsistent] at shorter
      exact absurd (shorter.trans_le length) (Nat.not_lt.2 used)

/-- An ordinary label gets the index of a local one that has been taken back. The next pass gets the
same local label as this one nevertheless. -/
theorem locals_stable_after_rewinding :
    let first := (({} : Ledger).act .localLabel).buffer.rewind CodeBuffer.empty.mark
    let t := ((({ buffer := first } : Ledger).act .newLabel).act .localLabel).nextPass
    Reached t [] ∧ t.earlier = [[⟨1⟩]] ∧ (t.act .localLabel).asked = [⟨1⟩] ∧
      (t.act .localLabel).buffer.labelCount = t.buffer.labelCount := by
  intro first t
  have asked : Reached (({} : Ledger).act .localLabel) ([] ++ ({} : Ledger) :: []) :=
    .act .localLabel (.mark .empty)
  have start : Reached { buffer := first } [{}] := asked.rewind
  have reached : Reached t [] := .nextPass (.act .localLabel (.act .newLabel start))
  obtain ⟨-, -, -, kept⟩ := locals_stable_and_private reached
  exact ⟨reached, rfl, rfl, kept [⟨1⟩] List.mem_cons_self (by decide)⟩

end Ledger

end Multiway
