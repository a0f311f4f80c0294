import Multiway.Proofs.Draft.Rewinding

/-!
# Integrity of a code buffer

The positions of labels are kept in a table, and the labels that are bound in a list of their own. A
buffer is sound if both agree: the list holds each label with a position once, in the order of the
positions, and each position is that of an instruction or the end of the code. Everything that may
be done with a buffer keeps it sound.

Rewinding to a mark that is still standing gives the marked buffer again, whatever has been done
since, but for hints. As those differ, the marked buffer has not grown into the rewound one; it
underlies it, and that is what histories keep.
-/
namespace Multiway

theorem nodup_toList_push {α : Type} {xs : Array α} {a : α} (h : xs.toList.Nodup) (new : a ∉ xs) :
    (xs.push a).toList.Nodup := by
  rw [Array.toList_push, List.nodup_append]
  refine ⟨h, by simp, fun c old d mem same => new ?_⟩
  rw [← List.mem_singleton.1 mem, ← same]
  exact Array.mem_toList_iff.1 old

namespace CodeBuffer

/-- The parts of a buffer agree with each other, and its lists are in order. -/
structure Sound (b : CodeBuffer) : Prop extends b.Consistent where
  mem_bindings : ∀ {l : Label}, l ∈ b.bindings ↔ (b.position? l).isSome
  nodup_bindings : b.bindings.toList.Nodup
  sorted : b.bindings.toList.Pairwise fun l l' =>
    ∀ p ∈ b.position? l, ∀ p' ∈ b.position? l', p ≤ p'
  placed : ∀ {l : Label} {p : ℕ}, b.position? l = some p → instructionBytes ∣ p ∧ p ≤ b.position
  complete : ∀ {l : Label} {h : Hint}, b.measured[l]? = some h → h.isComplete
  nodup_locals : b.locals.toList.Nodup

variable {b x y : CodeBuffer}

theorem sound_empty : Sound {} where
  toConsistent := consistent_empty
  mem_bindings := by simp [position?]
  nodup_bindings := .nil
  sorted := .nil
  placed h := by simp [position?] at h
  complete h := by simp at h
  nodup_locals := .nil

/-- Soundness is about positions and bindings, the length of the code, measured hints and local
labels. -/
theorem Sound.of_positions (h : b.Sound) (consistent : x.Consistent)
    (bindings : x.bindings = b.bindings) (positions : ∀ l, x.position? l = b.position? l)
    (longer : b.position ≤ x.position) (measured : x.measured = b.measured)
    (locals : x.locals.toList.Nodup) : x.Sound where
  toConsistent := consistent
  mem_bindings := by
    intro l
    rw [bindings, positions]
    exact h.mem_bindings
  nodup_bindings := bindings ▸ h.nodup_bindings
  sorted := by
    simp only [bindings, positions]
    exact h.sorted
  placed {l p} found := by
    rw [positions] at found
    exact ⟨(h.placed found).1, (h.placed found).2.trans longer⟩
  complete found := h.complete (measured ▸ found)
  nodup_locals := locals

theorem Sound.emitAll (h : b.Sound) (is : List Instruction) : (b.emitAll is).Sound := by
  refine h.of_positions (h.toConsistent.emitAll is) ?_ (b.position?_emitAll is) ?_ ?_ ?_
  · rw [emitAll_eq]
  · rw [position_emitAll]
    exact Nat.le_add_right _ _
  · rw [emitAll_eq]
  · rw [emitAll_eq]
    exact h.nodup_locals

theorem Sound.newLabel (h : b.Sound) : b.newLabel.2.Sound :=
  h.of_positions h.toConsistent.newLabel rfl b.position?_newLabel le_rfl rfl h.nodup_locals

theorem bindings_localLabel (b : CodeBuffer) : b.localLabel.2.bindings = b.bindings := by
  unfold localLabel
  split <;> rfl

theorem Consistent.nodup_localLabel (h : b.Consistent) (distinct : b.locals.toList.Nodup) :
    b.localLabel.2.locals.toList.Nodup := by
  unfold CodeBuffer.localLabel
  split
  · exact distinct
  · -- A label made anew comes after all labels in the table.
    exact nodup_toList_push distinct fun old => Nat.lt_irrefl _ (h.locals old)

theorem Sound.localLabel (h : b.Sound) : b.localLabel.2.Sound := by
  have measured : b.localLabel.2.measured = b.measured := grown_localLabel.measured
  refine h.of_positions h.toConsistent.localLabel b.bindings_localLabel b.position?_localLabel ?_
    measured (h.nodup_localLabel h.nodup_locals)
  rw [position, position, code_localLabel]

theorem Sound.hintFor (h : b.Sound) (l : Label) : (b.hintFor l).2.Sound :=
  h.of_positions (h.toConsistent.hintFor l) rfl (b.position?_hintFor l) le_rfl rfl h.nodup_locals

theorem bindings_of_bind {l : Label} (bound : b.bind l = .ok x) :
    x.bindings = b.bindings.push l ∧ x.measured = b.measured ∧ x.locals = b.locals ∧
      x.localsUsed = b.localsUsed := by
  obtain rfl := eq_of_bind bound
  exact ⟨rfl, rfl, rfl, rfl⟩

theorem Sound.bind (h : b.Sound) {l : Label} (bound : b.bind l = .ok x) : x.Sound := by
  obtain ⟨unbound, code, positions⟩ := bind_eq_ok bound
  obtain ⟨bindings, measured, locals, -⟩ := bindings_of_bind bound
  have position : x.position = b.position := by rw [position, position, code]
  have new : l ∉ b.bindings := by
    rw [h.mem_bindings, unbound]
    simp
  have kept {l' : Label} (mem : l' ∈ b.bindings.toList) : x.position? l' = b.position? l' := by
    rw [positions, if_neg]
    rintro rfl
    exact new (Array.mem_toList_iff.1 mem)
  refine ⟨h.toConsistent.bind bound, ?_, ?_, ?_, ?_, ?_, ?_⟩
  · intro l'
    rw [bindings, Array.mem_push, positions, h.mem_bindings]
    split_ifs with same <;> simp [same]
  · rw [bindings]
    exact nodup_toList_push h.nodup_bindings new
  · rw [bindings, Array.toList_push, List.pairwise_append]
    refine ⟨?_, List.pairwise_singleton _ _, ?_⟩
    · refine h.sorted.imp_of_mem fun {l₁ l₂} mem₁ mem₂ le => ?_
      rw [kept mem₁, kept mem₂]
      exact le
    · intro l' old l'' mem p found p' here
      obtain rfl := List.mem_singleton.1 mem
      rw [kept old] at found
      rw [positions, if_pos rfl] at here
      cases here
      exact (h.placed found).2
  · intro l' p found
    rw [positions] at found
    rw [position]
    split_ifs at found
    · cases found
      exact ⟨Nat.dvd_mul_left _ _, le_rfl⟩
    · exact h.placed found
  · rw [measured]
    exact h.complete
  · rw [locals]
    exact h.nodup_locals

theorem position?_nextPass (b : CodeBuffer) (l : Label) : b.nextPass.position? l = none := by
  simp only [nextPass, position?, Array.getElem?_replicate]
  split_ifs <;> rfl

theorem Sound.nextPass (h : b.Sound) : b.nextPass.Sound := by
  refine ⟨h.toConsistent.nextPass, ?_, .nil, .nil, ?_, ?_, h.nodup_locals⟩
  · intro l
    rw [position?_nextPass]
    simp [CodeBuffer.nextPass]
  · intro l p found
    rw [position?_nextPass] at found
    contradiction
  · intro l hint found
    simp only [measured_nextPass, Option.or_eq_some_iff, Option.filter_eq_some_iff] at found
    obtain ⟨-, complete⟩ | ⟨-, old⟩ := found
    · exact complete
    · exact h.complete old

/-! ## Actions -/

/-- What may be done with a buffer within a pass. -/
inductive Action where
  | newLabel
  | localLabel
  | bind (l : Label)
  | hint (l : Label)
  | append (i : Instruction)
  | separateFused
  | appendFused (test : FlagTest) (codes : CodeSet) (left : Register) (right : Operand)
    (target : Label)
  | appendJump (target : Label)

/-- The buffer after an action; a label that cannot be bound leaves it as it is. -/
def act (b : CodeBuffer) : Action → CodeBuffer
  | .newLabel => b.newLabel.2
  | .localLabel => b.localLabel.2
  | .bind l =>
    match b.bind l with
    | .ok b' => b'
    | .error _ => b
  | .hint l => (b.hintFor l).2
  | .append i => b.emit i
  | .separateFused => b.separateFused
  | .appendFused test codes left right target => b.emitFused test codes left right target
  | .appendJump target => b.emitJump target

theorem emitFused_eq (b : CodeBuffer) (test : FlagTest) (codes : CodeSet) (left : Register)
    (right : Operand) (target : Label) :
    b.emitFused test codes left right target = b.emitAll
      ((if b.hazard = .afterFused then [.nop] else []) ++
        [.fused test codes left right target]) := by
  rw [emitFused, separateFused_eq, emitAll_append]
  rfl

theorem grown_newLabel : b.Grown b.newLabel.2 where
  code := ⟨#[], by simp [newLabel]⟩
  count := by simp [newLabel, labelCount]
  bound := ⟨#[], by simp [newLabel], by simp, fun l _ => b.position?_newLabel l⟩
  hints found := ⟨_, found⟩
  measured := rfl
  locals := ⟨#[], by simp [newLabel]⟩

theorem grown_act (a : Action) : b.Grown (b.act a) := by
  cases a with
  | newLabel => exact grown_newLabel
  | localLabel => exact grown_localLabel
  | bind l =>
    simp only [act]
    cases bound : b.bind l with
    | ok b' => exact grown_bind bound
    | error e => exact .refl b
  | hint l => exact grown_hintFor l
  | append i => exact grown_emitAll [i]
  | separateFused =>
    simp only [act, separateFused_eq]
    exact grown_emitAll _
  | appendFused test codes left right target =>
    simp only [act, emitFused_eq]
    exact grown_emitAll _
  | appendJump target => exact grown_emitAll [.jump target, .nop]

theorem Sound.act (h : b.Sound) (a : Action) : (b.act a).Sound := by
  cases a with
  | newLabel => exact h.newLabel
  | localLabel => exact h.localLabel
  | bind l =>
    simp only [CodeBuffer.act]
    cases bound : b.bind l with
    | ok b' => exact h.bind bound
    | error e => exact h
  | hint l => exact h.hintFor l
  | append i => exact h.emitAll [i]
  | separateFused =>
    simp only [CodeBuffer.act, separateFused_eq]
    exact h.emitAll _
  | appendFused test codes left right target =>
    simp only [CodeBuffer.act, emitFused_eq]
    exact h.emitAll _
  | appendJump target => exact h.emitAll [.jump target, .nop]

/-! ## What underlies a buffer -/

/-- The second buffer has grown out of the first one, whatever has become of hints. -/
def Underlies (b x : CodeBuffer) : Prop := { b with hints := ∅ }.Grown x

theorem Grown.underlies (grown : b.Grown x) : b.Underlies x :=
  ⟨grown.code, grown.count, grown.bound, fun found => by simp at found, grown.measured,
    grown.locals⟩

theorem Underlies.of_hints (h : b.Underlies x) (hints : Std.ExtHashMap Label Hint) :
    b.Underlies { x with hints } :=
  ⟨h.code, h.count, h.bound, fun found => by simp at found, h.measured, h.locals⟩

theorem Underlies.trans (first : b.Underlies x) (second : x.Underlies y) : b.Underlies y := by
  -- `x` grows into `y` from a state without hints, so that is the state to reach from `b`.
  have middle : b.Underlies { x with hints := ∅ } := first.of_hints ∅
  exact Grown.trans middle second

/-- Rewinding restores everything but hints, and does not fail. -/
theorem Underlies.rewind (h : b.Underlies x) (sound : b.Sound) :
    x.rewind? b.mark = some (x.rewind b.mark) ∧
      x.rewind b.mark = { b with hints := (x.rewind b.mark).hints } := by
  have enough : b.mark.bindings ≤ x.bindings.size := by
    obtain ⟨ls, bindings, -⟩ := h.bound
    rw [bindings, Array.size_append]
    exact Nat.le_add_right _ _
  have consistent : { b with hints := ∅ }.Consistent :=
    ⟨fun found => by simp at found, sound.measured, sound.locals, sound.used⟩
  exact ⟨if_pos enough, Grown.rewind (b := { b with hints := ∅ }) consistent h⟩

theorem Underlies.sound_rewind (h : b.Underlies x) (sound : b.Sound) (later : x.Sound) :
    (x.rewind b.mark).Sound := by
  have same := (h.rewind sound).2
  have consistent := later.toConsistent.rewind b.mark
  rw [same] at consistent ⊢
  exact sound.of_positions consistent rfl (fun _ => rfl) le_rfl rfl sound.nodup_locals

/-- A buffer underlies what it is rewound to. -/
theorem Underlies.underlies_rewind (h : b.Underlies x) (sound : b.Sound) :
    b.Underlies (x.rewind b.mark) := by
  rw [(h.rewind sound).2]
  exact (Grown.refl b).underlies.of_hints _

/-! ## Histories -/

/-- A buffer that some history leads to, and the buffers at the marks that are still standing, the
latest one first. A mark falls when the buffer is rewound to an earlier one or a pass begins. -/
inductive Reached : CodeBuffer → List CodeBuffer → Prop
  | empty : Reached .empty []
  | act {b : CodeBuffer} {standing : List CodeBuffer} (a : Action) :
    Reached b standing → Reached (b.act a) standing
  | mark {b : CodeBuffer} {standing : List CodeBuffer} :
    Reached b standing → Reached b (b :: standing)
  | rewind {b s : CodeBuffer} {later earlier : List CodeBuffer} :
    Reached b (later ++ s :: earlier) → Reached (b.rewind s.mark) (s :: earlier)
  | nextPass {b : CodeBuffer} {standing : List CodeBuffer} :
    Reached b standing → Reached b.nextPass []

/-- Each marked buffer is sound and underlies what came later. -/
def Backed (b : CodeBuffer) : List CodeBuffer → Prop
  | [] => True
  | s :: earlier => s.Sound ∧ s.Underlies b ∧ s.Backed earlier

theorem Backed.of_underlies {standing : List CodeBuffer} (h : b.Backed standing)
    (underlies : b.Underlies x) : x.Backed standing := by
  cases standing with
  | nil => trivial
  | cons s earlier =>
    obtain ⟨sound, below, backed⟩ := h
    exact ⟨sound, below.trans underlies, backed⟩

theorem Backed.tail {later standing : List CodeBuffer} (h : b.Backed (later ++ standing)) :
    b.Backed standing := by
  induction later generalizing b with
  | nil => exact h
  | cons s later ih =>
    obtain ⟨-, underlies, backed⟩ := h
    exact (ih backed).of_underlies underlies

theorem Backed.of_mem {standing : List CodeBuffer} (h : b.Backed standing) {s : CodeBuffer}
    (mem : s ∈ standing) : s.Sound ∧ s.Underlies b := by
  obtain ⟨later, earlier, rfl⟩ := List.append_of_mem mem
  obtain ⟨sound, underlies, -⟩ := h.tail
  exact ⟨sound, underlies⟩

theorem Reached.sound_and_backed {standing : List CodeBuffer} (h : Reached b standing) :
    b.Sound ∧ b.Backed standing := by
  induction h with
  | empty => exact ⟨sound_empty, trivial⟩
  | act a _ ih => exact ⟨ih.1.act a, ih.2.of_underlies (grown_act a).underlies⟩
  | mark _ ih => exact ⟨ih.1, ih.1, (Grown.refl _).underlies, ih.2⟩
  | rewind _ ih =>
    obtain ⟨sound, underlies, backed⟩ := ih.2.tail
    exact ⟨underlies.sound_rewind sound ih.1, sound, underlies.underlies_rewind sound, backed⟩
  | nextPass _ ih => exact ⟨ih.1.nextPass, trivial⟩

/-- After every history a buffer is sound, and rewinding to a mark that is still standing restores
the buffer at that mark but for hints. -/
theorem integrity_of_reached {standing : List CodeBuffer} (reached : Reached b standing) :
    b.Sound ∧ ∀ s ∈ standing, ∃ x, b.rewind? s.mark = some x ∧ x = { s with hints := x.hints } := by
  obtain ⟨sound, backed⟩ := reached.sound_and_backed
  refine ⟨sound, fun s mem => ?_⟩
  obtain ⟨below, underlies⟩ := backed.of_mem mem
  obtain ⟨rewound, same⟩ := underlies.rewind below
  exact ⟨_, rewound, same⟩

/-- Two marks are standing, and the buffer has been rewound to the later one. -/
theorem integrity_of_reached_nested :
    let s := empty.act .newLabel
    let t := (s.act (.bind ⟨0⟩)).act .localLabel
    let b := ((t.act (.append .nop)).act (.bind ⟨1⟩)).rewind t.mark
    Reached b [t, s] ∧ b.Sound ∧
      ∀ m ∈ [t, s], ∃ x, b.rewind? m.mark = some x ∧ x = { m with hints := x.hints } := by
  intro s t b
  have first : Reached s [s] := .mark (.act .newLabel .empty)
  have second : Reached t [t, s] := .mark (.act .localLabel (.act (.bind ⟨0⟩) first))
  have later : Reached ((t.act (.append .nop)).act (.bind ⟨1⟩)) ([] ++ t :: [s]) :=
    .act (.bind ⟨1⟩) (.act (.append .nop) second)
  exact ⟨later.rewind, integrity_of_reached later.rewind⟩

end CodeBuffer

end Multiway
