import Multiway.Proofs.Passes.Result

/-!
# Fused branches out of reach

A fused branch is chosen by a distance of the pass before, lengthened by the slack of the machine.
If other comparisons become longer again meanwhile, the branch may end out of reach. Each of them
takes two instructions, so it takes more than half as many of them as the slack counts.
-/
namespace Multiway

/-- The number of comparisons that are fused in one draft but no longer in another. -/
def Draft.lengthened (d d' : Draft) : ℕ :=
  (d.forms.zip d'.forms).countP fun x => x.1 && !x.2

namespace Script

variable {s : Script} {m : Machine} {callers : ℕ}

theorem lengthened_afterPasses (accepted : ∀ x ∈ s, x.Accepted callers)
    (once : (s.outline callers).BindsOnce) (n : ℕ) :
    (s.afterPasses m callers (n + 1)).lengthened (s.afterPasses m callers (n + 2)) =
      Outline.reverted ((s.outline callers).formsOf m n) ((s.outline callers).formsOf m (n + 1))
        (s.outline callers).length := by
  have first := (stage_afterPasses (m := m) accepted once n).2
  have second := (stage_afterPasses (m := m) accepted once (n + 1)).2
  rw [Draft.lengthened, first.forms_draft, second.forms_draft, ← Outline.formsOf_eq,
    ← Outline.formsOf_eq]
  exact Outline.countP_zip_comparing _ (fun i => Outline.isComparison_of_formsOf) _

theorem fits_outline (accepted : ∀ x ∈ s, x.Accepted callers)
    (once : (s.outline callers).BindsOnce) {n : ℕ}
    (small : (s.afterPasses m callers (n + 1)).code.code.size < bufferBound) :
    (s.outline callers).Fits m n := by
  rwa [(stage_afterPasses accepted once n).2.size, ← Outline.formsOf_eq] at small

/-- Every pass over a script goes through. Layout stops at a fused branch exactly if that is the
first instruction that cannot be encoded and its label is more than 511 instructions ahead, and it
does so only if the comparisons that have become longer again since the pass before take more
instructions than the slack. -/
theorem rejectsFused_afterPasses_iff (slack : m.slack < modulus 60)
    (accepted : ∀ x ∈ s, x.Accepted callers) (once : s.bound.Nodup) (n : ℕ)
    (small : (s.afterPasses m callers n).code.code.size < bufferBound)
    (small' : (s.afterPasses m callers (n + 1)).code.code.size < bufferBound) :
    let d := s.afterPasses m callers n
    let d' := s.afterPasses m callers (n + 1)
    (∀ r ∈ Draft.responses s.operations d.nextPass, r = .done) ∧
      (d'.RejectsFused ↔ ∃ k x l destination, d'.code.code[k]? = some x ∧ x.isFused ∧
        x.target? = some l ∧ d'.code.position? l = some destination ∧
          (k + 511) * instructionBytes < destination ∧ ∀ j < k, d'.Encodes j) ∧
      (d'.RejectsFused → m.slack < 2 * d.lengthened d') := by
  intro d d'
  have bindsOnce : (s.outline callers).BindsOnce := bindsOnce_outline accepted once
  obtain ⟨done, stage⟩ := stage_afterPasses (m := m) accepted bindsOnce n
  refine ⟨done, stage.rejectsFused_iff_ahead slack bindsOnce small', fun rejects => ?_⟩
  have fits (k : ℕ) (hk : n = k + 1) : (s.outline callers).Fits m k := by
    subst hk
    exact fits_outline accepted bindsOnce small
  obtain ⟨k, rfl, grown⟩ := stage.slack_lt_of_rejectsFused slack bindsOnce small' fits rejects
  have lengthened : d.lengthened d' = _ := lengthened_afterPasses accepted bindsOnce k
  rwa [lengthened]

/-! ## A script that is too crowded

Two comparisons at the end of the script branch back over 510 instructions in the first pass. In
the second pass, fused branches near the beginning take `nop`s between them, the two get out of
reach and become longer again, and so the distance forward to the end exceeds its estimate by
four. -/

/-- A switch over small keys in the order in which they are given. -/
def inOrder (keys : List Int32) (h : List.range keys.length ≠ []) (routes : Routes) : Switch where
  strategy := .linear ⟨(keys.map Key.immediate).toArray, List.range keys.length, h⟩
  routes := routes
  value := .inBank .outs 0
  width := .word
  base := some (.inBank .outs 1)
  scratch := .inBank .globals 1

theorem accepted_inOrder {keys : List Int32} {h : List.range keys.length ≠ []} {routes : Routes}
    (checked : (inOrder keys h routes).check = .ok (inOrder keys h routes))
    (differ : LinearSearch.ofKeys (keys.map .immediate) =
      .ok ⟨(keys.map Key.immediate).toArray, List.range keys.length, h⟩)
    (below : routes.Below callers) : (Step.emit (inOrder keys h routes)).Accepted callers :=
  ⟨⟨_, checked⟩, .inOrder differ, below⟩

/-- A script over three labels with a fused branch that ends out of reach. -/
def crowded : Script := [
  .emit (inOrder [0] (by decide) ⟨#[⟨1⟩], ⟨0⟩, some ⟨0⟩⟩),
  .bind ⟨0⟩,
  .emit (inOrder [0] (by decide) ⟨#[⟨0⟩], ⟨2⟩, none⟩),
  .bind ⟨1⟩,
  .nops 3,
  .emit (inOrder [0, 1, 2] (by decide) ⟨#[⟨0⟩, ⟨2⟩, ⟨0⟩], ⟨2⟩, none⟩),
  .nops 497,
  .emit (inOrder [0] (by decide) ⟨#[⟨0⟩], ⟨2⟩, none⟩),
  .emit (inOrder [0] (by decide) ⟨#[⟨1⟩], ⟨2⟩, none⟩),
  .bind ⟨2⟩]

theorem accepted_crowded : ∀ x ∈ crowded, x.Accepted 3 := by
  intro x mem
  simp only [crowded, List.mem_cons, List.not_mem_nil, or_false] at mem
  obtain rfl | rfl | rfl | rfl | rfl | rfl | rfl | rfl | rfl | rfl := mem
  · exact accepted_inOrder rfl rfl (by decide)
  · show 0 < 3
    decide
  · exact accepted_inOrder rfl rfl (by decide)
  · show 1 < 3
    decide
  · trivial
  · exact accepted_inOrder rfl rfl (by decide)
  · trivial
  · exact accepted_inOrder rfl rfl (by decide)
  · exact accepted_inOrder rfl rfl (by decide)
  · show 2 < 3
    decide

/-- The code of a script has no more room than its outline in every pass. -/
theorem size_afterPasses_le (accepted : ∀ x ∈ s, x.Accepted callers) (once : s.bound.Nodup)
    (n : ℕ) : (s.afterPasses m callers n).code.code.size ≤
      ((s.outline callers).map Piece.room).sum := by
  cases n with
  | zero =>
    rw [afterPasses, after_newLabels]
    exact Nat.zero_le _
  | succ n =>
    have stage := (stage_afterPasses (m := m) accepted (bindsOnce_outline accepted once) n).2
    rw [stage.size]
    exact Outline.offset_le_sum_room _

theorem size_crowded_lt (m : Machine) (n : ℕ) :
    (crowded.afterPasses m 3 n).code.code.size < bufferBound := by
  have room : ((crowded.outline 3).map Piece.room).sum < bufferBound := by decide +kernel
  exact (size_afterPasses_le accepted_crowded (by decide) n).trans_lt room

theorem rejectsFused_iff_crowded :
    let d := crowded.afterPasses ⟨true, 2⟩ 3 1
    let d' := crowded.afterPasses ⟨true, 2⟩ 3 (1 + 1)
    (∀ r ∈ Draft.responses crowded.operations d.nextPass, r = .done) ∧
      (d'.RejectsFused ↔ ∃ k x l destination, d'.code.code[k]? = some x ∧ x.isFused ∧
        x.target? = some l ∧ d'.code.position? l = some destination ∧
          (k + 511) * instructionBytes < destination ∧ ∀ j < k, d'.Encodes j) ∧
      (d'.RejectsFused → (⟨true, 2⟩ : Machine).slack < 2 * d.lengthened d') :=
  rejectsFused_afterPasses_iff (by decide +kernel) accepted_crowded (by decide) 1
    (size_crowded_lt ⟨true, 2⟩ 1) (size_crowded_lt ⟨true, 2⟩ (1 + 1))

/-- The comparisons of the crowded script that are fused in the first pass. -/
def fusedFirst : Forms := fun i => [2, 6, 8, 11, 13].contains i

/-- The comparisons of the crowded script that are fused in the second pass. -/
def fusedSecond : Forms := fun i => [0, 2, 6, 7, 8].contains i

theorem formsOf_crowded : (crowded.outline 3).formsOf ⟨true, 2⟩ 1 = fusedSecond := by
  have beyond {F : List ℕ} (small : ∀ i ∈ F, i < 16) (i : ℕ)
      (hi : (crowded.outline 3).length ≤ i) : F.contains i = false := by
    rw [← Bool.not_eq_true, List.contains_iff_mem]
    intro mem
    exact absurd (small i mem) (Nat.not_lt.2 hi)
  have first : (crowded.outline 3).formsOf ⟨true, 2⟩ 0 = fusedFirst := by
    apply Outline.forms_eq_of_chooses
    · decide +kernel
    · exact beyond (by decide)
  rw [Outline.formsOf, first]
  apply Outline.forms_eq_of_chooses
  · decide +kernel
  · exact beyond (by decide)

/-- The second pass over the crowded script ends with a fused branch out of reach. -/
theorem rejectsFused_crowded :
    2 < modulus 60 ∧ (∀ x ∈ crowded, x.Accepted 3) ∧ crowded.bound = [⟨0⟩, ⟨1⟩, ⟨2⟩] ∧
      (crowded.afterPasses ⟨true, 2⟩ 3 2).RejectsFused := by
  refine ⟨by decide +kernel, accepted_crowded, rfl, ?_⟩
  have stage := (stage_afterPasses (m := ⟨true, 2⟩) accepted_crowded
    (bindsOnce_outline accepted_crowded (by decide)) 1).2
  have two : crowded.afterPasses ⟨true, 2⟩ 3 (1 + 1) = crowded.afterPasses ⟨true, 2⟩ 3 2 :=
    congrArg (crowded.afterPasses ⟨true, 2⟩ 3) rfl
  have length : (crowded.outline 3).length = 16 := by decide +kernel
  let resolve (l : Label) : Option ℕ := ((crowded.outline 3).mark? 16 l).map fun j =>
    (crowded.outline 3).offset fusedSecond j * instructionBytes
  have code : (crowded.afterPasses ⟨true, 2⟩ 3 2).code.code.toList =
      (crowded.outline 3).codeTo fusedSecond 16 := by
    have code := stage.code
    rwa [two, ← Outline.formsOf_eq, formsOf_crowded, length] at code
  have positions : (crowded.afterPasses ⟨true, 2⟩ 3 2).code.position? = resolve := by
    have positions := stage.positions
    rw [two, ← Outline.formsOf_eq, formsOf_crowded, length] at positions
    exact funext positions
  rw [Draft.rejectsFused_iff]
  refine ⟨10, .fused Condition.equal.flagTest .icc (.inBank .outs 0) (.imm 1) ⟨2⟩, ⟨2⟩,
    522 * instructionBytes, ?_, rfl, rfl, ?_, by decide +kernel, ?_⟩
  · rw [← Array.getElem?_toList, code]
    decide +kernel
  · rw [positions]
    decide +kernel
  · intro j hj x found
    have encodes : ∀ j < 10, ((crowded.outline 3).codeTo fusedSecond 16)[j]?.all fun x =>
        (x.encode (j * instructionBytes) resolve).isOk := by decide +kernel
    have ok := encodes j hj
    rw [← Array.getElem?_toList, code] at found
    rw [found, Option.all_some] at ok
    rw [positions]
    cases word : x.encode (j * instructionBytes) resolve with
    | ok w => exact ⟨w, rfl⟩
    | error e => simp [word, Except.isOk, Except.toBool] at ok

end Script

end Multiway
