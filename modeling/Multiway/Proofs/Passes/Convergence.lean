import Multiway.Proofs.Passes.Rejection

/-!
# Convergence of passes

Where a script binds its labels before the first switch or after the last one, each pass makes some
comparisons shorter and none longer. So the code does not grow, every fused branch reaches its
target, and after as many passes as there are comparisons nothing changes any more.
-/
namespace Multiway

namespace Outline.Stage

variable {P : Outline} {m : Machine} {callers u : ℕ} {p : ConstantPool} {d : Draft}

/-- No fused branch is out of reach if no comparison has ever become longer again. -/
theorem not_rejectsFused {n : ℕ} (h : Stage P m callers (P.formsBefore m n) P.length u p d)
    (slack : m.slack < bufferBound) (once : P.BindsOnce) (start : P.Fits m 0)
    (anchored : P.Anchored) : ¬d.RejectsFused := by
  intro rejects
  have fits (k : ℕ) : P.Fits m k :=
    start.of_first (formsOf_mono slack start anchored (Nat.zero_le k))
  have small : d.code.code.size < bufferBound := by
    rw [h.size, ← formsOf_eq]
    exact fits n
  obtain ⟨i, c, b, piece, chosen, unmarked, mark, ahead⟩ :=
    h.forward_of_rejectsFused slack once small rejects
  rw [← formsOf_eq] at chosen ahead
  obtain ⟨-, a, b', -, mark', hai, -, reaches⟩ := reachesForth_of_shorter slack (fun k _ => fits k)
    (fun k hk => formsOf_mono slack start anchored hk.le) piece unmarked chosen
  obtain rfl : b = b' := by
    rw [mark] at mark'
    exact Option.some.inj mark'
  have before : P.offset (P.formsOf m n) a ≤ P.stand (P.formsOf m n) i c :=
    (offset_mono hai).trans (offset_le_stand i c)
  unfold ReachesForth at reaches
  omega

end Outline.Stage

namespace Script

variable {s : Script} {m : Machine} {callers : ℕ}

theorem length_forms_afterPasses (accepted : ∀ x ∈ s, x.Accepted callers)
    (once : (s.outline callers).BindsOnce) (n : ℕ) :
    (s.afterPasses m callers (n + 1)).forms.length = s.comparisons := by
  have stage := (stage_afterPasses (m := m) accepted once n).2
  rw [stage.forms_draft, List.length_map, Outline.comparing, ← List.countP_eq_length_filter,
    ← Outline.comparisons_eq_countP, comparisons_outline accepted]

/-- Comparisons that are fused in an outline are fused in the code. -/
theorem getElem?_forms_mono (accepted : ∀ x ∈ s, x.Accepted callers)
    (once : (s.outline callers).BindsOnce) {n n' : ℕ}
    (shorter : ∀ i, (s.outline callers).formsOf m n i → (s.outline callers).formsOf m n' i)
    (k : ℕ) (fused : (s.afterPasses m callers (n + 1)).forms[k]? = some true) :
    (s.afterPasses m callers (n' + 1)).forms[k]? = some true := by
  have stage := (stage_afterPasses (m := m) accepted once n).2
  have stage' := (stage_afterPasses (m := m) accepted once n').2
  rw [stage.forms_draft, ← Outline.formsOf_eq, List.getElem?_map, Option.map_eq_some_iff] at fused
  obtain ⟨i, place, chosen⟩ := fused
  rw [stage'.forms_draft, ← Outline.formsOf_eq, List.getElem?_map, place, Option.map_some,
    shorter i chosen]

theorem size_afterPasses (accepted : ∀ x ∈ s, x.Accepted callers)
    (once : (s.outline callers).BindsOnce) (n : ℕ) :
    (s.afterPasses m callers (n + 1)).code.code.size =
      (s.outline callers).offset ((s.outline callers).formsOf m n) (s.outline callers).length := by
  rw [(stage_afterPasses accepted once n).2.size, ← Outline.formsOf_eq]

/-- Passes in which the same comparisons are fused lead to the same results. -/
theorem afterPasses_eq_of_formsOf_eq (accepted : ∀ x ∈ s, x.Accepted callers)
    (once : (s.outline callers).BindsOnce) {n n' : ℕ}
    (same : (s.outline callers).formsOf m n = (s.outline callers).formsOf m n') :
    (s.afterPasses m callers (n + 1)).code.code = (s.afterPasses m callers (n' + 1)).code.code ∧
      (s.afterPasses m callers (n + 1)).code.position? =
        (s.afterPasses m callers (n' + 1)).code.position? ∧
      (s.afterPasses m callers (n + 1)).pool = (s.afterPasses m callers (n' + 1)).pool := by
  have stage := (stage_afterPasses (m := m) accepted once n).2
  have stage' := (stage_afterPasses (m := m) accepted once n').2
  refine ⟨?_, ?_, ?_⟩
  · apply Array.toList_inj.1
    rw [stage.code, stage'.code, ← Outline.formsOf_eq, ← Outline.formsOf_eq, same]
  · funext l
    rw [stage.positions, stage'.positions, ← Outline.formsOf_eq, ← Outline.formsOf_eq, same]
  · rw [stage.pool, stage'.pool]

/-- Every pass over a script that binds its labels before the first switch or after the last one
goes through, and layout never stops at a fused branch. From each pass to the next one, comparisons
stay fused and the code does not grow. From the pass on whose number exceeds that of the
comparisons, all passes lead to the same code, the same positions and the same constants. -/
theorem afterPasses_converge {front body back : Script} (slack : m.slack < modulus 60)
    (hfront : ∀ x ∈ front, ¬x.emits) (hbody : ∀ x ∈ body, x.bound? = none)
    (hback : ∀ x ∈ back, ¬x.emits) (accepted : ∀ x ∈ front ++ body ++ back, x.Accepted callers)
    (once : (bound (front ++ body ++ back)).Nodup)
    (small : (afterPasses (front ++ body ++ back) m callers 1).code.code.size < bufferBound) :
    let s := front ++ body ++ back
    let pass := afterPasses s m callers
    (∀ n, (∀ r ∈ Draft.responses (operations s) (pass n).nextPass, r = .done) ∧
      (pass (n + 1)).forms.length = comparisons s ∧ ¬(pass (n + 1)).RejectsFused ∧
      (∀ k : ℕ, (pass (n + 1)).forms[k]? = some true → (pass (n + 2)).forms[k]? = some true) ∧
      (pass (n + 2)).code.code.size ≤ (pass (n + 1)).code.code.size) ∧
    ∀ n, comparisons s + 1 ≤ n → (pass n).code.code = (pass (comparisons s + 1)).code.code ∧
      (pass n).code.position? = (pass (comparisons s + 1)).code.position? ∧
      (pass n).pool = (pass (comparisons s + 1)).pool := by
  intro s pass
  have bindsOnce : (outline s callers).BindsOnce := bindsOnce_outline accepted once
  have start : (outline s callers).Fits m 0 := fits_outline accepted bindsOnce small
  have anchored : (outline s callers).Anchored := anchored_outline hfront
    (fun x hx => ⟨accepted x (List.mem_append_left _ (List.mem_append_right _ hx)), hbody x hx⟩)
    hback
  constructor
  · intro n
    obtain ⟨done, stage⟩ := stage_afterPasses (m := m) accepted bindsOnce n
    have shorter := Outline.formsOf_succ slack start anchored n
    refine ⟨done, length_forms_afterPasses accepted bindsOnce n,
      stage.not_rejectsFused slack bindsOnce start anchored,
      getElem?_forms_mono accepted bindsOnce shorter, ?_⟩
    rw [size_afterPasses accepted bindsOnce, size_afterPasses accepted bindsOnce]
    exact Outline.offset_le_of_shorter fun i _ => shorter i
  · intro n hn
    obtain ⟨k, rfl⟩ := Nat.exists_eq_add_of_le hn
    have count : (outline s callers).comparisons = comparisons s := comparisons_outline accepted
    have later : (outline s callers).comparisons ≤ comparisons s + k := by omega
    have same := Outline.formsOf_eq_of_comparisons_le slack start anchored later
    rw [count] at same
    have number : comparisons s + 1 + k = comparisons s + k + 1 := by omega
    rw [number]
    exact afterPasses_eq_of_formsOf_eq accepted bindsOnce same

/-- Two keys, one whose target is bound before the switch and one whose target is bound after it. -/
def around : Script := [.emit (inOrder [0, 1] (by decide) ⟨#[⟨0⟩, ⟨1⟩], ⟨1⟩, none⟩), .nops 2]

theorem accepted_around : ∀ x ∈ [.bind ⟨0⟩] ++ around ++ [.bind ⟨1⟩], x.Accepted 2 := by
  intro x mem
  simp only [around, List.cons_append, List.nil_append, List.mem_cons, List.not_mem_nil,
    or_false] at mem
  obtain rfl | rfl | rfl | rfl := mem
  · show 0 < 2
    decide
  · exact accepted_inOrder rfl rfl (by decide)
  · trivial
  · show 1 < 2
    decide

/-- Two comparisons have settled after the third pass. -/
theorem afterPasses_converge_around :
    let s : Script := [.bind ⟨0⟩] ++ around ++ [.bind ⟨1⟩]
    let pass := afterPasses s ⟨true, 2⟩ 2
    comparisons s = 2 ∧ ∀ n, 2 + 1 ≤ n → (pass n).code.code = (pass (2 + 1)).code.code ∧
      (pass n).code.position? = (pass (2 + 1)).code.position? ∧
      (pass n).pool = (pass (2 + 1)).pool := by
  have room : ((outline ([.bind ⟨0⟩] ++ around ++ [.bind ⟨1⟩]) 2).map Piece.room).sum <
      bufferBound := by decide +kernel
  refine ⟨rfl, ?_⟩
  refine (afterPasses_converge (m := ⟨true, 2⟩) (by decide +kernel) ?_ ?_ ?_ accepted_around
    (by decide) ((size_afterPasses_le accepted_around (by decide) 1).trans_lt room)).2
  · decide
  · decide
  · decide

end Script

end Multiway
