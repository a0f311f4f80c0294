import Multiway.Proofs.Passes.Forms
import Mathlib.Data.List.Basic

/-!
# Series of passes

The forms of each pass determine those of the next. Where a comparison becomes longer again, code
grows between a branch and its target, and a fused branch may end out of reach if the slack is
smaller than that.

No comparison becomes longer again if nothing but comparisons before their marks can grow, that is,
if no comparison stands before a mark that others branch back to. A distance forward may still grow
by one instruction from a pass to the next. But it never exceeds the one that was measured when its
first comparison was still in its longer form, and that distance has been in reach.
-/
namespace Multiway

namespace Outline

variable (P : Outline) (m : Machine)

/-- The forms of a pass, where passes are counted from zero. -/
def formsOf : ℕ → Forms
  | 0 => P.forms m none
  | n + 1 => P.forms m (some (formsOf n))

/-- The forms that a pass builds on, if it is not the first. -/
def formsBefore : ℕ → Option Forms
  | 0 => none
  | n + 1 => some (P.formsOf m n)

variable {P m}

theorem formsOf_eq (n : ℕ) : P.formsOf m n = P.forms m (P.formsBefore m n) := by
  cases n <;> rfl

theorem chooses_of_formsOf {n i : ℕ} (h : P.formsOf m n i) :
    P.chooses m (P.formsBefore m n) (P.formsOf m n) i := by
  rwa [formsOf_eq, forms_eq, ← formsOf_eq] at h

theorem isComparison_of_formsOf {n i : ℕ} (h : P.formsOf m n i) : (P.piece i).isComparison := by
  rw [formsOf_eq] at h
  exact isComparison_of_forms h

/-- A pass needs no more room than there is. -/
def Fits (P : Outline) (m : Machine) (n : ℕ) : Prop :=
  P.offset (P.formsOf m n) P.length < bufferBound

/-- What is known of a comparison that is fused before its label is bound. -/
theorem reachesForth_of_formsOf (slack : m.slack < bufferBound) {n i : ℕ}
    (fits : ∀ k, n = k + 1 → P.Fits m k) {c : Comparison} (piece : P.piece i = .comparison c)
    (unmarked : P.mark? i c.target = none) (fused : P.formsOf m n i) :
    Fusible m c ∧ ∃ k a b, n = k + 1 ∧ P.first? P.length c.target = some a ∧
      P.mark? P.length c.target = some b ∧ a ≤ i ∧ i < b ∧
        P.ReachesForth m (P.formsOf m k) a b := by
  have small (G : Forms) (passed : P.formsBefore m n = some G) :
      P.offset G P.length < bufferBound := by
    cases n with
    | zero => contradiction
    | succ k =>
      cases passed
      exact fits k rfl
  obtain ⟨fusible, G, a, b, passed, first, mark, reaches⟩ :=
    (chooses_forward slack small piece unmarked).1 (chooses_of_formsOf fused)
  have compares := Piece.comparesTo_iff.2 ⟨c, piece, rfl⟩
  obtain ⟨a', ha, first'⟩ :=
    exists_first? (lt_length_of_isComparison (Piece.isComparison_of_comparesTo compares)) compares
  obtain rfl : a = a' := by
    rw [first] at first'
    exact Option.some.inj first'
  have later := lt_of_unmarked piece unmarked mark
  cases n with
  | zero => contradiction
  | succ k =>
    cases passed
    exact ⟨fusible, k, a, b, rfl, first, mark, ha, later, reaches⟩

/-! ## Growth between passes -/

/-- A fused branch ends out of reach only if the code has grown by more than the slack, which takes
as many comparisons that have become longer again. -/
theorem slack_lt_of_out_of_reach {F G : Forms} {a b i : ℕ} {c : Comparison}
    (piece : P.piece i = .comparison c) (hai : a ≤ i) (hib : i < b)
    (compares : (P.piece a).isComparison) (reaches : P.ReachesForth m G a b)
    (out : P.stand F i c + 511 < P.offset F b) (hb : b ≤ P.length) :
    m.slack < 2 * reverted G F P.length := by
  have window := P.offset_add_debt_le (F := G) (G := F) (hai.trans hib.le)
  have total := reverted_mono (F := G) (G := F) hb
  have lt := lt_offset (F := G) compares (lt_of_le_of_lt hai hib)
  -- what the first comparison owes is room that the branch has already taken
  have owed : P.offset F a + P.debt G F a ≤ P.stand F i c := by
    obtain rfl | earlier := Nat.eq_or_lt_of_le hai
    · exact P.offset_add_debt_le_stand a c
    · have := lt_offset (F := F) compares earlier
      have := offset_le_stand (P := P) (F := F) i c
      unfold debt
      split_ifs <;> omega
  unfold ReachesForth at reaches
  omega

/-! ## Passes that only become shorter -/

/-- No comparison stands before a mark that others branch back to. -/
def Anchored (P : Outline) : Prop :=
  ∀ {i j : ℕ} {l : Label}, P.piece j = .mark l → j < i → (P.piece i).comparesTo l →
    ∀ k < j, ¬(P.piece k).isComparison

theorem endsFused_eq_false {F : Forms} {i : ℕ} (h : ∀ j < i, ¬(P.piece j).isComparison) :
    P.endsFused F i = false := by
  induction i with
  | zero => rfl
  | succ i ih =>
    have last := h i (Nat.lt_succ_self i)
    rw [endsFused, ih fun j hj => h j (by omega)]
    cases piece : P.piece i with
    | comparison c => simp [piece, Piece.isComparison] at last
    | jump target => rfl
    | nops count => simp [Piece.endsFused]
    | mark label => rfl

/-- A distance backward does not grow if no comparison on the way becomes longer. -/
theorem ReachesBack.mono {F G : Forms} {i j : ℕ} {c : Comparison} (hj : j < i)
    (bare : ∀ k < j, ¬(P.piece k).isComparison) (shorter : ∀ k < i, F k → G k)
    (h : P.ReachesBack m F i j c) : P.ReachesBack m G i j c := by
  have window := P.offset_add_debt_le (F := F) (G := G) hj.le
  rw [reverted_eq_zero shorter] at window
  have le := offset_mono (P := P) (F := G) hj.le
  have noDebt : P.debt F G j = 0 := by
    rw [debt, endsFused_eq_false bare]
    rfl
  have closer : P.stand G i c + P.offset F j ≤ P.stand F i c + P.offset G j := by
    have := P.stand_le_add_debt (F := F) (G := G) i c
    omega
  by_cases here : P.stand G i c = P.offset G j
  · -- the branch stands at its own target, and so it does in every pass
    have still : P.offset G i = P.offset G j := by
      unfold stand at here
      omega
    obtain ⟨offset_eq, endsFused_eq⟩ := offset_eq_of_offset_eq (F := F) hj.le still
    rw [endsFused_eq_false bare] at endsFused_eq
    have here' : P.stand F i c = P.offset F j := by
      unfold stand at here ⊢
      simp only [endsFused_eq, Bool.and_false, Bool.false_eq_true, if_false]
      omega
    obtain ⟨-, slack⟩ | ⟨lt, -⟩ := h
    · exact Or.inl ⟨here, slack⟩
    · omega
  · have lt : P.offset G j < P.stand G i c :=
      lt_of_le_of_ne (le.trans (offset_le_stand i c)) (Ne.symm here)
    obtain ⟨here', -⟩ | ⟨-, reach⟩ := h
    · omega
    · exact Or.inr ⟨lt, by omega⟩

/-- Where a comparison is fused before its label is bound, the distance was in reach in an earlier
pass in which the first comparison with that label had its longer form. -/
theorem exists_longer (slack : m.slack < bufferBound) {n i : ℕ} (fits : ∀ k < n, P.Fits m k)
    {c : Comparison} (piece : P.piece i = .comparison c) (unmarked : P.mark? i c.target = none)
    (fused : P.formsOf m n i) {a b : ℕ} (first : P.first? P.length c.target = some a)
    (mark : P.mark? P.length c.target = some b) :
    ∃ k < n, P.formsOf m k a = false ∧ P.ReachesForth m (P.formsOf m k) a b := by
  induction n generalizing i c with
  | zero =>
    obtain ⟨-, k, a', b', zero, -⟩ := reachesForth_of_formsOf slack
      (fun k zero => by contradiction) piece unmarked fused
    contradiction
  | succ n ih =>
    obtain ⟨-, k, a', b', hk, first', mark', hai, -, reaches⟩ :=
      reachesForth_of_formsOf slack (fun k hk => fits k (by omega)) piece unmarked
        fused
    obtain rfl : n = k := Nat.succ.inj hk
    rw [first, Option.some.injEq] at first'
    rw [mark, Option.some.injEq] at mark'
    subst first' mark'
    cases earlier : P.formsOf m n a with
    | false => exact ⟨n, Nat.lt_succ_self n, earlier, reaches⟩
    | true =>
      obtain ⟨-, compares, -⟩ := first?_eq_some first
      obtain ⟨c', piece', target⟩ := Piece.comparesTo_iff.1 compares
      have unmarked' : P.mark? a c'.target = none := by
        rw [target, mark?_eq_none]
        exact fun j hj => mark?_eq_none.1 unmarked j (by omega)
      rw [← target] at first mark
      obtain ⟨k, hk, longer, reaches'⟩ := ih (fun k hk => fits k (hk.trans (Nat.lt_succ_self n)))
        piece' unmarked' earlier first mark
      exact ⟨k, hk.trans (Nat.lt_succ_self n), longer, reaches'⟩

/-- If no comparison has become longer again, a comparison that is fused before its label is bound
finds the distance of its own pass in reach as well. -/
theorem reachesForth_of_shorter (slack : m.slack < bufferBound) {n i : ℕ}
    (fits : ∀ k < n, P.Fits m k) (shorter : ∀ k < n, ∀ i, P.formsOf m k i → P.formsOf m n i)
    {c : Comparison} (piece : P.piece i = .comparison c) (unmarked : P.mark? i c.target = none)
    (fused : P.formsOf m n i) :
    Fusible m c ∧ ∃ a b, P.first? P.length c.target = some a ∧
      P.mark? P.length c.target = some b ∧ a ≤ i ∧ i < b ∧
        P.ReachesForth m (P.formsOf m n) a b := by
  obtain ⟨fusible, -, a, b, -, first, mark, hai, hib, -⟩ :=
    reachesForth_of_formsOf slack (fun k hk => fits k (by omega)) piece unmarked fused
  refine ⟨fusible, a, b, first, mark, hai, hib, ?_⟩
  obtain ⟨k, hk, longer, reaches⟩ := exists_longer slack fits piece unmarked fused first mark
  have compares := Piece.isComparison_of_comparesTo (first?_eq_some first).2.1
  have closer := offset_sub_le_of_longer (P := P) (fun i _ => shorter k hk i)
    (lt_of_le_of_lt hai hib) compares longer
  have lt := lt_offset (F := P.formsOf m k) compares (lt_of_le_of_lt hai hib)
  unfold ReachesForth at reaches ⊢
  omega

/-- Whatever is fused stays fused over several passes, if it does so from each to the next. -/
theorem formsOf_mono_of_succ {k n : ℕ} (h : k ≤ n)
    (step : ∀ j < n, ∀ i, P.formsOf m j i → P.formsOf m (j + 1) i) :
    ∀ i, P.formsOf m k i → P.formsOf m n i := by
  induction n, h using Nat.le_induction with
  | base => exact fun _ => id
  | succ n _ ih =>
    intro i fused
    exact step n (Nat.lt_succ_self n) i (ih (fun j hj => step j (hj.trans (Nat.lt_succ_self n))) i
      fused)

/-- If no comparison has become longer since the first pass, the code fits as it did then. -/
theorem Fits.of_first (first : P.Fits m 0) {n : ℕ}
    (shorter : ∀ i, P.formsOf m 0 i → P.formsOf m n i) : P.Fits m n :=
  (offset_le_of_shorter fun i _ => shorter i).trans_lt first

/-- A comparison that is fused in one pass is fused in the next. -/
theorem formsOf_succ (slack : m.slack < bufferBound) (first : P.Fits m 0) (anchored : P.Anchored)
    (n : ℕ) : ∀ i, P.formsOf m n i → P.formsOf m (n + 1) i := by
  induction n using Nat.strong_induction_on with
  | _ n earlier =>
    have fits (k : ℕ) (hk : k ≤ n) : P.Fits m k := first.of_first
      (formsOf_mono_of_succ (Nat.zero_le k) fun j hj => earlier j (hj.trans_le hk))
    intro i
    induction i using Nat.strong_induction_on with
    | _ i shorter =>
      intro fused
      have compares := isComparison_of_formsOf fused
      obtain ⟨c, piece⟩ := Piece.isComparison_iff.1 compares
      have again : P.formsOf m (n + 1) i =
          P.chooses m (P.formsBefore m (n + 1)) (P.formsOf m (n + 1)) i := forms_eq i
      rw [again]
      cases mark : P.mark? i c.target with
      | some j =>
        obtain ⟨hj, marked⟩ := mark?_eq_some mark
        have bare := anchored marked hj (Piece.comparesTo_iff.2 ⟨c, piece, rfl⟩)
        have inside : P.offset (P.formsOf m n) (i + 1) < bufferBound :=
          (offset_mono (lt_length_of_isComparison compares)).trans_lt (fits n le_rfl)
        have stand : P.stand (P.formsOf m (n + 1)) i c < bufferBound :=
          (stand_le_offset_succ piece (offset_le_of_shorter shorter)).trans_lt inside
        obtain ⟨fusible, reaches⟩ :=
          (chooses_backward slack ((stand_lt piece).trans inside) piece mark).1
            (chooses_of_formsOf fused)
        rw [chooses_backward slack stand piece mark]
        exact ⟨fusible, reaches.mono hj bare shorter⟩
      | none =>
        obtain ⟨fusible, a, b, compared, mark', -, -, reaches⟩ :=
          reachesForth_of_shorter slack (fun k hk => fits k hk.le)
            (fun k hk => formsOf_mono_of_succ hk.le earlier) piece mark fused
        have small (G : Forms) (passed : P.formsBefore m (n + 1) = some G) :
            P.offset G P.length < bufferBound := by
          cases passed
          exact fits n le_rfl
        rw [chooses_forward slack small piece mark]
        exact ⟨fusible, P.formsOf m n, a, b, rfl, compared, mark', reaches⟩

theorem formsOf_mono (slack : m.slack < bufferBound) (first : P.Fits m 0) (anchored : P.Anchored)
    {k n : ℕ} (h : k ≤ n) : ∀ i, P.formsOf m k i → P.formsOf m n i :=
  formsOf_mono_of_succ h fun j _ => formsOf_succ slack first anchored j

/-! ## Stability -/

def comparisons (P : Outline) : ℕ := P.countP Piece.isComparison

/-- The number of comparisons in their shorter form. -/
def fusedCount (P : Outline) (F : Forms) : ℕ := (List.range P.length).countP F

theorem map_piece_range (P : Outline) : (List.range P.length).map P.piece = P := by
  apply List.ext_getElem
  · simp
  · intro i _ inside
    rw [List.getElem_map, List.getElem_range]
    exact piece_of_getElem? (List.getElem?_eq_getElem inside)

theorem comparisons_eq_countP (P : Outline) :
    P.comparisons = (List.range P.length).countP fun i => (P.piece i).isComparison := by
  rw [comparisons]
  conv_lhs => rw [← map_piece_range P, List.countP_map]
  rfl

theorem fusedCount_formsOf_le (n : ℕ) : P.fusedCount (P.formsOf m n) ≤ P.comparisons := by
  rw [comparisons_eq_countP]
  exact List.countP_mono_left fun i _ fused => isComparison_of_formsOf fused

/-- Forms of which one makes the other no longer, and which fuse as many comparisons, are the
same. -/
theorem formsOf_eq_of_fusedCount_le {k n : ℕ} (shorter : ∀ i, P.formsOf m k i → P.formsOf m n i)
    (h : P.fusedCount (P.formsOf m n) ≤ P.fusedCount (P.formsOf m k)) :
    P.formsOf m n = P.formsOf m k := by
  have sub : ((List.range P.length).filter (P.formsOf m k)).Sublist
      ((List.range P.length).filter (P.formsOf m n)) :=
    List.monotone_filter_right _ shorter
  have same := sub.eq_of_length_le (by
    rwa [fusedCount, fusedCount, List.countP_eq_length_filter, List.countP_eq_length_filter] at h)
  ext i
  rw [Bool.eq_iff_iff]
  refine ⟨fun fused => ?_, shorter i⟩
  have mem : i ∈ (List.range P.length).filter (P.formsOf m n) :=
    List.mem_filter.2 ⟨List.mem_range.2 (lt_length_of_isComparison (isComparison_of_formsOf fused)),
      fused⟩
  rw [← same] at mem
  exact (List.mem_filter.1 mem).2

/-- Each pass but the last makes a comparison shorter. -/
theorem formsOf_succ_eq_or_lt (slack : m.slack < bufferBound) (first : P.Fits m 0)
    (anchored : P.Anchored) (n : ℕ) :
    P.formsOf m (n + 1) = P.formsOf m n ∨ n < P.fusedCount (P.formsOf m (n + 1)) := by
  induction n with
  | zero =>
    by_cases same : P.fusedCount (P.formsOf m 1) ≤ P.fusedCount (P.formsOf m 0)
    · exact Or.inl (formsOf_eq_of_fusedCount_le (formsOf_succ slack first anchored 0) same)
    · exact Or.inr (Nat.zero_lt_of_lt (Nat.lt_of_not_le same))
  | succ n ih =>
    obtain same | more := ih
    · left
      conv_lhs => rw [formsOf, same]
      rfl
    · by_cases same :
          P.fusedCount (P.formsOf m (n + 2)) ≤ P.fusedCount (P.formsOf m (n + 1))
      · exact Or.inl (formsOf_eq_of_fusedCount_le (formsOf_succ slack first anchored _) same)
      · exact Or.inr (lt_of_le_of_lt more (Nat.lt_of_not_le same))

/-- As soon as there have been more passes than there are comparisons, nothing changes any more. -/
theorem formsOf_eq_of_comparisons_le (slack : m.slack < bufferBound) (first : P.Fits m 0)
    (anchored : P.Anchored) {n : ℕ} (h : P.comparisons ≤ n) :
    P.formsOf m n = P.formsOf m P.comparisons := by
  induction n, h using Nat.le_induction with
  | base => rfl
  | succ n _ ih =>
    obtain same | more := formsOf_succ_eq_or_lt slack first anchored n
    · rw [same, ih]
    · have := P.fusedCount_formsOf_le (m := m) (n + 1)
      omega

end Outline

end Multiway
