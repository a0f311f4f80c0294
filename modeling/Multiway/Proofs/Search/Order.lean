import Multiway.Search.Strategy
import Mathlib.Data.Int.Notation
import Mathlib.Data.List.Basic
import Mathlib.Data.List.Nodup
import Mathlib.Tactic.Common

/-!
# The order of the keys

A search accepts a list of keys that differ, and puts their indices into an order of its own: by
falling probability, as they are given, or by ascending value. Both sorted orders come from one
stable sort of the keys with their indices, so each is the one order in which ranks ascend and
indices of equal rank stay as they are.
-/
namespace Multiway

theorem firstRepeat?_eq_none_iff {α : Type} [DecidableEq α] {xs : List α} :
    firstRepeat? xs = none ↔ xs.Nodup := by
  rw [firstRepeat?, Option.map_eq_none_iff, List.find?_eq_none, List.nodup_iff_getElem?_ne_getElem?]
  constructor
  · rintro distinct i j hij hj same
    rw [List.getElem?_eq_getElem hj] at same
    refine distinct (xs[j], j) (List.mk_mem_zipIdx_iff_getElem?.2 (List.getElem?_eq_getElem hj)) ?_
    refine List.contains_iff_mem.2 (List.mem_iff_getElem?.2 ⟨i, ?_⟩)
    rw [List.getElem?_take_of_lt hij, same]
  · rintro distinct ⟨x, j⟩ mem repeated
    have hx := List.mk_mem_zipIdx_iff_getElem?.1 mem
    obtain ⟨i, hi, same⟩ := List.mem_take_iff_getElem.1 (List.contains_iff_mem.1 repeated)
    have hj := (List.getElem?_eq_some_iff.1 hx).1
    have hi' : i < xs.length := by omega
    refine distinct i j (by omega) hj ?_
    rw [hx, List.getElem?_eq_getElem hi', same]

/-- Nothing is wrong with keys that are there and differ. -/
theorem keyListError?_eq_none_iff {keys : List Key} :
    keyListError? keys = none ↔ keys ≠ [] ∧ keys.Nodup := by
  unfold keyListError?
  split_ifs with empty
  · rw [List.isEmpty_iff] at empty
    simp [empty]
  · rw [List.isEmpty_iff] at empty
    rw [Option.map_eq_none_iff, firstRepeat?_eq_none_iff]
    exact ⟨fun distinct => ⟨empty, distinct⟩, fun h => h.2⟩

/-! ## Sorting indices -/

section

variable {α : Type}

/-- Sorting a list with its indices gives each index once. -/
theorem indices_mergeSort_perm (xs : List α) (le : α × ℕ → α × ℕ → Bool) :
    ((xs.zipIdx.mergeSort le).map (·.2)).Perm (List.range xs.length) := by
  have perm := (List.mergeSort_perm xs.zipIdx le).map Prod.snd
  rwa [List.zipIdx_map_snd, ← List.range_eq_range'] at perm

theorem getElem?_of_mem_zipIdx_zipIdx {xs : List α} {x : α} {i j : ℕ}
    (mem : ((x, i), j) ∈ xs.zipIdx.zipIdx) : xs[i]? = some x ∧ j = i := by
  rw [List.mk_mem_zipIdx_iff_getElem?, List.getElem?_zipIdx] at mem
  cases found : xs[j]? with
  | none => simp [found] at mem
  | some y =>
    simp only [found, Option.map_some, Option.some.injEq, Prod.mk.injEq, Nat.zero_add] at mem
    obtain ⟨rfl, rfl⟩ := mem
    exact ⟨found, rfl⟩

/-- Sorting by rank is stable, so it is the same as sorting by rank and then by index. -/
theorem pairwise_mergeSort_rank (xs : List α) (rank : α → ℤ) :
    ((xs.zipIdx.mergeSort fun p q => rank p.1 ≤ rank q.1).map (·.2)).Pairwise fun i j =>
      ∀ a ∈ xs[i]?, ∀ b ∈ xs[j]?, rank a < rank b ∨ rank a = rank b ∧ i ≤ j := by
  let byRank (p q : α × ℕ) : Bool := decide (rank p.1 ≤ rank q.1)
  have trans (p q r : α × ℕ) : byRank p q → byRank q r → byRank p r := by
    simp only [byRank, decide_eq_true_eq]
    omega
  have total (p q : α × ℕ) : byRank p q || byRank q p := by
    simp only [byRank, Bool.or_eq_true, decide_eq_true_eq]
    omega
  have sorted := List.pairwise_mergeSort (List.zipIdxLE_trans trans) (List.zipIdxLE_total total)
    xs.zipIdx.zipIdx
  rw [← List.mergeSort_zipIdx, List.map_map, List.pairwise_map]
  refine sorted.imp_of_mem ?_
  rintro ⟨⟨a, i⟩, i'⟩ ⟨⟨b, j⟩, j'⟩ hi hj ordered a' ha b' hb
  obtain ⟨found, rfl⟩ := getElem?_of_mem_zipIdx_zipIdx (List.mem_mergeSort.1 hi)
  obtain ⟨found', rfl⟩ := getElem?_of_mem_zipIdx_zipIdx (List.mem_mergeSort.1 hj)
  obtain rfl : a = a' := Option.some.inj (found.symm.trans ha)
  obtain rfl : b = b' := Option.some.inj (found'.symm.trans hb)
  simp only [List.zipIdxLE, byRank, decide_eq_true_eq] at ordered
  split_ifs at ordered with first second
  · exact Or.inr ⟨by omega, of_decide_eq_true ordered⟩
  · exact Or.inl (by omega)

/-- Where a comparison tells an order of ranks, ranks ascend in the sorted indices, and indices of
equal rank ascend themselves. -/
theorem pairwise_indices_mergeSort (xs : List α) (le : α × ℕ → α × ℕ → Bool) (rank : α → ℤ)
    (tells : ∀ p ∈ xs.zipIdx, ∀ q ∈ xs.zipIdx, le p q = decide (rank p.1 ≤ rank q.1)) :
    ((xs.zipIdx.mergeSort le).map (·.2)).Pairwise fun i j =>
      ∀ a ∈ xs[i]?, ∀ b ∈ xs[j]?, rank a < rank b ∨ rank a = rank b ∧ i < j := by
  have same : xs.zipIdx.mergeSort le = xs.zipIdx.mergeSort fun p q => rank p.1 ≤ rank q.1 := by
    simpa using List.map_mergeSort (f := id) tells
  have distinct : ((xs.zipIdx.mergeSort le).map (·.2)).Nodup :=
    (indices_mergeSort_perm xs le).nodup_iff.2 List.nodup_range
  rw [same] at distinct ⊢
  refine (pairwise_mergeSort_rank xs rank).imp₂ ?_ (List.nodup_iff_pairwise_ne.1 distinct)
  intro i j ordered differ a ha b hb
  have := ordered a ha b hb
  omega

end

/-! ## By probability -/

namespace Binary64

theorem rank?_eq {x : Binary64} (h : ¬x.isNaN) : x.rank? = some (x.withSign x.magnitude.toNat) := by
  rw [rank?, if_neg h]

theorem less_eq {x y : Binary64} (hx : ¬x.isNaN) (hy : ¬y.isNaN) :
    x.less y = decide (x.withSign x.magnitude.toNat < y.withSign y.magnitude.toNat) := by
  rw [less, rank?_eq hx, rank?_eq hy]

end Binary64

namespace LinearSearch

variable {keys : List Key} {probabilities : List Binary64} {s : LinearSearch}

theorem ofOrder_eq_ok_iff {order : List ℕ} (h : order ≠ []) :
    ofOrder keys order = .ok s ↔ s.keys = keys.toArray ∧ s.order = order := by
  obtain ⟨ks, is, _⟩ := s
  rw [ofOrder, dif_neg h, Except.ok.injEq, LinearSearch.mk.injEq]
  exact and_congr eq_comm eq_comm

/-- A list of keys is accepted in the order given exactly if there are keys and they differ. -/
theorem ofKeys_eq_ok_iff : ofKeys keys = .ok s ↔
    (keys ≠ [] ∧ keys.Nodup) ∧ s.keys = keys.toArray ∧ s.order = List.range keys.length := by
  rw [← keyListError?_eq_none_iff, ofKeys]
  cases checked : keyListError? keys with
  | some e => simp
  | none =>
    have nonempty := (keyListError?_eq_none_iff.1 checked).1
    have order : List.range keys.length ≠ [] := by simpa using nonempty
    simpa using ofOrder_eq_ok_iff order

/-- With probabilities, there has to be one for each key. -/
theorem ofProbabilities_eq_ok_iff : ofProbabilities keys probabilities = .ok s ↔
    (keys ≠ [] ∧ keys.Nodup) ∧ probabilities.length = keys.length ∧
      s.keys = keys.toArray ∧ s.order = byProbability probabilities := by
  rw [← keyListError?_eq_none_iff, ofProbabilities]
  cases checked : keyListError? keys with
  | some e => simp
  | none =>
    by_cases sizes : probabilities.length = keys.length
    · have nonempty := (keyListError?_eq_none_iff.1 checked).1
      have order : byProbability probabilities ≠ [] := by
        have perm := indices_mergeSort_perm probabilities fun p q => !p.1.less q.1
        intro none
        rw [byProbability] at none
        rw [none, List.nil_perm, List.range_eq_nil, sizes] at perm
        exact nonempty (List.length_eq_zero_iff.1 perm)
      simp [sizes, ofOrder_eq_ok_iff order]
    · simp [sizes]

/-- The order by probability gives each index once. -/
theorem byProbability_perm (probabilities : List Binary64) :
    (byProbability probabilities).Perm (List.range probabilities.length) :=
  indices_mergeSort_perm _ _

theorem order_perm_of_ofProbabilities (accepted : ofProbabilities keys probabilities = .ok s) :
    s.order.Perm (List.range keys.length) := by
  obtain ⟨-, sizes, -, order⟩ := ofProbabilities_eq_ok_iff.1 accepted
  rw [order, ← sizes]
  exact byProbability_perm probabilities

/-- A search tests keys that are there. -/
theorem lt_size_of_perm (hkeys : s.keys = keys.toArray)
    (perm : s.order.Perm (List.range keys.length)) : ∀ i ∈ s.order, i < s.keys.size := by
  intro i hi
  rw [hkeys]
  exact List.mem_range.1 (perm.mem_iff.1 hi)

theorem byProbability_pair (p q : Binary64) :
    byProbability [p, q] = if p.less q then [1, 0] else [0, 1] := by
  cases h : p.less q <;> simp [byProbability, List.mergeSort, List.MergeSort.Internal.splitInTwo, h]

/-- Where all probabilities are numbers, the greater one comes first, and of equal ones the one that
is given first. -/
theorem pairwise_byProbability (numbers : ∀ p ∈ probabilities, ¬p.isNaN) :
    (byProbability probabilities).Pairwise fun i j =>
      ∀ p ∈ probabilities[i]?, ∀ q ∈ probabilities[j]?,
        q.less p ∨ p.rank? = q.rank? ∧ i < j := by
  have sorted := pairwise_indices_mergeSort probabilities
    (fun p q => !p.1.less q.1) (fun p => -p.withSign p.magnitude.toNat) (by
      rintro ⟨p, i⟩ hp ⟨q, j⟩ hq
      have hp' := numbers p (List.fst_mem_of_mem_zipIdx hp)
      have hq' := numbers q (List.fst_mem_of_mem_zipIdx hq)
      rw [Binary64.less_eq hp' hq', ← decide_not, decide_eq_decide]
      dsimp only
      omega)
  refine sorted.imp fun {i j} ordered p hp q hq => ?_
  have hp' := numbers p (List.mem_of_getElem? hp)
  have hq' := numbers q (List.mem_of_getElem? hq)
  rw [Binary64.less_eq hq' hp', Binary64.rank?_eq hp', Binary64.rank?_eq hq', decide_eq_true_eq,
    Option.some.injEq]
  have := ordered p hp q hq
  omega

end LinearSearch

/-! ## By value -/

namespace Bisection

variable {keys : List Key} {s : Bisection}

theorem byOrdinal_perm (keys : List Key) :
    (byOrdinal keys).Perm (List.range keys.length) :=
  indices_mergeSort_perm _ _

/-- What holds of the search over an accepted list of keys, which are all of one kind. -/
structure Over (s : Bisection) (keys : List Key) (kind : KeyKind) : Prop where
  keys_eq : s.keys = keys.toArray
  distinct : keys.Nodup
  kind_eq : ∀ k ∈ keys, k.kind = kind
  beyond_eq : s.beyond = kind.beyond
  tree_eq : ∃ h : byOrdinal keys ≠ [], s.tree = .ofSorted (byOrdinal keys) h

/-- A list of keys is accepted exactly if there are keys, they differ, and all are of one kind. -/
theorem ofKeys_eq_ok_iff : ofKeys keys = .ok s ↔ keys ≠ [] ∧ ∃ kind, s.Over keys kind := by
  constructor
  · intro accepted
    unfold ofKeys at accepted
    split at accepted
    · contradiction
    · contradiction
    · next _ first rest checked =>
      split_ifs at accepted with same nonempty
      cases accepted
      have valid := keyListError?_eq_none_iff.1 checked
      refine ⟨valid.1, first.kind, rfl, valid.2, ?_, rfl, nonempty, rfl⟩
      intro k mem
      obtain rfl | mem := List.mem_cons.1 mem
      · rfl
      · exact of_decide_eq_true (List.all_eq_true.1 same k mem)
  · rintro ⟨some_key, kind, searched⟩
    obtain ⟨nonempty, tree⟩ := searched.tree_eq
    have checked := keyListError?_eq_none_iff.2 ⟨some_key, searched.distinct⟩
    obtain ⟨first, rest, rfl⟩ := List.exists_cons_of_ne_nil some_key
    obtain rfl := searched.kind_eq first List.mem_cons_self
    have same : rest.all (·.kind = first.kind) := List.all_eq_true.2 fun k mem =>
      decide_eq_true (searched.kind_eq k (List.mem_cons_of_mem _ mem))
    obtain ⟨ks, ts, beyond⟩ := s
    obtain rfl : ks = _ := searched.keys_eq
    obtain rfl : beyond = _ := searched.beyond_eq
    obtain rfl : ts = _ := tree
    simp only [ofKeys, checked, if_pos same, dif_neg nonempty]

/-- The search over four keys splits them in two halves. -/
theorem ofKeys_of_four (kind : KeyKind) {a b c d : ℕ} (distinct : keys.Nodup)
    (kinds : ∀ k ∈ keys, k.kind = kind) (order : byOrdinal keys = [a, b, c, d]) :
    ofKeys keys = .ok ⟨keys.toArray, .split b (.leaf [a] b) (.leaf [c] d), kind.beyond⟩ := by
  have nonempty : keys ≠ [] := by
    rintro rfl
    simp [byOrdinal] at order
  have tree : ∃ h : byOrdinal keys ≠ [],
      .split b (.leaf [a] b) (.leaf [c] d) = SplitTree.ofSorted (byOrdinal keys) h := by
    simp [order, SplitTree.ofSorted, SplitTree.leafSize]
  exact ofKeys_eq_ok_iff.2 ⟨nonempty, kind, rfl, distinct, kinds, rfl, tree⟩

namespace Over

variable {kind : KeyKind}

theorem order_eq (h : s.Over keys kind) : s.order = byOrdinal keys := by
  obtain ⟨nonempty, tree⟩ := h.tree_eq
  rw [order, tree, SplitTree.indices_ofSorted]

theorem order_perm (h : s.Over keys kind) : s.order.Perm (List.range keys.length) := by
  rw [h.order_eq]
  exact byOrdinal_perm keys

/-- Keys of one kind that differ are in strictly ascending order. -/
theorem pairwise_order (h : s.Over keys kind) :
    s.order.Pairwise fun i j =>
      ∀ a ∈ keys[i]?, ∀ b ∈ keys[j]?, a.ordinal < b.ordinal := by
  rw [h.order_eq]
  have sorted := pairwise_indices_mergeSort keys
    (fun j k => j.1.ordinal ≤ k.1.ordinal) Key.ordinal (fun _ _ _ _ => rfl)
  refine sorted.imp fun {i j} ordered a ha b hb => ?_
  obtain less | ⟨equal, before⟩ := ordered a ha b hb
  · exact less
  · have kinds : a.kind = b.kind := by
      rw [h.kind_eq a (List.mem_of_getElem? ha), h.kind_eq b (List.mem_of_getElem? hb)]
    have repeated : a = b := Key.eq_of_kind_of_ordinal kinds equal
    have inside := (List.getElem?_eq_some_iff.1 hb).1
    exact absurd (by rw [ha, hb, repeated])
      (List.nodup_iff_getElem?_ne_getElem?.1 h.distinct i j before inside)

end Over

end Bisection

end Multiway
