import Multiway.Proofs.Search.Events

/-!
# Which sinks serve a search

A search asks a sink for little: to test keys that exist, to jump, to make labels, and to bind the
latest label that has been made and not been bound yet. A sink that can do so in every state that
this leads to serves the whole search, whatever else it may refuse.
-/
namespace Multiway

namespace Sink

variable {σ : Type} {s : Sink σ} {allowed : ℕ → Prop} {I : List Label → σ → Prop}

/-- The sink refuses none of these requests as long as `I` holds of its state and of the labels that
are made and not bound yet, the latest one first. Then `I` holds again. -/
structure Complies (s : Sink σ) (allowed : ℕ → Prop) (I : List Label → σ → Prop) : Prop where
  test : ∀ {index : ℕ} {pending : List Label} {x : σ}, allowed index → I pending x →
    ∀ (condition : Condition) (l : Label),
      ∃ y, (s.perform (.test index condition l)).run x = .ok () y ∧ I pending y
  jump : ∀ {pending : List Label} {x : σ}, I pending x →
    ∀ l : Label, ∃ y, (s.perform (.jump l)).run x = .ok () y ∧ I pending y
  bind : ∀ {pending : List Label} {x : σ} {l : Label}, I (l :: pending) x →
    ∃ y, (s.perform (.bind l)).run x = .ok () y ∧ I pending y
  makeLabel : ∀ {pending : List Label} {x : σ}, I pending x →
    ∃ l y, s.makeLabel.run x = .ok l y ∧ I (l :: pending) y

theorem Obliging.complies (obliging : s.Obliging) :
    s.Complies (fun _ => True) fun _ _ => True where
  test {_ _ x} _ _ condition l := by
    obtain ⟨y, performed⟩ := obliging.perform (.test _ condition l) x
    exact ⟨y, performed, trivial⟩
  jump {_ x} _ l := by
    obtain ⟨y, performed⟩ := obliging.perform (.jump l) x
    exact ⟨y, performed, trivial⟩
  bind {_ x l} _ := by
    obtain ⟨y, performed⟩ := obliging.perform (.bind l) x
    exact ⟨y, performed, trivial⟩
  makeLabel {_ x} _ := by
    obtain ⟨l, y, made⟩ := obliging.makeLabel x
    exact ⟨l, y, made, trivial⟩

/-- Tests and jumps in order. -/
theorem Complies.performAll (complies : s.Complies allowed I) {pending : List Label}
    {vs : List Event} (tests : ∀ index condition l, .test index condition l ∈ vs → allowed index)
    (unbound : ∀ l, .bind l ∉ vs) {x : σ} (h : I pending x) :
    ∃ y, (s.performAll vs).run x = .ok () y ∧ I pending y := by
  induction vs generalizing x with
  | nil => exact ⟨x, rfl, h⟩
  | cons v vs ih =>
    have first : ∃ y, (s.perform v).run x = .ok () y ∧ I pending y := by
      cases v with
      | test index condition l => exact complies.test (tests _ _ _ List.mem_cons_self) h _ _
      | jump l => exact complies.jump h l
      | bind l => exact absurd List.mem_cons_self (unbound l)
    obtain ⟨y, performed, later⟩ := first
    obtain ⟨z, rest, last⟩ := ih (fun i c l mem => tests i c l (List.mem_cons_of_mem _ mem))
      (fun l mem => unbound l (List.mem_cons_of_mem _ mem)) later
    refine ⟨z, ?_, last⟩
    rw [Sink.performAll, EStateM.run_bind, performed]
    exact rest

end Sink

/-- The index that equality tests in order test is one of those that they are about. -/
theorem Routes.mem_of_test_mem_testsInOrder {r : Routes} {rest : List ℕ} {last index : ℕ}
    {mayFallThrough : Bool} {condition : Condition} {l : Label}
    (mem : .test index condition l ∈ r.testsInOrder rest last mayFallThrough) :
    index ∈ rest ++ [last] := by
  rw [testsInOrder, List.mem_append] at mem
  obtain mem | mem := mem
  · obtain ⟨i, hi, same⟩ := List.mem_map.1 mem
    cases same
    exact List.mem_append_left _ hi
  · obtain ⟨c, l', same, -⟩ | same := mem_decisionEvents_cases mem
    · cases same
      exact List.mem_append_right _ List.mem_cons_self
    · contradiction

/-- Equality tests in order are served. -/
theorem Sink.Complies.serves_testsInOrder {σ : Type} {s : Sink σ} {allowed : ℕ → Prop}
    {I : List Label → σ → Prop} (complies : s.Complies allowed I) {r : Routes} {rest : List ℕ}
    {last : ℕ} (inside : ∀ i ∈ rest ++ [last], i < r.targets.size)
    (tests : ∀ i ∈ rest ++ [last], allowed i) (mayFallThrough : Bool) {pending : List Label}
    (made : Array Label) {x : σ} (h : I pending x) :
    ∃ y, s.Serves r ((rest.map fun i => .testToTarget i .equal) ++
        [.testOrDefault last .equal mayFallThrough]) made x
      (r.testsInOrder rest last mayFallThrough) made y ∧ I pending y := by
  obtain ⟨y, performed, later⟩ := complies.performAll
    (fun _ _ _ mem => tests _ (Routes.mem_of_test_mem_testsInOrder mem))
    (r.bind_not_mem_testsInOrder rest last mayFallThrough) h
  refine ⟨y, s.serves_testsInOrder made ?_ ?_ performed, later⟩
  · exact fun i hi => inside i (List.mem_append_left _ hi)
  · exact inside last (List.mem_append_right _ List.mem_cons_self)

namespace SplitTree

/-! ## The requests of a tree -/

/-- The pivot of each split is the last key of its lower half. -/
inductive Pivoted : SplitTree → Prop
  | leaf (rest : List ℕ) (last : ℕ) : Pivoted (.leaf rest last)
  | split {pivot : ℕ} {lower upper : SplitTree} : lower.indices.getLast? = some pivot →
    Pivoted lower → Pivoted upper → Pivoted (.split pivot lower upper)

theorem pivoted_ofSorted (xs : List ℕ) (h : xs ≠ []) : (ofSorted xs h).Pivoted := by
  fun_induction ofSorted xs h with
  | case1 xs h small => exact .leaf _ _
  | case2 xs h small half lower_ne_nil upper_ne_nil lower upper =>
    refine .split ?_ lower upper
    rw [indices_ofSorted, List.getLast?_eq_some_getLast lower_ne_nil]

theorem count_requests (beyond : Condition) (t : SplitTree) (n : ℕ) :
    (t.requests beyond n).count .makeLabel = t.splits := by
  induction t generalizing n with
  | leaf rest last =>
    rw [requests, List.count_append, List.count_eq_zero_of_not_mem (by simp)]
    rfl
  | split pivot lower upper ihLower ihUpper =>
    have first : [Request.makeLabel, .test pivot beyond (.fresh n)].count .makeLabel = 1 := by simp
    have mark : [Request.bind (.fresh n)].count .makeLabel = 0 := by simp
    simp only [requests, List.count_append, ihLower, ihUpper, first, mark, splits]
    omega

def tested : SplitTree → List ℕ
  | leaf rest last => rest ++ [last]
  | split pivot lower upper => pivot :: (lower.tested ++ upper.tested)

theorem Pivoted.mem_indices {t : SplitTree} (pivoted : t.Pivoted) {i : ℕ} (mem : i ∈ t.tested) :
    i ∈ t.indices := by
  induction pivoted with
  | leaf rest last => exact mem
  | split last _ _ ihLower ihUpper =>
    simp only [tested, List.mem_cons, List.mem_append] at mem
    rw [indices, List.mem_append]
    obtain rfl | mem | mem := mem
    · exact Or.inl (List.mem_of_getLast? last)
    · exact Or.inl (ihLower mem)
    · exact Or.inr (ihUpper mem)

end SplitTree

theorem Bisection.Over.pivoted {s : Bisection} {keys : List Key} {kind : KeyKind}
    (h : s.Over keys kind) : s.tree.Pivoted := by
  obtain ⟨nonempty, tree⟩ := h.tree_eq
  rw [tree]
  exact SplitTree.pivoted_ofSorted _ nonempty

namespace Sink

variable {σ : Type} {s : Sink σ} {allowed : ℕ → Prop} {I : List Label → σ → Prop}

/-- The requests of a tree are served, and bind all labels that they make. -/
theorem Complies.serves_tree (complies : s.Complies allowed I) {r : Routes} (beyond : Condition)
    (t : SplitTree) (inside : ∀ i ∈ t.indices, i < r.targets.size)
    (tests : ∀ i ∈ t.tested, allowed i) (pending : List Label) (made : Array Label) {x : σ}
    (h : I pending x) :
    ∃ vs made' y, s.Serves r (t.requests beyond made.size) made x vs made' y ∧ I pending y := by
  induction t generalizing pending made x with
  | leaf rest last =>
    obtain ⟨y, served, later⟩ := complies.serves_testsInOrder inside tests false made h
    exact ⟨_, made, y, served, later⟩
  | split pivot lower upper ihLower ihUpper =>
    simp only [SplitTree.tested, List.forall_mem_cons, List.forall_mem_append] at tests
    obtain ⟨pivotAllowed, lowerAllowed, upperAllowed⟩ := tests
    obtain ⟨l, x₁, label, h₁⟩ := complies.makeLabel h
    have here : (made.push l)[made.size]? = some l := by simp
    have named : (Request.test pivot beyond (.fresh made.size)).events r (made.push l) =
        .ok [.test pivot beyond l] := by
      simp only [Request.events, LabelRef.label?, here]
      rfl
    obtain ⟨x₂, tested, h₂⟩ := complies.test pivotAllowed h₁ beyond l
    obtain ⟨us, made₃, x₃, lowerServed, h₃⟩ :=
      ihLower (fun i hi => inside i (List.mem_append_left _ hi)) lowerAllowed _ (made.push l) h₂
    -- the label is still there after the lower half, and as many have been made as there are splits
    obtain ⟨more, rfl, size⟩ := lowerServed.made_eq
    rw [SplitTree.count_requests] at size
    have there : (made.push l ++ more)[made.size]? = some l := by
      rw [Array.getElem?_append_left (by simp), here]
    have placed : (Request.bind (.fresh made.size)).events r (made.push l ++ more) =
        .ok [.bind l] := by
      simp only [Request.events, LabelRef.label?, there]
      rfl
    obtain ⟨x₄, bound, h₄⟩ := complies.bind h₃
    obtain ⟨vs, made₅, x₅, upperServed, h₅⟩ :=
      ihUpper (fun i hi => inside i (List.mem_append_right _ hi)) upperAllowed _
        (made.push l ++ more) h₄
    rw [Array.size_push] at lowerServed
    rw [Array.size_append, Array.size_push, size] at upperServed
    have first : s.Serves r [.test pivot beyond (.fresh made.size)] (made.push l) x₁
        [.test pivot beyond l] (made.push l) x₂ :=
      .single (fun eq => by contradiction) named (by rw [run_performAll_single, tested])
    have mark : s.Serves r [.bind (.fresh made.size)] (made.push l ++ more) x₃ [.bind l]
        (made.push l ++ more) x₄ :=
      .single (fun eq => by contradiction) placed (by rw [run_performAll_single, bound])
    have all := ((Serves.make label first).append lowerServed).append mark |>.append upperServed
    exact ⟨_, _, _, all, h₅⟩

end Sink

/-- A search is served, and binds all labels that it makes, if there is a target for each key and
all keys may be tested. -/
theorem Sink.Complies.serves_search {σ : Type} {s : Sink σ} {allowed : ℕ → Prop}
    {I : List Label → σ → Prop} (complies : s.Complies allowed I) {search : Strategy}
    (isSearch : search.IsSearch) {r : Routes} (sizes : r.targets.size = search.keys.size)
    (tests : ∀ i < search.keys.size, allowed i) {x : σ} (h : I [] x) :
    ∃ vs made y, s.Serves r search.requests #[] x vs made y ∧ I [] y := by
  have linear {t : LinearSearch} (inside : ∀ i ∈ t.order, i < t.keys.size)
      (sizes : r.targets.size = t.keys.size) (tests : ∀ i < t.keys.size, allowed i) :
      ∃ vs made y, s.Serves r t.requests #[] x vs made y ∧ I [] y := by
    rw [← List.dropLast_concat_getLast t.order_ne_nil] at inside
    obtain ⟨y, served, later⟩ := complies.serves_testsInOrder
      (fun i hi => by rw [sizes]; exact inside i hi) (fun i hi => tests i (inside i hi)) true #[] h
    exact ⟨_, _, y, served, later⟩
  cases isSearch with
  | inOrder made =>
    obtain ⟨-, keys, order⟩ := LinearSearch.ofKeys_eq_ok_iff.1 made
    exact linear (LinearSearch.lt_size_of_perm keys (by rw [order])) sizes tests
  | byProbability made =>
    obtain ⟨-, -, keys, -⟩ := LinearSearch.ofProbabilities_eq_ok_iff.1 made
    exact linear (LinearSearch.lt_size_of_perm keys
      (LinearSearch.order_perm_of_ofProbabilities made)) sizes tests
  | @bisection keys t made =>
    obtain ⟨-, _, searched⟩ := Bisection.ofKeys_eq_ok_iff.1 made
    have inside : ∀ i ∈ t.tree.indices, i < t.keys.size := by
      rw [searched.keys_eq]
      exact fun i hi => List.mem_range.1 (searched.order_perm.mem_iff.1 hi)
    exact complies.serves_tree t.beyond t.tree (fun i hi => by rw [sizes]; exact inside i hi)
      (fun i hi => tests i (inside i (searched.pivoted.mem_indices hi))) [] #[] h

end Multiway
