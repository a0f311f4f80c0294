import Multiway.Proofs.Dispatch.Resolution
import Multiway.Proofs.Search.Order

/-!
# Events of a search

The searches make requests whose events are known before any of them is answered: they depend on the
routes and on the number of the first label that is made. All of them are about keys that exist.
-/
namespace Multiway

/-- The events of equality tests in order. -/
def Routes.testsInOrder (r : Routes) (rest : List ℕ) (last : ℕ) (mayFallThrough : Bool) :
    List Event :=
  (rest.map fun index => .test index .equal (r.targetOf index)) ++
    r.decisionEvents last .equal mayFallThrough

/-- Tests and jumps bind no label. -/
theorem Routes.bind_not_mem_testsInOrder (r : Routes) (rest : List ℕ) (last : ℕ)
    (mayFallThrough : Bool) (l : Label) : .bind l ∉ r.testsInOrder rest last mayFallThrough := by
  rw [testsInOrder, List.mem_append, List.mem_map]
  rintro (⟨i, -, eq⟩ | mem)
  · contradiction
  · obtain ⟨c, l', eq, -⟩ | eq := mem_decisionEvents_cases mem <;> contradiction

theorem Routes.eventsOf_testsInOrder (r : Routes) (label : ℕ → Label) (rest : List ℕ) (last : ℕ)
    (mayFallThrough : Bool) :
    ((rest.map fun index => Request.testToTarget index .equal) ++
        [Request.testOrDefault last .equal mayFallThrough]).flatMap (·.eventsOf r label) =
      r.testsInOrder rest last mayFallThrough := by
  rw [List.flatMap_append, List.flatMap_map, List.flatMap_singleton, testsInOrder,
    List.map_eq_flatMap]
  rfl

/-- Equality tests in order are served by performing their events. -/
theorem Sink.serves_testsInOrder {σ : Type} (s : Sink σ) {routes : Routes} {rest : List ℕ}
    {last : ℕ} {mayFallThrough : Bool} (made : Array Label) {x y : σ}
    (hrest : ∀ i ∈ rest, i < routes.targets.size) (hlast : last < routes.targets.size)
    (performed : (s.performAll (routes.testsInOrder rest last mayFallThrough)).run x = .ok () y) :
    s.Serves routes ((rest.map fun i => .testToTarget i .equal) ++
        [.testOrDefault last .equal mayFallThrough]) made x
      (routes.testsInOrder rest last mayFallThrough) made y := by
  induction rest generalizing x with
  | nil =>
    refine .single (fun eq => by contradiction) ?_ performed
    simp only [Request.events, Routes.target_eq hlast]
    rfl
  | cons i rest ih =>
    simp only [Routes.testsInOrder, List.map_cons, List.cons_append, performAll,
      EStateM.run_bind] at performed
    cases first : (s.perform (.test i .equal (routes.targetOf i))).run x with
    | error e z => simp [first] at performed
    | ok _ z =>
      simp only [first] at performed
      have others := ih (fun j hj => hrest j (List.mem_cons_of_mem _ hj)) performed
      have events : (Request.testToTarget i .equal).events routes made =
          .ok [.test i .equal (routes.targetOf i)] := by
        simp only [Request.events, Routes.target_eq (hrest i List.mem_cons_self)]
        rfl
      have alone : (s.performAll [.test i .equal (routes.targetOf i)]).run x = .ok () z := by
        rw [run_performAll_single, first]
      show s.Serves routes _ made x ([.test i .equal (routes.targetOf i)] ++
        routes.testsInOrder rest last mayFallThrough) made y
      exact .perform (fun eq => by contradiction) events alone others

namespace SplitTree

/-- The events of a tree, where a function numbers the labels made. -/
def eventsOf (r : Routes) (label : ℕ → Label) (beyond : Condition) (t : SplitTree) (n : ℕ) :
    List Event :=
  (t.requests beyond n).flatMap (·.eventsOf r label)

variable {r : Routes} {label : ℕ → Label} {beyond : Condition}

theorem eventsOf_leaf (rest : List ℕ) (last n : ℕ) :
    (leaf rest last).eventsOf r label beyond n = r.testsInOrder rest last false :=
  r.eventsOf_testsInOrder label rest last false

theorem eventsOf_split (pivot : ℕ) (lower upper : SplitTree) (n : ℕ) :
    (split pivot lower upper).eventsOf r label beyond n =
      [.test pivot beyond (label n)] ++ lower.eventsOf r label beyond (n + 1) ++
        [.bind (label n)] ++ upper.eventsOf r label beyond (n + 1 + lower.splits) := by
  simp only [eventsOf, requests, List.flatMap_append]
  rfl

end SplitTree

/-- The index that an event tests is that of a key. -/
def Event.Within (size : ℕ) : Event → Prop
  | test index _ _ => index < size
  | _ => True

theorem Routes.testsInOrder_within {r : Routes} {rest : List ℕ} {last size : ℕ}
    (mayFallThrough : Bool) (hrest : ∀ i ∈ rest, i < size) (hlast : last < size) :
    ∀ v ∈ r.testsInOrder rest last mayFallThrough, v.Within size := by
  intro v mem
  rw [testsInOrder, List.mem_append] at mem
  obtain mem | mem := mem
  · obtain ⟨i, hi, rfl⟩ := List.mem_map.1 mem
    exact hrest i hi
  · obtain ⟨c, l, rfl, -⟩ | rfl := mem_decisionEvents_cases mem
    · exact hlast
    · trivial

theorem SplitTree.eventsOf_ofSorted_within (r : Routes) (label : ℕ → Label) (beyond : Condition)
    {indices : List ℕ} (h : indices ≠ []) {size : ℕ} (within : ∀ i ∈ indices, i < size) (n : ℕ) :
    ∀ v ∈ (ofSorted indices h).eventsOf r label beyond n, v.Within size := by
  fun_induction ofSorted indices h generalizing n with
  | case1 indices h small =>
    rw [eventsOf_leaf]
    apply Routes.testsInOrder_within
    · exact fun i hi => within i (List.dropLast_subset _ hi)
    · exact within _ (List.getLast_mem h)
  | case2 indices h small half lower_ne_nil upper_ne_nil lower upper =>
    have inLower : ∀ i ∈ indices.take half, i < size :=
      fun i hi => within i (List.mem_of_mem_take hi)
    have inUpper : ∀ i ∈ indices.drop half, i < size :=
      fun i hi => within i (List.mem_of_mem_drop hi)
    intro v mem
    simp only [eventsOf_split, List.mem_append, List.mem_singleton] at mem
    obtain ((rfl | mem) | rfl) | mem := mem
    · exact inLower _ (List.getLast_mem lower_ne_nil)
    · exact lower inLower _ v mem
    · trivial
    · exact upper inUpper _ v mem

namespace Strategy

/-- The searches, which come from their constructors only. -/
inductive IsSearch : Strategy → Prop
  | inOrder {keys : List Key} {s : LinearSearch} :
    LinearSearch.ofKeys keys = .ok s → IsSearch (.linear s)
  | byProbability {keys : List Key} {probabilities : List Binary64} {s : LinearSearch} :
    LinearSearch.ofProbabilities keys probabilities = .ok s → IsSearch (.linear s)
  | bisection {keys : List Key} {s : Bisection} :
    Bisection.ofKeys keys = .ok s → IsSearch (.bisection s)

def labels : Strategy → ℕ
  | linear _ => 0
  | bisection s => s.tree.splits
  | scripted _ _ => 0

/-- The events of a search, where `next` is the index of the first label made. -/
def events (r : Routes) (next : ℕ) : Strategy → List Event
  | linear s => r.testsInOrder s.order.dropLast (s.order.getLast s.order_ne_nil) true
  | bisection s => s.tree.eventsOf r .mk s.beyond next
  | scripted _ _ => []

theorem linear_within {s : LinearSearch} (r : Routes) (next : ℕ)
    (h : ∀ i ∈ s.order, i < s.keys.size) :
    ∀ v ∈ (Strategy.linear s).events r next, v.Within s.keys.size :=
  Routes.testsInOrder_within _ (fun i hi => h i (List.dropLast_subset _ hi))
    (h _ (List.getLast_mem s.order_ne_nil))

/-- A search tests keys that exist. -/
theorem IsSearch.within {s : Strategy} (h : s.IsSearch) (r : Routes) (next : ℕ) :
    ∀ v ∈ s.events r next, v.Within s.keys.size := by
  cases h with
  | inOrder made =>
    obtain ⟨-, keys, order⟩ := LinearSearch.ofKeys_eq_ok_iff.1 made
    exact linear_within r next (LinearSearch.lt_size_of_perm keys (by rw [order]))
  | byProbability made =>
    obtain ⟨-, -, keys, -⟩ := LinearSearch.ofProbabilities_eq_ok_iff.1 made
    exact linear_within r next (LinearSearch.lt_size_of_perm keys
      (LinearSearch.order_perm_of_ofProbabilities made))
  | @bisection _ s made =>
    obtain ⟨-, _, searched⟩ := Bisection.ofKeys_eq_ok_iff.1 made
    obtain ⟨nonempty, tree⟩ := searched.tree_eq
    show ∀ v ∈ s.tree.eventsOf r .mk s.beyond next, v.Within s.keys.size
    rw [searched.keys_eq, tree]
    exact SplitTree.eventsOf_ofSorted_within r _ _ nonempty
      (fun i hi => List.mem_range.1 ((Bisection.byOrdinal_perm _).mem_iff.1 hi)) next

end Strategy

end Multiway
