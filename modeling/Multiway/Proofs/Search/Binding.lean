import Multiway.Proofs.Search.Bisection
import Multiway.Proofs.Search.Uses

/-!
# Labels that a search binds

Whatever the labels are that a sink makes for a search, the search binds each of them once and binds
no other label. The last thing that it asks for is a test or a jump, so all of its labels are bound
before the end of what it comes down to.
-/
namespace Multiway

def boundBy (vs : List Event) : List Label := Use.bound (vs.map Event.use)

theorem boundBy_append (us vs : List Event) : boundBy (us ++ vs) = boundBy us ++ boundBy vs := by
  rw [boundBy, List.map_append, Use.bound_append]
  rfl

theorem mem_boundBy {vs : List Event} {l : Label} : l ∈ boundBy vs ↔ .bind l ∈ vs := by
  rw [boundBy, Use.mem_bound, List.mem_map]
  constructor
  · rintro ⟨v, mem, use⟩
    cases v <;> simp_all [Event.use]
  · exact fun mem => ⟨_, mem, rfl⟩

namespace Routes

variable {r : Routes} {rest : List ℕ} {last : ℕ} {mayFallThrough : Bool}

theorem boundBy_testsInOrder : boundBy (r.testsInOrder rest last mayFallThrough) = [] :=
  List.eq_nil_iff_forall_not_mem.2 fun _ mem =>
    r.bind_not_mem_testsInOrder _ _ _ _ (mem_boundBy.1 mem)

/-- Tests in order end with a test or a jump. -/
theorem exists_testsInOrder_eq (r : Routes) (rest : List ℕ) (last : ℕ) (mayFallThrough : Bool) :
    ∃ us v, r.testsInOrder rest last mayFallThrough = us ++ [v] ∧ ∀ l, v ≠ .bind l := by
  rw [testsInOrder]
  unfold decisionEvents
  split_ifs
  · exact ⟨_, _, rfl, by simp⟩
  · exact ⟨_, _, rfl, by simp⟩
  · exact ⟨_, .jump r.default, (List.append_assoc _ [_] [_]).symm, by simp⟩

end Routes

namespace SplitTree

variable {r : Routes} {label : ℕ → Label} {beyond : Condition}

/-- A tree binds each of its labels once. -/
theorem boundBy_eventsOf (t : SplitTree) (n : ℕ) :
    (boundBy (t.eventsOf r label beyond n)).Perm ((List.range' n t.splits).map label) := by
  induction t generalizing n with
  | leaf rest last =>
    rw [eventsOf_leaf, Routes.boundBy_testsInOrder]
    exact .nil
  | split pivot lower upper ihLower ihUpper =>
    have count : (split pivot lower upper).splits = 1 + lower.splits + upper.splits := by
      rw [splits]
      omega
    rw [eventsOf_split, boundBy_append, boundBy_append, boundBy_append, count,
      ← List.range'_append_1, ← List.range'_append_1, ← Nat.add_assoc, List.map_append,
      List.map_append]
    exact ((ihLower (n + 1)).append_right [label n] |>.trans List.perm_append_comm).append
      (ihUpper (n + 1 + lower.splits))

theorem exists_eventsOf_eq (t : SplitTree) (n : ℕ) :
    ∃ us v, t.eventsOf r label beyond n = us ++ [v] ∧ ∀ l, v ≠ .bind l := by
  induction t generalizing n with
  | leaf rest last =>
    rw [eventsOf_leaf]
    exact r.exists_testsInOrder_eq rest last false
  | split pivot lower upper _ ihUpper =>
    obtain ⟨us, v, upperEvents, unbound⟩ := ihUpper (n + 1 + lower.splits)
    rw [eventsOf_split, upperEvents, ← List.append_assoc]
    exact ⟨_, v, rfl, unbound⟩

end SplitTree

/-- The numbers of the labels that are made stand for these labels. -/
theorem map_range'_getD (made : Array Label) (l : Label) :
    (List.range' 0 made.size).map (made[·]?.getD l) = made.toList := by
  refine List.ext_getElem (by simp) fun i hi hi' => ?_
  simp [show i < made.size by simpa using hi]

/-- A search binds each label that it makes once, and does not end with that. -/
theorem Strategy.IsSearch.binds_of_serves {search : Strategy} (isSearch : search.IsSearch)
    {σ : Type} {s : Sink σ} {r : Routes} {x y : σ} {vs : List Event} {made : Array Label}
    (served : s.Serves r search.requests #[] x vs made y) :
    made.size = search.labels ∧ (boundBy vs).Perm made.toList ∧
      ∃ us v, vs = us ++ [v] ∧ ∀ l, v ≠ .bind l := by
  have linear {t : LinearSearch} (h : search = .linear t) :
      made.size = search.labels ∧ (boundBy vs).Perm made.toList ∧
        ∃ us v, vs = us ++ [v] ∧ ∀ l, v ≠ .bind l := by
    subst h
    obtain ⟨more, same, size⟩ := served.made_eq
    rw [Array.empty_append] at same
    subst same
    have none : made.size = 0 := by
      rw [size, List.count_eq_zero]
      simp only [requests, LinearSearch.requests, List.mem_append, List.mem_map]
      simp
    have tests : vs = r.testsInOrder t.order.dropLast (t.order.getLast t.order_ne_nil) true :=
      (served.events_eq (numbers_getD made r.default)).trans (r.eventsOf_testsInOrder _ _ _ _)
    rw [Array.size_eq_zero_iff.1 none, tests, Routes.boundBy_testsInOrder]
    exact ⟨rfl, .nil, r.exists_testsInOrder_eq _ _ _⟩
  cases isSearch with
  | inOrder _ => exact linear rfl
  | byProbability _ => exact linear rfl
  | @bisection _ t _ =>
    obtain ⟨size, tree⟩ := Bisection.eventsOf_of_serves served
    refine ⟨size, ?_, ?_⟩
    · rw [tree, ← map_range'_getD made r.default, size]
      exact t.tree.boundBy_eventsOf 0
    · rw [tree]
      exact t.tree.exists_eventsOf_eq 0

end Multiway
