import Multiway.Proofs.Search.Destination

/-!
# Linear search

A linear search makes no labels, so it asks every sink for the same events, whatever becomes of
them. Read as a program they lead a value to the target of the first key that it matches, in the
order of the search. Control falls off the end only in front of a label to which the last test may
lead.
-/
namespace Multiway

theorem Routes.outside_testsInOrder (r : Routes) (rest : List ℕ) (last : ℕ)
    (mayFallThrough : Bool) : r.Outside (r.testsInOrder rest last mayFallThrough) :=
  ⟨r.bind_not_mem_testsInOrder _ _ _ _, fun _ => r.bind_not_mem_testsInOrder _ _ _ _⟩

namespace LinearSearch

/-- The index of the key that is tested last. -/
def last (s : LinearSearch) : ℕ := s.order.getLast s.order_ne_nil

def events (s : LinearSearch) (r : Routes) : List Event := (Strategy.linear s).events r 0

/-- A value goes to the target of the first key that it matches in the order of the search,
whichever keys it matches. -/
def LeadsToFirstMatch (s : LinearSearch) : Prop :=
  ∀ r : Routes, r.targets.size = s.keys.size → ∃ events : List Event,
    (∀ {σ : Type} (sink : Sink σ), sink.run r s.requests = sink.performAll events) ∧
    ∀ holds : ℕ → Condition → Bool,
      (∀ i < s.keys.size, holds i .notEqual = !holds i .equal) →
      (∃ d, Program.Ends events holds 0 d ∧
        d.arrival r.successor = some (r.destination (holds · .equal) s.order)) ∧
      (r.successor ≠ some r.default → r.successor ≠ some (r.targetOf s.last) →
        ¬Departs (Program.step events holds) 0 .falls)

variable {s : LinearSearch} {r : Routes}

theorem order_eq (s : LinearSearch) : s.order.dropLast ++ [s.last] = s.order :=
  List.dropLast_concat_getLast s.order_ne_nil

/-- The search asks every sink for its events, and for nothing else. -/
theorem run_eq_performAll {σ : Type} (sink : Sink σ) (inside : ∀ i ∈ s.order, i < r.targets.size) :
    sink.run r s.requests = sink.performAll (s.events r) := by
  have told : ∀ q ∈ s.requests,
      q ≠ .makeLabel ∧ q.events r #[] = .ok (q.eventsOf r Label.mk) := by
    intro q mem
    rw [requests, List.mem_append, List.mem_map, List.mem_singleton] at mem
    obtain ⟨i, hi, rfl⟩ | rfl := mem
    · refine ⟨fun eq => by contradiction, ?_⟩
      simp only [Request.events, Routes.target_eq (inside i (List.dropLast_subset _ hi))]
      rfl
    · refine ⟨fun eq => by contradiction, ?_⟩
      simp only [Request.events, Routes.target_eq (inside _ (List.getLast_mem s.order_ne_nil))]
      rfl
  rw [sink.run_eq_performAll told, requests, Routes.eventsOf_testsInOrder]
  rfl

variable {holds : ℕ → Condition → Bool}

/-- The events lead to the destination of the value. -/
theorem arrives (complement : holds s.last .notEqual = !holds s.last .equal) :
    ∃ d, Program.Ends (s.events r) holds 0 d ∧
      d.arrival r.successor = some (r.destination (holds · .equal) s.order) := by
  have program : s.events r = [] ++ r.testsInOrder s.order.dropLast s.last true := rfl
  rw [← s.order_eq]
  exact Program.arrives_testsInOrder program (r.outside_testsInOrder _ _ _) complement

/-- Control leaves the events through a label, unless the last test may fall through. -/
theorem ends_through (default : r.successor ≠ some r.default)
    (target : r.successor ≠ some (r.targetOf s.last)) :
    Program.Ends (s.events r) holds 0
      (.through (r.destination (holds · .equal) s.order)) := by
  have last : r.decisionEvents s.last .equal true = r.decisionEvents s.last .equal false :=
    Routes.decisionEvents_eq_of_not_fallsTo (by simpa [Routes.fallsTo] using default)
      (by simpa [Routes.fallsTo] using target) .equal true
  have program : s.events r = [] ++ r.testsInOrder s.order.dropLast s.last false ++ [] := by
    show r.testsInOrder s.order.dropLast s.last true = _
    rw [List.nil_append, List.append_nil, Routes.testsInOrder, last]
    rfl
  conv in s.order => rw [← s.order_eq]
  exact Program.ends_testsInOrder program (r.outside_testsInOrder _ _ _)

theorem leadsToFirstMatch_of_inside (inside : ∀ i ∈ s.order, i < s.keys.size) :
    s.LeadsToFirstMatch := by
  intro r sizes
  refine ⟨s.events r, fun sink => run_eq_performAll sink (by rwa [sizes]), ?_⟩
  intro holds complement
  refine ⟨arrives (complement _ (inside _ (List.getLast_mem s.order_ne_nil))), ?_⟩
  intro default target falls
  exact Departure.noConfusion ((ends_through default target _).1 falls)

/-- A search by probability tests the keys by falling probability, and those of equal probability as
they are given. It leads each value to the target of the first key that it matches in that order,
and so does the search that tests the keys as they are given. -/
theorem leads_to_first_match {keys : List Key} {probabilities : List Binary64} {s : LinearSearch}
    (numbers : ∀ p ∈ probabilities, ¬p.isNaN)
    (accepted : ofProbabilities keys probabilities = .ok s) :
    s.keys = keys.toArray ∧ s.order.Perm (List.range keys.length) ∧
    (s.order.Pairwise fun i j => ∀ p ∈ probabilities[i]?, ∀ q ∈ probabilities[j]?,
      q.less p ∨ p.rank? = q.rank? ∧ i < j) ∧
    s.LeadsToFirstMatch ∧
    ∃ given, ofKeys keys = .ok given ∧ given.keys = keys.toArray ∧
      given.order = List.range keys.length ∧ given.LeadsToFirstMatch := by
  obtain ⟨valid, -, hkeys, horder⟩ := ofProbabilities_eq_ok_iff.1 accepted
  have perm := order_perm_of_ofProbabilities accepted
  have nonempty : List.range keys.length ≠ [] := by simpa using valid.1
  let given : LinearSearch := ⟨keys.toArray, List.range keys.length, nonempty⟩
  refine ⟨hkeys, perm, ?_, ?_, given, ofKeys_eq_ok_iff.2 ⟨valid, rfl, rfl⟩, rfl, rfl, ?_⟩
  · rw [horder]
    exact pairwise_byProbability numbers
  · exact leadsToFirstMatch_of_inside (lt_size_of_perm hkeys perm)
  · exact leadsToFirstMatch_of_inside (lt_size_of_perm rfl (List.Perm.refl _))

/-- Of two keys the second one is the more probable. -/
theorem leads_to_first_match_of_two :
    let keys : List Key := [.immediate 3, .immediate 7]
    let probabilities : List Binary64 := [⟨0x3FD0000000000000⟩, ⟨0x3FE8000000000000⟩]
    let s : LinearSearch := ⟨keys.toArray, [1, 0], by decide⟩
    (∀ p ∈ probabilities, ¬p.isNaN) ∧ ofProbabilities keys probabilities = .ok s ∧
      s.LeadsToFirstMatch := by
  intro keys probabilities s
  have numbers : ∀ p ∈ probabilities, ¬p.isNaN := by decide
  have accepted : ofProbabilities keys probabilities = .ok s := by
    refine ofProbabilities_eq_ok_iff.2 ⟨⟨by decide, by decide⟩, rfl, rfl, ?_⟩
    rw [byProbability_pair]
    rfl
  exact ⟨numbers, accepted, (leads_to_first_match numbers accepted).2.2.2.1⟩

end LinearSearch

end Multiway
