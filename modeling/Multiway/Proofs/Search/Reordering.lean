import Multiway.Proofs.Lowering.Check
import Multiway.Proofs.Search.Linear
import Multiway.Proofs.Search.Matching

/-!
# Linear searches over the same keys

The probabilities of the keys decide in which order they are tested. No value matches two keys of
one kind that differ, but a value may match keys of different kinds, such as an immediate key and a
word with the same bits. Then it goes to the target of the one that is tested first. So the order
makes no difference to a value exactly if the keys of different kinds that it matches share a
target.
-/
namespace Multiway

namespace LinearSearch

/-- The linear searches over a list of keys, with probabilities that are numbers or with none. -/
inductive Over : LinearSearch → List Key → Prop
  | inOrder {keys : List Key} {s : LinearSearch} : ofKeys keys = .ok s → Over s keys
  | byProbability {keys : List Key} {probabilities : List Binary64} {s : LinearSearch} :
    (∀ p ∈ probabilities, ¬p.isNaN) → ofProbabilities keys probabilities = .ok s → Over s keys

variable {s : LinearSearch} {keys : List Key}

theorem Over.valid (h : s.Over keys) : keys ≠ [] ∧ keys.Nodup := by
  cases h with
  | inOrder accepted => exact (ofKeys_eq_ok_iff.1 accepted).1
  | byProbability _ accepted => exact (ofProbabilities_eq_ok_iff.1 accepted).1

theorem Over.keys_eq (h : s.Over keys) : s.keys = keys.toArray := by
  cases h with
  | inOrder accepted => exact (ofKeys_eq_ok_iff.1 accepted).2.1
  | byProbability _ accepted => exact (ofProbabilities_eq_ok_iff.1 accepted).2.2.1

theorem Over.order_perm (h : s.Over keys) : s.order.Perm (List.range keys.length) := by
  cases h with
  | inOrder accepted => rw [(ofKeys_eq_ok_iff.1 accepted).2.2]
  | byProbability _ accepted => exact order_perm_of_ofProbabilities accepted

/-- Probabilities that make one key certain. -/
def favouring (n index : ℕ) : List Binary64 :=
  (List.range n).map fun i => if i = index then ⟨0x3FF0000000000000⟩ else ⟨0⟩

theorem favouring_numbers (n index : ℕ) : ∀ p ∈ favouring n index, ¬p.isNaN := by
  intro p mem
  obtain ⟨i, -, rfl⟩ := List.mem_map.1 mem
  split_ifs <;> decide

/-- A key that is certain is tested first. -/
theorem byProbability_favouring {n index : ℕ} (h : index < n) :
    ∃ rest, byProbability (favouring n index) = index :: rest := by
  have perm := byProbability_perm (favouring n index)
  have sorted := pairwise_byProbability (favouring_numbers n index)
  rw [show (favouring n index).length = n by simp [favouring]] at perm
  have mem : index ∈ byProbability (favouring n index) := perm.mem_iff.2 (List.mem_range.2 h)
  cases order : byProbability (favouring n index) with
  | nil => simp [order] at mem
  | cons first rest =>
    rw [order] at mem sorted perm
    obtain rfl | later := List.mem_cons.1 mem
    · exact ⟨rest, rfl⟩
    · by_contra other
      have differs : first ≠ index := fun same => other ⟨rest, by rw [same]⟩
      have inside : first < n := List.mem_range.1 (perm.mem_iff.1 List.mem_cons_self)
      have zero : (favouring n index)[first]? = some ⟨0⟩ := by simp [favouring, inside, differs]
      have one : (favouring n index)[index]? = some ⟨0x3FF0000000000000⟩ := by simp [favouring, h]
      obtain less | ⟨equal, -⟩ := List.rel_of_pairwise_cons sorted later _ zero _ one
      · exact absurd less (by decide)
      · exact absurd equal (by decide)

/-- Each key is tested first by some search. -/
theorem Over.exists_first (h : s.Over keys) {index : ℕ} (inside : index < keys.length) :
    ∃ u : LinearSearch, u.Over keys ∧ ∃ rest, u.order = index :: rest := by
  obtain ⟨rest, order⟩ := byProbability_favouring inside
  let u : LinearSearch := ⟨keys.toArray,
    LinearSearch.byProbability (favouring keys.length index), by simp [order]⟩
  have accepted : ofProbabilities keys (favouring keys.length index) = .ok u :=
    ofProbabilities_eq_ok_iff.2 ⟨h.valid, by simp [favouring], rfl, rfl⟩
  exact ⟨u, .byProbability (favouring_numbers _ _) accepted, rest, order⟩

end LinearSearch

namespace Routes

variable {r : Routes} {matching : ℕ → Bool} {xs ys : List ℕ}

theorem destination_cons {index : ℕ} (matched : matching index) :
    r.destination matching (index :: xs) = r.targetOf index := by
  rw [destination, List.find?_cons_of_pos matched]
  rfl

/-- Where all keys that a value matches share a target, their order makes no difference. -/
theorem destination_eq_of_perm (perm : xs.Perm ys)
    (shared : ∀ i ∈ xs, ∀ j ∈ xs, matching i → matching j → r.targetOf i = r.targetOf j) :
    r.destination matching xs = r.destination matching ys := by
  rw [destination, destination]
  cases left : xs.find? matching with
  | none =>
    have missed : ys.find? matching = none := by
      rw [List.find?_eq_none] at left ⊢
      exact fun i hi => left i (perm.mem_iff.2 hi)
    rw [missed]
  | some i =>
    cases right : ys.find? matching with
    | none =>
      have mem := perm.mem_iff.1 (List.mem_of_find?_eq_some left)
      exact absurd (List.find?_some left) (List.find?_eq_none.1 right i mem)
    | some j =>
      exact shared i (List.mem_of_find?_eq_some left)
        j (perm.mem_iff.2 (List.mem_of_find?_eq_some right))
        (List.find?_some left) (List.find?_some right)

end Routes

namespace Switch

/-- The switch with a linear search in place of its strategy. -/
def searching (t : Switch) (search : LinearSearch) : Switch := { t with strategy := .linear search }

/-- The switch sends a value to a label: it asks every sink for the same events, and these lead the
value to the label. -/
def Sends (s : Switch) (x : BitVec 64) (l : Label) : Prop :=
  ∃ events : List Event,
    (∀ {σ : Type} (sink : Sink σ),
      sink.run s.routes s.strategy.requests = sink.performAll events) ∧
    ∃ d, Program.Ends events (s.emission.holds x) 0 d ∧ d.arrival s.routes.successor = some l

variable {t a b s : Switch} {u v : LinearSearch} {keys : List Key} {x : BitVec 64} {l l' : Label}

/-- A switch sends a value to one label only. -/
theorem Sends.unique (h : s.Sends x l) (h' : s.Sends x l') : l = l' := by
  obtain ⟨events, performed, d, ends, arrives⟩ := h
  obtain ⟨events', performed', d', ends', arrives'⟩ := h'
  -- a transcript tells the events
  have kept := Transcript.run_performAll_sink .noKeys events {}
  rw [← performed, performed', Transcript.run_performAll_sink] at kept
  have same : events' = events := by simpa using kept
  subst same
  obtain rfl : d = d' := (ends' d).1 ((ends d).2 rfl)
  exact Option.some.inj (arrives.symm.trans arrives')

/-- The check does not depend on the order of the keys. -/
theorem check_searching (same : u.keys = v.keys) (accepted : (t.searching v).check = .ok a) :
    (t.searching u).check = .ok (a.searching u) := by
  obtain ⟨fit, rfl⟩ := check_eq_ok_iff.1 accepted
  have same_keys : (t.searching u).keys = (t.searching v).keys := same
  refine check_eq_ok_iff.2 ⟨⟨?_, ?_, ?_, fit.scratch_ne_zero, fit.scratch_ne_value, ?_⟩, rfl⟩
  · exact same_keys ▸ fit.keys_nonempty
  · exact same_keys ▸ fit.targets_size
  · rw [wideImmediate?, same_keys]
    exact fit.immediates
  · exact same_keys ▸ fit.base_of_pooled

def matching (t : Switch) (keys : List Key) (x : BitVec 64) (index : ℕ) : Bool :=
  Key.comparesAt keys.toArray t.width x index .equal

theorem matching_iff {index : ℕ} :
    t.matching keys x index ↔ ∃ k, keys[index]? = some k ∧ k.compares t.width .equal x := by
  simp [matching, Key.comparesAt, Option.any_eq_true]

/-- A switch sends each value to its destination in the order of the search. -/
theorem sends_of_over (hu : u.Over keys) (accepted : (t.searching u).check = .ok a)
    (x : BitVec 64) : a.Sends x (t.routes.destination (t.matching keys x) u.order) := by
  obtain ⟨fit, rfl⟩ := check_eq_ok_iff.1 accepted
  let e : Emission := Switch.emission { t.searching u with base := t.base.filter (!·.isZero) }
  have inside := LinearSearch.lt_size_of_perm hu.keys_eq hu.order_perm
  have complement : e.holds x u.last .notEqual = !e.holds x u.last .equal :=
    Emission.holds_notEqual (inside _ (List.getLast_mem u.order_ne_nil))
  have same : (e.holds x · .equal) = t.matching keys x := by
    funext i
    show Key.comparesAt u.keys t.width x i .equal = _
    rw [hu.keys_eq]
    rfl
  have arrives := LinearSearch.arrives (r := t.routes) complement
  rw [same] at arrives
  refine ⟨u.events t.routes, fun sink => LinearSearch.run_eq_performAll sink ?_, arrives⟩
  exact fun i hi => (inside i hi).trans_eq fit.targets_size

/-- Switches over searches for the same keys send a value to the same label, whatever their
probabilities, exactly if all keys of different kinds that it matches have the same target. -/
theorem sends_alike_iff (hu : u.Over keys) (accepted : (t.searching u).check = .ok s)
    (x : BitVec 64) :
    (∀ v w : LinearSearch, v.Over keys → w.Over keys →
      ∃ a b, (t.searching v).check = .ok a ∧ (t.searching w).check = .ok b ∧
        ∃ l, a.Sends x l ∧ b.Sends x l) ↔
      ∀ i j k k', keys[i]? = some k → keys[j]? = some k' → k.kind ≠ k'.kind →
        k.compares t.width .equal x → k'.compares t.width .equal x →
        t.routes.targetOf i = t.routes.targetOf j := by
  have checked {v : LinearSearch} (h : v.Over keys) : (t.searching v).check = .ok (s.searching v) :=
    check_searching (h.keys_eq.trans hu.keys_eq.symm) accepted
  constructor
  · intro alike i j k k' hi hj _ matched matched'
    -- the searches that test the one key or the other first
    obtain ⟨v, hv, rest, first⟩ := hu.exists_first (List.getElem?_eq_some_iff.1 hi).1
    obtain ⟨w, hw, rest', first'⟩ := hu.exists_first (List.getElem?_eq_some_iff.1 hj).1
    obtain ⟨a, b, ha, hb, l, left, right⟩ := alike v w hv hw
    have toFirst := left.unique (sends_of_over hv ha x)
    have toFirst' := right.unique (sends_of_over hw hb x)
    rw [first, Routes.destination_cons (matching_iff.2 ⟨k, hi, matched⟩)] at toFirst
    rw [first', Routes.destination_cons (matching_iff.2 ⟨k', hj, matched'⟩)] at toFirst'
    exact toFirst.symm.trans toFirst'
  · intro shared v w hv hw
    refine ⟨_, _, checked hv, checked hw, _, sends_of_over hv (checked hv) x, ?_⟩
    have same : t.routes.destination (t.matching keys x) v.order =
        t.routes.destination (t.matching keys x) w.order := by
      refine Routes.destination_eq_of_perm (hv.order_perm.trans hw.order_perm.symm) ?_
      intro i _ j _ matched matched'
      obtain ⟨k, hi, matched⟩ := matching_iff.1 matched
      obtain ⟨k', hj, matched'⟩ := matching_iff.1 matched'
      by_cases kinds : k.kind = k'.kind
      · obtain rfl := Key.eq_of_compares_equal kinds matched matched'
        have inside := (List.getElem?_eq_some_iff.1 hi).1
        rw [(List.getElem?_inj inside hu.valid.2).1 (hi.trans hj.symm)]
      · exact shared i j k k' hi hj kinds matched matched'
    rw [same]
    exact sends_of_over hw (checked hw) x

/-- A value that matches one of two keys of different kinds goes to its target in either order. -/
theorem sends_alike_iff_of_word :
    let t : Switch := {
      strategy := .scripted #[] []
      routes := ⟨#[⟨0⟩, ⟨1⟩], ⟨2⟩, none⟩, value := ⟨8⟩, width := .word, base := some ⟨9⟩,
      scratch := ⟨1⟩ }
    let keys : List Key := [.immediate 5, .word 6]
    let u : LinearSearch := ⟨keys.toArray, [0, 1], by decide⟩
    u.Over keys ∧ (t.searching u).check = .ok (t.searching u) ∧
      ∀ v w : LinearSearch, v.Over keys → w.Over keys →
        ∃ a b, (t.searching v).check = .ok a ∧ (t.searching w).check = .ok b ∧
          ∃ l, a.Sends 6#64 l ∧ b.Sends 6#64 l := by
  intro t keys u
  have hu : u.Over keys := .inOrder rfl
  have checked : (t.searching u).check = .ok (t.searching u) := rfl
  have only : ∀ k ∈ keys, k.compares .word .equal 6#64 → k = .word 6 := by decide
  refine ⟨hu, checked, (sends_alike_iff hu checked 6#64).2 ?_⟩
  intro i j k k' hi hj kinds matched matched'
  rw [only k (List.mem_of_getElem? hi) matched,
    only k' (List.mem_of_getElem? hj) matched'] at kinds
  contradiction

/-- An immediate key and a word with the same bits: the value of both goes to the target of the more
probable one. -/
theorem sends_otherwise_of_two_kinds :
    let t : Switch := {
      strategy := .scripted #[] []
      routes := ⟨#[⟨0⟩, ⟨1⟩], ⟨2⟩, none⟩, value := ⟨8⟩, width := .word, base := some ⟨9⟩,
      scratch := ⟨1⟩ }
    let keys : List Key := [.immediate 5, .word 5]
    let falling : List Binary64 := [⟨0x3FE8000000000000⟩, ⟨0x3FD0000000000000⟩]
    let rising : List Binary64 := [⟨0x3FD0000000000000⟩, ⟨0x3FE8000000000000⟩]
    (∀ p ∈ falling ++ rising, ¬p.isNaN) ∧
    ∃ u v a b, LinearSearch.ofProbabilities keys falling = .ok u ∧
      LinearSearch.ofProbabilities keys rising = .ok v ∧
      (t.searching u).check = .ok a ∧ (t.searching v).check = .ok b ∧
      a.Sends 5#64 ⟨0⟩ ∧ b.Sends 5#64 ⟨1⟩ ∧ ¬∃ l, a.Sends 5#64 l ∧ b.Sends 5#64 l := by
  intro t keys falling rising
  let u : LinearSearch := ⟨keys.toArray, [0, 1], by decide⟩
  let v : LinearSearch := ⟨keys.toArray, [1, 0], by decide⟩
  have hu : LinearSearch.ofProbabilities keys falling = .ok u := by
    refine LinearSearch.ofProbabilities_eq_ok_iff.2 ⟨⟨by decide, by decide⟩, rfl, rfl, ?_⟩
    rw [LinearSearch.byProbability_pair]
    rfl
  have hv : LinearSearch.ofProbabilities keys rising = .ok v := by
    refine LinearSearch.ofProbabilities_eq_ok_iff.2 ⟨⟨by decide, by decide⟩, rfl, rfl, ?_⟩
    rw [LinearSearch.byProbability_pair]
    rfl
  have checked : (t.searching u).check = .ok (t.searching u) := rfl
  have checked' : (t.searching v).check = .ok (t.searching v) := rfl
  have left : (t.searching u).Sends 5#64 ⟨0⟩ :=
    sends_of_over (.byProbability (by decide) hu) checked 5#64
  have right : (t.searching v).Sends 5#64 ⟨1⟩ :=
    sends_of_over (.byProbability (by decide) hv) checked' 5#64
  refine ⟨by decide, u, v, t.searching u, t.searching v, hu, hv, checked, checked', left, right, ?_⟩
  rintro ⟨l, toLeft, toRight⟩
  exact absurd ((left.unique toLeft).trans (toRight.unique right)) (by decide)

end Switch

end Multiway
