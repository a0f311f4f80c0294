import Multiway.Proofs.Search.Destination
import Multiway.Proofs.Search.Matching
import Multiway.Proofs.Search.Service

/-!
# Bisection

A split sends the values beyond its pivot to the upper half and all others to the lower half. No key
of the other half can match such a value, because the keys ascend. So a tree leads each value to the
same label as all of its keys tested in order, provided that the label of each split is bound at its
upper half and nowhere before.
-/
namespace Multiway

/-- Comparisons with these keys are comparisons of one number with numbers that ascend. -/
structure Ascends (holds : ℕ → Condition → Bool) (beyond : Condition) (ordinal : ℕ → ℤ)
    (value : ℤ) (indices : List ℕ) : Prop where
  ascending : indices.Pairwise fun i j => ordinal i < ordinal j
  equal_iff : ∀ i ∈ indices, holds i .equal ↔ value = ordinal i
  beyond_iff : ∀ i ∈ indices, holds i beyond ↔ ordinal i < value

namespace Ascends

variable {holds : ℕ → Condition → Bool} {beyond : Condition} {ordinal : ℕ → ℤ} {value : ℤ}
  {xs ys : List ℕ} {pivot : ℕ}

theorem left (h : Ascends holds beyond ordinal value (xs ++ ys)) :
    Ascends holds beyond ordinal value xs where
  ascending := (List.pairwise_append.1 h.ascending).1
  equal_iff i hi := h.equal_iff i (List.mem_append_left _ hi)
  beyond_iff i hi := h.beyond_iff i (List.mem_append_left _ hi)

theorem right (h : Ascends holds beyond ordinal value (xs ++ ys)) :
    Ascends holds beyond ordinal value ys where
  ascending := (List.pairwise_append.1 h.ascending).2.1
  equal_iff i hi := h.equal_iff i (List.mem_append_right _ hi)
  beyond_iff i hi := h.beyond_iff i (List.mem_append_right _ hi)

/-- A value beyond the last of the keys matches none of them. -/
theorem find?_eq_none_of_beyond (h : Ascends holds beyond ordinal value xs)
    (last : xs.getLast? = some pivot) (passed : holds pivot beyond) :
    xs.find? (holds · .equal) = none := by
  obtain ⟨front, rfl⟩ := List.getLast?_eq_some_iff.1 last
  have greater := (h.beyond_iff pivot (by simp)).1 passed
  rw [List.find?_eq_none]
  intro i hi
  rw [h.equal_iff i hi]
  obtain hi | hi := List.mem_append.1 hi
  · have := (List.pairwise_append.1 h.ascending).2.2 i hi pivot List.mem_cons_self
    omega
  · obtain rfl := List.mem_singleton.1 hi
    omega

/-- A value that is not beyond the last of the keys matches none of those that follow. -/
theorem find?_eq_none_of_not_beyond (h : Ascends holds beyond ordinal value (xs ++ ys))
    (last : xs.getLast? = some pivot) (failed : ¬holds pivot beyond) :
    ys.find? (holds · .equal) = none := by
  have mem : pivot ∈ xs := List.mem_of_getLast? last
  rw [h.beyond_iff pivot (List.mem_append_left _ mem)] at failed
  rw [List.find?_eq_none]
  intro i hi
  rw [h.equal_iff i (List.mem_append_right _ hi)]
  have := (List.pairwise_append.1 h.ascending).2.2 pivot mem i hi
  omega

end Ascends

namespace SplitTree

/-! ## The requests of a tree -/

/-- No request of a tree depends on what follows the branch. -/
theorem not_asksSuccessor (beyond : Condition) (t : SplitTree) (n : ℕ) :
    ∀ q ∈ t.requests beyond n, ¬q.asksSuccessor := by
  induction t generalizing n with
  | leaf rest last =>
    intro q mem
    rw [requests, List.mem_append, List.mem_map, List.mem_singleton] at mem
    obtain ⟨i, -, rfl⟩ | rfl := mem <;> simp [Request.asksSuccessor]
  | split pivot lower upper ihLower ihUpper =>
    intro q mem
    simp only [requests, List.mem_append, List.mem_cons, List.not_mem_nil, or_false] at mem
    obtain (((rfl | rfl) | mem) | rfl) | mem := mem
    · simp [Request.asksSuccessor]
    · simp [Request.asksSuccessor]
    · exact ihLower _ q mem
    · simp [Request.asksSuccessor]
    · exact ihUpper _ q mem

/-! ## The events of a tree -/

variable {r : Routes} {label : ℕ → Label} {beyond : Condition}

/-- A tree binds its own labels only. -/
theorem label_of_bind_mem {t : SplitTree} {n : ℕ} {l : Label}
    (mem : .bind l ∈ t.eventsOf r label beyond n) :
    ∃ k, n ≤ k ∧ k < n + t.splits ∧ l = label k := by
  induction t generalizing n with
  | leaf rest last =>
    rw [eventsOf_leaf] at mem
    exact absurd mem (r.bind_not_mem_testsInOrder _ _ _ _)
  | split pivot lower upper ihLower ihUpper =>
    rw [eventsOf_split] at mem
    simp only [List.mem_append, List.mem_singleton, reduceCtorEq, Event.bind.injEq,
      false_or] at mem
    rw [splits]
    obtain (mem | rfl) | mem := mem
    · obtain ⟨k, low, high, rfl⟩ := ihLower mem
      exact ⟨k, by omega, by omega, rfl⟩
    · exact ⟨n, le_rfl, by omega, rfl⟩
    · obtain ⟨k, low, high, rfl⟩ := ihUpper mem
      exact ⟨k, by omega, by omega, rfl⟩

/-- Labels of different numbers below a bound differ, and the events bind none of those from one
number on. -/
structure Unused (label : ℕ → Label) (next bound : ℕ) (events : List Event) : Prop where
  distinct : ∀ {j k : ℕ}, j < bound → k < bound → label j = label k → j = k
  unbound : ∀ {k : ℕ}, next ≤ k → k < bound → .bind (label k) ∉ events

namespace Unused

variable {next bound : ℕ} {events : List Event}

theorem test (h : Unused label next bound events) (index : ℕ) (condition : Condition) (l : Label) :
    Unused label (next + 1) bound (events ++ [.test index condition l]) where
  distinct := h.distinct
  unbound low high := by
    simpa using h.unbound (Nat.le_of_succ_le low) high

/-- A tree does not bind labels that are made before it or after it. -/
theorem bind_not_mem_eventsOf (h : Unused label next bound events) {t : SplitTree} {n k : ℕ}
    (room : n + t.splits ≤ bound) (hk : k < bound) (apart : k < n ∨ n + t.splits ≤ k) :
    .bind (label k) ∉ t.eventsOf r label beyond n := by
  intro mem
  obtain ⟨j, low, high, same⟩ := label_of_bind_mem mem
  have := h.distinct hk (by omega) same
  omega

/-- After a tree and the label before it, the labels from then on are still unused. -/
theorem tree (h : Unused label (next + 1) bound events) (r : Routes) (beyond : Condition)
    {t : SplitTree} (room : next + 1 + t.splits ≤ bound) :
    Unused label (next + 1 + t.splits) bound
      (events ++ t.eventsOf r label beyond (next + 1) ++ [.bind (label next)]) where
  distinct := h.distinct
  unbound {k} low high := by
    have other : label k ≠ label next := fun same => by
      have := h.distinct high (by omega) same
      omega
    simp only [List.mem_append, List.mem_singleton, Event.bind.injEq, not_or]
    exact ⟨⟨h.unbound (by omega) high, h.bind_not_mem_eventsOf room high (Or.inr low)⟩, other⟩

end Unused

/-! ## Where a tree leads -/

/-- The events of a tree stand at a place among others. The label of a split leads to its upper
half, behind the lower one. -/
inductive Stands (r : Routes) (beyond : Condition) (events : List Event) : SplitTree → ℕ → Prop
  | leaf {rest : List ℕ} {last : ℕ} {before after : List Event} :
    events = before ++ r.testsInOrder rest last false ++ after →
    Stands r beyond events (.leaf rest last) before.length
  | split {pivot n mark : ℕ} {lower upper : SplitTree} {l : Label} :
    events[n]? = some (.test pivot beyond l) → Program.goto events l = .ok mark →
    events[mark]? = some (.bind l) → Stands r beyond events lower (n + 1) →
    Stands r beyond events upper (mark + 1) → Stands r beyond events (.split pivot lower upper) n

theorem stands_eventsOf {events before after : List Event} {bound : ℕ} (t : SplitTree) (n : ℕ)
    (unused : Unused label n bound before) (room : n + t.splits ≤ bound)
    (program : events = before ++ t.eventsOf r label beyond n ++ after) :
    t.Stands r beyond events before.length := by
  induction t generalizing n before after with
  | leaf rest last =>
    rw [eventsOf_leaf] at program
    exact .leaf program
  | split pivot lower upper ihLower ihUpper =>
    rw [splits] at room
    rw [eventsOf_split] at program
    have parts : events = before ++ [.test pivot beyond (label n)] ++
        lower.eventsOf r label beyond (n + 1) ++ [.bind (label n)] ++
        (upper.eventsOf r label beyond (n + 1 + lower.splits) ++ after) := by
      simpa using program
    have unusedLower := unused.test pivot beyond (label n)
    have unusedUpper := unusedLower.tree r beyond (show n + 1 + lower.splits ≤ bound by omega)
    have lowerStands := ihLower (n + 1) unusedLower (by omega)
      (parts.trans (List.append_assoc _ _ _))
    have upperStands := ihUpper (n + 1 + lower.splits) unusedUpper (by omega)
      (parts.trans (List.append_assoc _ _ _).symm)
    rw [List.length_append, List.length_singleton] at lowerStands upperStands
    -- the label of the split is bound at its mark and nowhere before
    have marked : events = (before ++ [.test pivot beyond (label n)] ++
        lower.eventsOf r label beyond (n + 1)) ++ .bind (label n) ::
          (upper.eventsOf r label beyond (n + 1 + lower.splits) ++ after) := by
      simpa using parts
    have unbound : .bind (label n) ∉ before ++ [.test pivot beyond (label n)] ++
        lower.eventsOf r label beyond (n + 1) := by
      simp only [List.mem_append, List.mem_singleton, reduceCtorEq, or_false, not_or]
      exact ⟨unused.unbound le_rfl (by omega),
        unused.bind_not_mem_eventsOf (by omega) (by omega) (Or.inl n.lt_succ_self)⟩
    refine .split (l := label n) ?_ ?_ ?_ lowerStands upperStands
    · rw [parts]
      simp
    · rw [marked]
      exact Program.goto_append unbound
    · rw [marked]
      simp only [List.getElem?_append_right le_rfl, Nat.sub_self, List.getElem?_cons_zero]

/-- A tree leads each value to the same label as all of its keys tested in order. -/
theorem Stands.ends {events : List Event} {t : SplitTree} {n : ℕ} {holds : ℕ → Condition → Bool}
    {ordinal : ℕ → ℤ} {value : ℤ} (stands : t.Stands r beyond events n) (pivoted : t.Pivoted)
    (ascends : Ascends holds beyond ordinal value t.indices) (outside : r.Outside events) :
    Program.Ends events holds n (.through (r.destination (holds · .equal) t.indices)) := by
  induction stands with
  | leaf program => exact Program.ends_testsInOrder program outside
  | @split pivot n mark lower upper l tested goes marked _ _ ihLower ihUpper =>
    cases pivoted with
    | split last pivotedLower pivotedUpper =>
    have step : Program.step events holds n = _ := Program.step_of_test tested
    cases outcome : holds pivot beyond with
    | true =>
      rw [outcome, if_pos rfl, goes] at step
      rw [indices, Routes.destination_append_of_left
        (ascends.left.find?_eq_none_of_beyond last outcome)]
      exact ((ihUpper pivotedUpper ascends.right).of_ok (Program.step_of_bind marked)).of_ok step
    | false =>
      rw [outcome, if_neg Bool.false_ne_true] at step
      rw [indices, Routes.destination_append_of_right
        (ascends.find?_eq_none_of_not_beyond last (by simp [outcome]))]
      exact (ihLower pivotedLower ascends.left).of_ok step

end SplitTree

/-! ## Where a search leads -/

namespace Bisection

variable {keys : List Key} {s : Bisection} {kind : KeyKind} {r : Routes}

/-- The calls of a search are the events of its tree over the labels that are made. -/
theorem eventsOf_of_serves {σ : Type} {sink : Sink σ} {x y : σ} {events : List Event}
    {made : Array Label} (served : sink.Serves r s.requests #[] x events made y) :
    made.size = s.tree.splits ∧
      events = s.tree.eventsOf r (made[·]?.getD r.default) s.beyond 0 := by
  obtain ⟨more, same, size⟩ := served.made_eq
  rw [Array.empty_append] at same
  subst same
  exact ⟨size.trans (SplitTree.count_requests _ _ _),
    served.events_eq (numbers_getD made r.default)⟩

/-- Where the labels that are made are new ones, the tree stands in the calls of a search, and they
bind no label that it leads to. -/
theorem stands_of_serves {σ : Type} {sink : Sink σ} {x y : σ} {events : List Event}
    {made : Array Label} (served : sink.Serves r s.requests #[] x events made y)
    (distinct : made.toList.Nodup) (apart : ∀ l ∈ made, l ≠ r.default ∧ l ∉ r.targets) :
    s.tree.Stands r s.beyond events 0 ∧ r.Outside events := by
  let label (n : ℕ) : Label := made[n]?.getD r.default
  obtain ⟨made_size, program⟩ : _ ∧ events = s.tree.eventsOf r label s.beyond 0 :=
    eventsOf_of_serves served
  have label_eq {k : ℕ} (hk : k < made.size) : label k = made[k] := by
    simp [label, hk]
  have outside : r.Outside events := by
    have own {l : Label} (mem : .bind l ∈ events) : l ∈ made := by
      rw [program] at mem
      obtain ⟨k, -, high, rfl⟩ := SplitTree.label_of_bind_mem mem
      rw [Nat.zero_add, ← made_size] at high
      rw [label_eq high]
      exact Array.getElem_mem high
    refine ⟨fun mem => (apart _ (own mem)).1 rfl, fun i mem => ?_⟩
    obtain target | default := r.targetOf_mem i
    · exact (apart _ (own mem)).2 target
    · exact (apart _ (own mem)).1 default
  have unused : SplitTree.Unused label 0 made.size [] := by
    refine ⟨fun {j k} hj hk same => ?_, fun _ _ => List.not_mem_nil⟩
    rw [label_eq hj, label_eq hk] at same
    exact distinct.getElem_inj_iff.1 same
  have whole : events = [] ++ s.tree.eventsOf r label s.beyond 0 ++ [] := by simpa using program
  exact ⟨s.tree.stands_eventsOf 0 unused (by omega) whole, outside⟩

namespace Over

theorem getElem?_of_mem_order (h : s.Over keys kind) {i : ℕ} (mem : i ∈ s.order) :
    ∃ k, keys[i]? = some k ∧ k.kind = kind := by
  have inside : i < keys.length := List.mem_range.1 (h.order_perm.mem_iff.1 mem)
  exact ⟨keys[i], List.getElem?_eq_getElem inside, h.kind_eq _ (List.getElem_mem inside)⟩

/-- The comparisons of a search are those of what it reads of the value with ascending numbers. -/
theorem ascends (h : s.Over keys kind) (width : Width) (v : BitVec 64) :
    Ascends (Key.comparesAt keys.toArray width v) s.beyond
      (fun i => (keys[i]?.map Key.ordinal).getD 0) (kind.reading width v) s.order where
  ascending := by
    refine h.pairwise_order.imp_of_mem fun {i j} hi hj ordered => ?_
    obtain ⟨a, ha, -⟩ := h.getElem?_of_mem_order hi
    obtain ⟨b, hb, -⟩ := h.getElem?_of_mem_order hj
    simpa [ha, hb] using ordered a ha b hb
  equal_iff i hi := by
    obtain ⟨k, found, rfl⟩ := h.getElem?_of_mem_order hi
    rw [Key.comparesAt_eq found, Key.compares_equal_iff, found]
    rfl
  beyond_iff i hi := by
    obtain ⟨k, found, rfl⟩ := h.getElem?_of_mem_order hi
    rw [Key.comparesAt_eq found, h.beyond_eq, Key.compares_beyond_iff, found]
    rfl

/-- A value that equals a key belongs to the target of this key. -/
theorem destination_eq (h : s.Over keys kind) {width : Width} {v : BitVec 64} {index : ℕ} {k : Key}
    (found : keys[index]? = some k) (equal : k.compares width .equal v) :
    r.destination (Key.comparesAt keys.toArray width v · .equal) s.order = r.targetOf index := by
  have inside := (List.getElem?_eq_some_iff.1 found).1
  refine Routes.destination_eq_targetOf ?_ (by rwa [Key.comparesAt_eq found]) ?_
  · exact h.order_perm.mem_iff.2 (List.mem_range.2 inside)
  · intro i hi matched
    obtain ⟨j, hj, kinds⟩ := h.getElem?_of_mem_order hi
    rw [Key.comparesAt_eq hj] at matched
    have same : j = k := Key.eq_of_compares_equal
      (by rw [kinds, h.kind_eq k (List.mem_of_getElem? found)]) matched equal
    rw [same, ← found] at hj
    exact (List.getElem?_inj (h.order_perm.mem_iff.1 hi |> List.mem_range.1) h.distinct).1 hj

theorem destination_eq_default (h : s.Over keys kind) {width : Width} {v : BitVec 64}
    (differs : ∀ k ∈ keys, ¬k.compares width .equal v) :
    r.destination (Key.comparesAt keys.toArray width v · .equal) s.order = r.default := by
  refine Routes.destination_eq_default fun i hi => ?_
  obtain ⟨k, found, -⟩ := h.getElem?_of_mem_order hi
  rw [Key.comparesAt_eq found]
  exact differs k (List.mem_of_getElem? found)

/-- A search with a target for each key is served by a sink that refuses nothing. -/
theorem serves_of_obliging (h : s.Over keys kind) (sizes : r.targets.size = keys.length) {σ : Type}
    {sink : Sink σ} (obliging : sink.Obliging) (x : σ) :
    ∃ events made y, sink.Serves r s.requests #[] x events made y := by
  have inside : ∀ i ∈ s.tree.indices, i < r.targets.size := by
    rw [sizes]
    exact fun i hi => List.mem_range.1 (h.order_perm.mem_iff.1 hi)
  obtain ⟨events, made, y, served, -⟩ := obliging.complies.serves_tree (x := x) s.beyond s.tree
    inside (fun _ _ => trivial) [] #[] trivial
  exact ⟨events, made, y, served⟩

/-- The calls of a search lead a value to its destination. -/
theorem ends_of_serves (h : s.Over keys kind) {σ : Type} {sink : Sink σ} {x y : σ}
    {events : List Event} {made : Array Label}
    (served : sink.Serves r s.requests #[] x events made y) (distinct : made.toList.Nodup)
    (apart : ∀ l ∈ made, l ≠ r.default ∧ l ∉ r.targets) (width : Width) (v : BitVec 64) :
    Program.Ends events (Key.comparesAt keys.toArray width v) 0
      (.through (r.destination (Key.comparesAt keys.toArray width v · .equal) s.order)) := by
  obtain ⟨stands, outside⟩ := stands_of_serves served distinct apart
  exact stands.ends h.pivoted (h.ascends width v) outside

end Over

/-- The events lead each value to the target of the key that it equals, and to the default target if
it equals none. -/
def LeadsToEqualKey (keys : List Key) (r : Routes) (events : List Event) : Prop :=
  ∀ (width : Width) (v : BitVec 64),
    (∀ i k, keys[i]? = some k → k.compares width .equal v →
      Program.Ends events (Key.comparesAt keys.toArray width v) 0 (.through (r.targetOf i))) ∧
    ((∀ k ∈ keys, ¬k.compares width .equal v) →
      Program.Ends events (Key.comparesAt keys.toArray width v) 0 (.through r.default))

/-- A search tests keys in strictly ascending order and depends on nothing behind it. A sink that
refuses nothing runs it to its end, and each such run is one that serves its requests: it performs
events and makes labels. Where every label is a new one, the events lead each value to the key that
it equals. -/
theorem leads_to_equal_key (accepted : ofKeys keys = .ok s) :
    s.keys = keys.toArray ∧ s.order.Perm (List.range keys.length) ∧
    (s.order.Pairwise fun i j => ∀ a ∈ keys[i]?, ∀ b ∈ keys[j]?, a.ordinal < b.ordinal) ∧
    (∀ q ∈ s.requests, ¬q.asksSuccessor) ∧
    ∀ r : Routes, r.targets.size = keys.length → ∀ {σ : Type} (sink : Sink σ),
      (∀ successor, sink.run { r with successor } s.requests = sink.run r s.requests) ∧
      (sink.Obliging → ∀ x, ∃ y, sink.run r s.requests x = .ok () y) ∧
      ∀ {x y : σ},
        (sink.run r s.requests x = .ok () y ↔
          ∃ events made, sink.Serves r s.requests #[] x events made y) ∧
        ∀ {events : List Event} {made : Array Label},
          sink.Serves r s.requests #[] x events made y →
          made.toList.Nodup → (∀ l ∈ made, l ≠ r.default ∧ l ∉ r.targets) →
          LeadsToEqualKey keys r events := by
  obtain ⟨-, kind, searched⟩ := ofKeys_eq_ok_iff.1 accepted
  have unasked : ∀ q ∈ s.requests, ¬q.asksSuccessor := s.tree.not_asksSuccessor _ _
  refine ⟨searched.keys_eq, searched.order_perm, searched.pairwise_order, unasked, ?_⟩
  intro r sizes σ sink
  refine ⟨fun successor => sink.run_successor r successor unasked, ?_, ?_⟩
  · intro obliging x
    obtain ⟨events, made, y, served⟩ := searched.serves_of_obliging sizes obliging x
    exact ⟨y, Sink.run_eq_ok_iff.2 ⟨events, made, served⟩⟩
  · refine fun {x y} => ⟨Sink.run_eq_ok_iff, ?_⟩
    intro events made served distinct apart width v
    have ends := searched.ends_of_serves served distinct apart width v
    constructor
    · intro i k found equal
      rwa [searched.destination_eq found equal] at ends
    · intro differs
      rwa [searched.destination_eq_default differs] at ends

/-- Four keys take one split, which orders them as signed numbers. A transcript of the search shows
the events that lead each value to its key. -/
theorem leads_to_equal_key_of_four :
    let keys : List Key := [.immediate 7, .immediate (-3), .immediate 40, .immediate 12]
    let s : Bisection := ⟨keys.toArray, .split 0 (.leaf [1] 0) (.leaf [3] 2), .greater⟩
    let r : Routes := ⟨#[⟨0⟩, ⟨1⟩, ⟨2⟩, ⟨3⟩], ⟨4⟩, none⟩
    let events : List Event := [.test 0 .greater ⟨5⟩, .test 1 .equal ⟨1⟩, .test 0 .equal ⟨0⟩,
      .jump ⟨4⟩, .bind ⟨5⟩, .test 3 .equal ⟨3⟩, .test 2 .equal ⟨2⟩, .jump ⟨4⟩]
    let sink := Transcript.sink none .noKeys
    ofKeys keys = .ok s ∧ (∀ x, ∃ y, sink.run r s.requests x = .ok () y) ∧
      sink.run r s.requests { nextLabel := 5 } = .ok () ⟨events.toArray, 6⟩ ∧
      Program.Ends events (Key.comparesAt keys.toArray .word 0xFFFFFFFD#64) 0 (.through ⟨1⟩) ∧
      Program.Ends events (Key.comparesAt keys.toArray .word 8#64) 0 (.through ⟨4⟩) := by
  intro keys s r events sink
  have order : byOrdinal keys = [1, 0, 3, 2] := by
    simp [keys, byOrdinal, List.mergeSort, List.MergeSort.Internal.splitInTwo, Key.ordinal]
  have accepted : ofKeys keys = .ok s :=
    ofKeys_of_four .immediate (by simp [keys]) (by simp [keys, Key.kind]) order
  have requests : s.requests = [.makeLabel, .test 0 .greater (.fresh 0), .testToTarget 1 .equal,
      .testOrDefault 0 .equal false, .bind (.fresh 0), .testToTarget 3 .equal,
      .testOrDefault 2 .equal false] := rfl
  have served : sink.Serves r s.requests #[] { nextLabel := 5 }
      ([.test 0 .greater ⟨5⟩] ++ ([.test 1 .equal ⟨1⟩] ++ ([.test 0 .equal ⟨0⟩, .jump ⟨4⟩] ++
        ([.bind ⟨5⟩] ++ ([.test 3 .equal ⟨3⟩] ++ ([.test 2 .equal ⟨2⟩, .jump ⟨4⟩] ++ []))))))
      #[⟨5⟩] ⟨events.toArray, 6⟩ := by
    rw [requests]
    exact .make rfl (.perform (by decide) rfl rfl (.perform (by decide) rfl rfl
      (.perform (by decide) rfl rfl (.perform (by decide) rfl rfl
        (.perform (by decide) rfl rfl (.perform (by decide) rfl rfl .done))))))
  obtain ⟨-, succeeds, answers⟩ := (leads_to_equal_key accepted).2.2.2.2 r rfl sink
  obtain ⟨ran, leads⟩ := answers (x := { nextLabel := 5 }) (y := ⟨events.toArray, 6⟩)
  have leads := leads served (by decide) (by simp [r]) .word
  exact ⟨accepted, succeeds (Transcript.obliging_sink .noKeys), ran.2 ⟨_, _, served⟩,
    (leads 0xFFFFFFFD#64).1 1 (.immediate (-3)) rfl (by decide), (leads 8#64).2 (by decide)⟩

end Bisection

end Multiway
