import Multiway.Proofs.Search.Binding
import Mathlib.Algebra.Group.Nat.Defs

/-!
# Balance of a search

A search tests each of its keys for equality once, whatever order the tree has. Each label that it
makes is for one comparison of the other kind, which leads over the lower half to the place where
the label is bound. The upper half is no longer than the lower one, so control meets one comparison
for each time that the keys are halved, and at most three more.
-/
namespace Multiway

namespace Event

/-- The index of the key that a value is tested to equal. -/
def sought? : Event → Option ℕ
  | test index condition _ => if condition = .equal then some index else none
  | _ => none

/-- The label for values that stand in an order to a key. -/
def ordered? : Event → Option Label
  | test _ condition l => if condition = .equal then none else some l
  | _ => none

/-- The label for all values. -/
def jumped? : Event → Option Label
  | jump l => some l
  | _ => none

def comparisons : Event → ℕ
  | test .. => 1
  | _ => 0

end Event

/-- Equality tests that may not fall through end with a jump to the default target. -/
theorem Routes.testsInOrder_eq (r : Routes) (rest : List ℕ) (last : ℕ) :
    r.testsInOrder rest last false =
      (rest ++ [last]).map (fun index => .test index .equal (r.targetOf index)) ++
        [.jump r.default] := by
  simp [testsInOrder, decisionEvents]

/-! ## Comparisons on the way -/

namespace Program

/-- The number of comparisons that control meets in a number of steps from the `n`th event on. -/
def met (events : List Event) (holds : ℕ → Condition → Bool) : ℕ → ℕ → ℕ
  | 0, _ => 0
  | steps + 1, n => events[n]?.elim 0 Event.comparisons +
    match step events holds n with
    | .ok n' => met events holds steps n'
    | .error _ => 0

/-- From the `n`th event on control meets no more comparisons than this, however far it goes. -/
def Meets (events : List Event) (holds : ℕ → Condition → Bool) (n c : ℕ) : Prop :=
  ∀ steps, met events holds steps n ≤ c

variable {events before after : List Event} {holds : ℕ → Condition → Bool} {r : Routes} {n c d : ℕ}

theorem Meets.mono (h : Meets events holds n c) (le : c ≤ d) : Meets events holds n d :=
  fun steps => (h steps).trans le

/-- An event adds its own comparisons to those that control meets after it. -/
theorem meets_of_step {v : Event} (here : events[n]? = some v)
    (next : ∀ n', step events holds n = .ok n' → Meets events holds n' c) :
    Meets events holds n (v.comparisons + c) := by
  intro steps
  cases steps with
  | zero => exact Nat.zero_le _
  | succ steps =>
    rw [met, here]
    refine Nat.add_le_add_left ?_ _
    cases taken : step events holds n with
    | ok n' => exact next n' taken steps
    | error d => exact Nat.zero_le _

/-- Equality tests in order lead away at the latest with the jump behind them. -/
theorem meets_tests {xs : List ℕ}
    (program : events = before ++
      xs.map (fun index => .test index .equal (r.targetOf index)) ++ .jump r.default :: after)
    (outside : r.Outside events) : Meets events holds before.length xs.length := by
  induction xs generalizing before with
  | nil =>
    have here : events[before.length]? = some (.jump r.default) := by
      rw [program]
      simp
    refine (meets_of_step (c := 0) here fun n' taken => ?_).mono le_rfl
    rw [step, here] at taken
    simp only [goto_eq_error outside.1] at taken
    contradiction
  | cons index xs ih =>
    have here : events[before.length]? = some (.test index .equal (r.targetOf index)) := by
      rw [program]
      simp
    refine (meets_of_step (c := xs.length) here fun n' taken => ?_).mono (Nat.add_comm _ _).le
    rw [step_of_test here, goto_eq_error (outside.2 index)] at taken
    split_ifs at taken
    cases taken
    have rest : Meets events holds
        (before ++ [Event.test index .equal (r.targetOf index)]).length xs.length :=
      ih (by rw [program]; simp)
    rwa [List.length_append, List.length_singleton] at rest

end Program

namespace SplitTree

/-- The greatest number of comparisons between the top of a tree and its bottom. -/
def depth : SplitTree → ℕ
  | leaf rest _ => rest.length + 1
  | split _ lower upper => 1 + max lower.depth upper.depth

variable {r : Routes} {label : ℕ → Label} {beyond : Condition}

/-- Control meets no more comparisons than the tree is deep. -/
theorem Stands.meets {events : List Event} {t : SplitTree} {n : ℕ}
    (stands : t.Stands r beyond events n) (outside : r.Outside events)
    (holds : ℕ → Condition → Bool) : Program.Meets events holds n t.depth := by
  induction stands with
  | @leaf rest last before after program =>
    have tests : events = before ++
        (rest ++ [last]).map (fun index => .test index .equal (r.targetOf index)) ++
          .jump r.default :: after := by
      rw [program, Routes.testsInOrder_eq]
      simp
    have meets : Program.Meets events holds before.length (rest ++ [last]).length :=
      Program.meets_tests tests outside
    rwa [List.length_append, List.length_singleton] at meets
  | @split pivot n mark lower upper l tested goes marked _ _ ihLower ihUpper =>
    refine Program.meets_of_step tested fun n' taken => ?_
    rw [Program.step_of_test tested, goes] at taken
    split_ifs at taken
    · -- the mark of the upper half lies on the way to it, and is no comparison
      cases taken
      have upperMeets : Program.Meets events holds mark (0 + upper.depth) := by
        refine Program.meets_of_step marked fun n' taken => ?_
        rw [Program.step_of_bind marked] at taken
        cases taken
        exact ihUpper
      rw [Nat.zero_add] at upperMeets
      exact upperMeets.mono (Nat.le_max_right _ _)
    · cases taken
      exact ihLower.mono (Nat.le_max_left _ _)

/-- Halving leaves three keys at most, after as many times as three can be doubled. -/
theorem depth_ofSorted_le (xs : List ℕ) (h : xs ≠ []) :
    ∀ k, xs.length ≤ 3 * 2 ^ k → (ofSorted xs h).depth ≤ k + 3 := by
  fun_induction ofSorted xs h with
  | case1 xs h leaf =>
    intro k _
    have left : xs.dropLast.length + 1 ≤ leafSize := by
      have positive := List.length_pos_iff.2 h
      rw [List.length_dropLast]
      omega
    exact left.trans (Nat.le_add_left 3 k)
  | case2 xs h large half lower_ne_nil upper_ne_nil lower upper =>
    intro k small
    cases k with
    | zero => exact absurd small large
    | succ k =>
      -- the lower half gets the extra key, and still is no longer than half of the bound
      have halved : half ≤ 3 * 2 ^ k ∧ xs.length ≤ half + 3 * 2 ^ k := by
        rw [Nat.pow_succ] at small
        simp only [leafSize] at large
        omega
      have lowerDepth := lower k (by rw [List.length_take]; omega)
      have upperDepth := upper k (by rw [List.length_drop]; omega)
      rw [depth]
      omega

/-! ## What the calls of a tree ask -/

section

variable {α : Type} (f : Event → Option α)

theorem filterMap_eventsOf_leaf (rest : List ℕ) (last n : ℕ) :
    ((leaf rest last).eventsOf r label beyond n).filterMap f =
      (rest ++ [last]).filterMap (fun index => f (.test index .equal (r.targetOf index))) ++
        (f (.jump r.default)).toList := by
  rw [eventsOf_leaf, r.testsInOrder_eq, List.filterMap_append, List.filterMap_map]
  cases jumped : f (.jump r.default) <;> simp [jumped]

theorem filterMap_eventsOf_split (pivot : ℕ) (lower upper : SplitTree) (n : ℕ) :
    ((split pivot lower upper).eventsOf r label beyond n).filterMap f =
      (f (.test pivot beyond (label n))).toList ++
        (lower.eventsOf r label beyond (n + 1)).filterMap f ++ (f (.bind (label n))).toList ++
        (upper.eventsOf r label beyond (n + 1 + lower.splits)).filterMap f := by
  have single (v : Event) : [v].filterMap f = (f v).toList := by
    cases asked : f v <;> simp [asked]
  rw [eventsOf_split, List.filterMap_append, List.filterMap_append, List.filterMap_append, single,
    single]

end

theorem filterMap_sought?_eventsOf (ordering : beyond ≠ .equal) (t : SplitTree) (n : ℕ) :
    (t.eventsOf r label beyond n).filterMap Event.sought? = t.indices := by
  induction t generalizing n with
  | leaf rest last =>
    rw [filterMap_eventsOf_leaf]
    simp [Event.sought?, indices]
  | split pivot lower upper ihLower ihUpper =>
    rw [filterMap_eventsOf_split, ihLower, ihUpper]
    simp [Event.sought?, ordering, indices]

theorem filterMap_ordered?_eventsOf (ordering : beyond ≠ .equal) (t : SplitTree) (n : ℕ) :
    (t.eventsOf r label beyond n).filterMap Event.ordered? =
      (List.range' n t.splits).map label := by
  induction t generalizing n with
  | leaf rest last =>
    rw [filterMap_eventsOf_leaf]
    simp [Event.ordered?, splits]
  | split pivot lower upper ihLower ihUpper =>
    have count : (split pivot lower upper).splits = 1 + lower.splits + upper.splits := by
      rw [splits]
      omega
    rw [filterMap_eventsOf_split, ihLower, ihUpper, count, ← List.range'_append_1,
      ← List.range'_append_1]
    simp [Event.ordered?, ordering, Nat.add_assoc]

theorem filterMap_jumped?_eventsOf (t : SplitTree) (n : ℕ) :
    (t.eventsOf r label beyond n).filterMap Event.jumped? =
      List.replicate (t.splits + 1) r.default := by
  induction t generalizing n with
  | leaf rest last =>
    rw [filterMap_eventsOf_leaf]
    simp [Event.jumped?, splits]
  | split pivot lower upper ihLower ihUpper =>
    have count : (split pivot lower upper).splits + 1 =
        (lower.splits + 1) + (upper.splits + 1) := by
      rw [splits]
      omega
    rw [filterMap_eventsOf_split, ihLower, ihUpper, count]
    simp only [Event.jumped?, Option.toList_none, List.nil_append, List.append_nil]
    exact List.replicate_append_replicate

/-- Each label is tested for before it is bound. -/
theorem exists_test_before_bind (t : SplitTree) {n k : ℕ} (low : n ≤ k) (high : k < n + t.splits) :
    ∃ pivot us vs ws, t.eventsOf r label beyond n =
      us ++ [.test pivot beyond (label k)] ++ vs ++ [.bind (label k)] ++ ws := by
  induction t generalizing n with
  | leaf rest last => exact absurd high (Nat.not_lt.2 low)
  | split pivot lower upper ihLower ihUpper =>
    rw [splits] at high
    rw [eventsOf_split]
    obtain rfl | inLower | inUpper : n = k ∨ n + 1 ≤ k ∧ k < n + 1 + lower.splits ∨
        n + 1 + lower.splits ≤ k := by omega
    · exact ⟨pivot, [], _, _, rfl⟩
    · obtain ⟨i, us, vs, ws, same⟩ := ihLower inLower.1 inLower.2
      refine ⟨i, [.test pivot beyond (label n)] ++ us, vs, ws ++ [.bind (label n)] ++
        upper.eventsOf r label beyond (n + 1 + lower.splits), ?_⟩
      simp only [same, List.append_assoc]
    · obtain ⟨i, us, vs, ws, same⟩ := ihUpper inUpper (by omega)
      refine ⟨i, [.test pivot beyond (label n)] ++ lower.eventsOf r label beyond (n + 1) ++
        [.bind (label n)] ++ us, vs, ws, ?_⟩
      simp only [same, List.append_assoc]

theorem eq_targetOf_of_test_mem (ordering : beyond ≠ .equal) {t : SplitTree} {n i : ℕ} {l : Label}
    (mem : .test i .equal l ∈ t.eventsOf r label beyond n) : l = r.targetOf i := by
  induction t generalizing n with
  | leaf rest last =>
    rw [eventsOf_leaf, r.testsInOrder_eq, List.mem_append, List.mem_map] at mem
    obtain ⟨j, -, same⟩ | jump := mem
    · cases same
      rfl
    · simp at jump
  | split pivot lower upper ihLower ihUpper =>
    rw [eventsOf_split] at mem
    simp only [List.mem_append, List.mem_singleton, Event.test.injEq, reduceCtorEq, or_false,
      Ne.symm ordering, false_and, and_false, false_or] at mem
    obtain inLower | inUpper := mem
    · exact ihLower inLower
    · exact ihUpper inUpper

end SplitTree

/-! ## What the calls of a search ask -/

namespace Bisection

variable {keys : List Key} {s : Bisection} {kind : KeyKind} {r : Routes}

/-- What a search asks for, where `made` are the labels that it has been given. -/
structure Complete (keys : List Key) (s : Bisection) (r : Routes) (made : Array Label)
    (events : List Event) : Prop where
  /-- Each key is tested for equality once. -/
  sought : (events.filterMap Event.sought?).Perm (List.range keys.length)
  /-- A value that equals a key goes to the target of this key. -/
  found : ∀ {i : ℕ} {l : Label}, .test i .equal l ∈ events → l = r.targetOf i
  created : s.requests.count .makeLabel = made.size
  /-- Each label is for one comparison of the other kind, in the order in which they are made. -/
  ordered : events.filterMap Event.ordered? = made.toList
  bound : (boundBy events).Perm made.toList
  later : ∀ l ∈ made, ∃ pivot us vs ws,
    events = us ++ [.test pivot s.beyond l] ++ vs ++ [.bind l] ++ ws
  jumps : events.filterMap Event.jumped? = List.replicate (made.size + 1) r.default

namespace Over

theorem beyond_ne_equal (h : s.Over keys kind) : s.beyond ≠ .equal := by
  rw [h.beyond_eq]
  cases kind <;> decide

theorem complete_of_serves (h : s.Over keys kind) {σ : Type} {sink : Sink σ} {x y : σ}
    {events : List Event} {made : Array Label}
    (served : sink.Serves r s.requests #[] x events made y) : s.Complete keys r made events := by
  obtain ⟨size, program⟩ := eventsOf_of_serves served
  have labels := map_range'_getD made r.default
  rw [size] at labels
  have ordering := h.beyond_ne_equal
  refine ⟨?_, fun mem => ?_, ?_, ?_, ?_, fun l mem => ?_, ?_⟩
  · rw [program, SplitTree.filterMap_sought?_eventsOf ordering]
    exact h.order_perm
  · rw [program] at mem
    exact SplitTree.eq_targetOf_of_test_mem ordering mem
  · exact (SplitTree.count_requests _ _ _).trans size.symm
  · rw [program, SplitTree.filterMap_ordered?_eventsOf ordering, labels]
  · rw [program, ← labels]
    exact s.tree.boundBy_eventsOf 0
  · obtain ⟨k, inside, rfl⟩ := Array.mem_iff_getElem.1 mem
    have high : k < 0 + s.tree.splits := by omega
    have here : made[k]?.getD r.default = made[k] := by
      rw [Array.getElem?_eq_getElem inside, Option.getD_some]
    rw [program, ← here]
    exact s.tree.exists_test_before_bind (Nat.zero_le k) high
  · rw [program, size]
    exact s.tree.filterMap_jumped?_eventsOf 0

/-- The tree of a search is as deep as the number of keys makes it. -/
theorem depth_le (h : s.Over keys kind) {k : ℕ} (small : keys.length ≤ 3 * 2 ^ k) :
    s.tree.depth ≤ k + 3 := by
  obtain ⟨nonempty, tree⟩ := h.tree_eq
  have length : (byOrdinal keys).length = keys.length := by
    rw [(byOrdinal_perm keys).length_eq, List.length_range]
  rw [tree]
  exact SplitTree.depth_ofSorted_le _ nonempty k (by rwa [length])

end Over

/-- A search over accepted keys asks for what it needs and for nothing twice, in each run that gets
to its end. Where a sink makes new labels, each value gets to its destination. On its way it meets
at most three comparisons, and one more for each time that three keys have to be doubled to be as
many as those of the search. -/
theorem complete_and_balanced (accepted : ofKeys keys = .ok s) (r : Routes) {σ : Type}
    (sink : Sink σ) :
    (r.targets.size = keys.length → sink.Obliging → ∀ x, ∃ events made y,
      sink.run r s.requests x = .ok () y ∧ sink.Serves r s.requests #[] x events made y) ∧
    ∀ {x y : σ},
      (sink.run r s.requests x = .ok () y ↔
        ∃ events made, sink.Serves r s.requests #[] x events made y) ∧
      ∀ {events : List Event} {made : Array Label},
        sink.Serves r s.requests #[] x events made y →
        made.toList.Nodup → (∀ l ∈ made, l ≠ r.default ∧ l ∉ r.targets) →
        s.Complete keys r made events ∧
          ∀ k, keys.length ≤ 3 * 2 ^ k → ∀ (width : Width) (v : BitVec 64),
            let holds := Key.comparesAt keys.toArray width v
            Program.Ends events holds 0 (.through (r.destination (holds · .equal) s.order)) ∧
              Program.Meets events holds 0 (k + 3) := by
  obtain ⟨-, kind, searched⟩ := ofKeys_eq_ok_iff.1 accepted
  constructor
  · intro sizes obliging x
    obtain ⟨events, made, y, served⟩ := searched.serves_of_obliging sizes obliging x
    exact ⟨events, made, y, Sink.run_eq_ok_iff.2 ⟨events, made, served⟩, served⟩
  · refine fun {x y} => ⟨Sink.run_eq_ok_iff, ?_⟩
    intro events made served distinct apart
    refine ⟨searched.complete_of_serves served, fun k small width v => ?_⟩
    obtain ⟨stands, outside⟩ := stands_of_serves served distinct apart
    exact ⟨searched.ends_of_serves served distinct apart width v,
      (stands.meets outside _).mono (searched.depth_le small)⟩

/-- Four keys take one split, and no value meets more than four comparisons. -/
theorem complete_and_balanced_of_four :
    let keys : List Key := [.word 1, .word 2, .word 0x80000000, .word 0xFFFFFFFF]
    let s : Bisection := ⟨keys.toArray, .split 1 (.leaf [0] 1) (.leaf [2] 3), .above⟩
    let r : Routes := ⟨#[⟨0⟩, ⟨1⟩, ⟨2⟩, ⟨3⟩], ⟨4⟩, none⟩
    let events : List Event := [.test 1 .above ⟨5⟩, .test 0 .equal ⟨0⟩, .test 1 .equal ⟨1⟩,
      .jump ⟨4⟩, .bind ⟨5⟩, .test 2 .equal ⟨2⟩, .test 3 .equal ⟨3⟩, .jump ⟨4⟩]
    let sink := Transcript.sink none .noKeys
    ofKeys keys = .ok s ∧
      sink.run r s.requests { nextLabel := 5 } = .ok () ⟨events.toArray, 6⟩ ∧
      s.Complete keys r #[⟨5⟩] events ∧
      Program.Meets events (Key.comparesAt keys.toArray .word 3#64) 0 4 := by
  intro keys s r events sink
  have order : byOrdinal keys = [0, 1, 2, 3] := by
    simp [keys, byOrdinal, List.mergeSort, List.MergeSort.Internal.splitInTwo, Key.ordinal]
  have accepted : ofKeys keys = .ok s :=
    ofKeys_of_four .word (by simp [keys]) (by simp [keys, Key.kind]) order
  have requests : s.requests = [.makeLabel, .test 1 .above (.fresh 0), .testToTarget 0 .equal,
      .testOrDefault 1 .equal false, .bind (.fresh 0), .testToTarget 2 .equal,
      .testOrDefault 3 .equal false] := rfl
  have served : sink.Serves r s.requests #[] { nextLabel := 5 }
      ([.test 1 .above ⟨5⟩] ++ ([.test 0 .equal ⟨0⟩] ++ ([.test 1 .equal ⟨1⟩, .jump ⟨4⟩] ++
        ([.bind ⟨5⟩] ++ ([.test 2 .equal ⟨2⟩] ++ ([.test 3 .equal ⟨3⟩, .jump ⟨4⟩] ++ []))))))
      #[⟨5⟩] ⟨events.toArray, 6⟩ := by
    rw [requests]
    exact .make rfl (.perform (by decide) rfl rfl (.perform (by decide) rfl rfl
      (.perform (by decide) rfl rfl (.perform (by decide) rfl rfl
        (.perform (by decide) rfl rfl (.perform (by decide) rfl rfl .done))))))
  obtain ⟨ran, asks⟩ := (complete_and_balanced accepted r sink).2
  obtain ⟨complete, balanced⟩ := asks served (by decide) (by simp [r])
  exact ⟨accepted, ran.2 ⟨_, _, served⟩, complete, (balanced 1 (by decide) .word 3#64).2⟩

end Bisection

end Multiway
