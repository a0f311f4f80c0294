import Multiway.Proofs.Search.Events
import Mathlib.Data.List.Basic
import Mathlib.Data.List.Nodup

/-!
# Uses of labels

What events do with labels is to test a value for them and to bind them. A search makes labels of
its own, each of which it binds once and tests for only before that. All other labels that it names
are those of the routes.
-/
namespace Multiway

/-- What is done with a label, as far as branch distances are concerned. -/
inductive Use where
  | test (l : Label)
  | bind (l : Label)
  | none
  deriving DecidableEq

namespace Use

def bound? : Use → Option Label
  | bind l => some l
  | _ => .none

def bound (us : List Use) : List Label := us.filterMap bound?

@[simp] theorem bound_append (us vs : List Use) : bound (us ++ vs) = bound us ++ bound vs :=
  List.filterMap_append

theorem mem_bound {us : List Use} {l : Label} : l ∈ bound us ↔ .bind l ∈ us := by
  rw [bound, List.mem_filterMap]
  constructor
  · rintro ⟨u, mem, eq⟩
    cases u <;> simp_all [bound?]
  · exact fun mem => ⟨.bind l, mem, rfl⟩

/-- No label is tested for after it is bound. -/
def Ordered (us : List Use) : Prop := us.Pairwise fun u v => ∀ l, u = .bind l → v ≠ .test l

/-- Among the labels from `a` on and below `b`, some are bound, once each, and tested for only
before that. All other labels that are tested for lie below `callers`. -/
structure Local (callers a b : ℕ) (us : List Use) : Prop where
  le : a ≤ b
  nodup : (bound us).Nodup
  range : ∀ {l : Label}, .bind l ∈ us → a ≤ l.index ∧ l.index < b
  targets : ∀ {l : Label}, .test l ∈ us → l.index < callers ∨ a ≤ l.index ∧ l.index < b
  ordered : Ordered us

namespace Local

variable {callers a b d : ℕ} {us vs : List Use}

theorem append (first : Local callers a b us) (rest : Local callers b d vs) (h : callers ≤ a) :
    Local callers a d (us ++ vs) where
  le := Nat.le_trans first.le rest.le
  nodup := by
    rw [bound_append, List.nodup_append]
    refine ⟨first.nodup, rest.nodup, ?_⟩
    rintro l hl l' hl' rfl
    have := first.range (mem_bound.1 hl)
    have := rest.range (mem_bound.1 hl')
    omega
  range hl := by
    have := first.le
    have := rest.le
    obtain hl | hl := List.mem_append.1 hl
    · have := first.range hl
      omega
    · have := rest.range hl
      omega
  targets hl := by
    have := first.le
    have := rest.le
    obtain hl | hl := List.mem_append.1 hl
    · have := first.targets hl
      omega
    · have := rest.targets hl
      omega
  ordered := by
    rw [Ordered, List.pairwise_append]
    refine ⟨first.ordered, rest.ordered, ?_⟩
    rintro u hu v hv l rfl rfl
    have := first.range hu
    have := rest.targets hv
    omega

/-- Uses that bind nothing. -/
theorem of_tests (h : ∀ u ∈ us, u = .none ∨ ∃ l : Label, u = .test l ∧ l.index < callers) :
    Local callers a a us where
  le := Nat.le_refl a
  nodup := by
    have none : bound us = [] := List.filterMap_eq_nil_iff.2 fun u hu => by
      obtain rfl | ⟨l, rfl, -⟩ := h u hu <;> rfl
    rw [none]
    exact List.nodup_nil
  range hl := by
    obtain eq | ⟨l', eq, -⟩ := h _ hl <;> contradiction
  targets hl := by
    obtain eq | ⟨l', eq, known⟩ := h _ hl
    · contradiction
    · cases eq
      exact Or.inl known
  ordered := by
    apply List.pairwise_of_forall_mem_list
    rintro u hu v - l rfl
    obtain eq | ⟨l', eq, -⟩ := h _ hu <;> contradiction

/-- A label is tested for, and bound after some uses of other labels. -/
theorem enclose (h : Local callers (a + 1) b us) :
    Local callers a b (.test ⟨a⟩ :: (us ++ [.bind ⟨a⟩])) where
  le := by
    have := h.le
    omega
  nodup := by
    have new : (⟨a⟩ : Label) ∉ bound us := fun mem => by
      have := (h.range (mem_bound.1 mem)).1
      simp only at this
      omega
    have all : bound (.test ⟨a⟩ :: (us ++ [.bind ⟨a⟩])) = bound us ++ [⟨a⟩] := by
      simp [bound, bound?, List.filterMap_cons, List.filterMap_append]
    rw [all, List.nodup_append]
    refine ⟨h.nodup, List.nodup_singleton _, ?_⟩
    rintro l hl l' hl' rfl
    rw [List.mem_singleton] at hl'
    exact new (hl' ▸ hl)
  range hl := by
    have := h.le
    simp only [List.mem_cons, List.mem_append, reduceCtorEq, Use.bind.injEq, false_or,
      List.not_mem_nil, or_false] at hl
    obtain hl | rfl := hl
    · have := h.range hl
      omega
    · simp only
      omega
  targets hl := by
    have := h.le
    simp only [List.mem_cons, List.mem_append, reduceCtorEq, Use.test.injEq, List.not_mem_nil,
      or_false] at hl
    obtain rfl | hl := hl
    · simp only
      omega
    · have := h.targets hl
      omega
  ordered := by
    refine List.pairwise_cons.2 ⟨fun v _ l eq => by contradiction, ?_⟩
    rw [List.pairwise_append]
    refine ⟨h.ordered, List.pairwise_singleton _ _, ?_⟩
    intro u _ v hv l _ eq
    rw [List.mem_singleton] at hv
    simp [hv] at eq

end Local

end Use

def Event.use : Event → Use
  | test _ _ l => .test l
  | bind l => .bind l
  | jump _ => .none

namespace Routes

variable {r : Routes} {callers : ℕ}

/-- All labels of the routes lie below a number. -/
def Below (r : Routes) (callers : ℕ) : Prop :=
  r.default.index < callers ∧ ∀ l ∈ r.targets, l.index < callers

instance {r : Routes} {callers : ℕ} : Decidable (r.Below callers) :=
  inferInstanceAs (Decidable (_ ∧ _))

theorem Below.targetOf (h : r.Below callers) (index : ℕ) :
    (r.targetOf index).index < callers := by
  unfold Routes.targetOf
  by_cases inside : index < r.targets.size
  · simp [Array.getD, inside, h.2]
  · simp [Array.getD, inside, h.1]

theorem Below.testsInOrder (h : r.Below callers) (a : ℕ) (rest : List ℕ) (last : ℕ)
    (mayFallThrough : Bool) :
    Use.Local callers a a ((r.testsInOrder rest last mayFallThrough).map Event.use) := by
  apply Use.Local.of_tests
  intro u hu
  obtain ⟨v, hv, rfl⟩ := List.mem_map.1 hu
  rw [Routes.testsInOrder, List.mem_append] at hv
  obtain hv | hv := hv
  · obtain ⟨i, -, rfl⟩ := List.mem_map.1 hv
    exact Or.inr ⟨_, rfl, h.targetOf i⟩
  · obtain ⟨c, l, rfl, rfl | rfl⟩ | rfl := mem_decisionEvents_cases hv
    · exact Or.inr ⟨_, rfl, h.targetOf last⟩
    · exact Or.inr ⟨_, rfl, h.1⟩
    · exact Or.inl rfl

end Routes

theorem SplitTree.local_eventsOf {r : Routes} {callers : ℕ} (h : r.Below callers)
    (beyond : Condition) (t : SplitTree) (next : ℕ) (hn : callers ≤ next) :
    Use.Local callers next (next + t.splits) ((t.eventsOf r .mk beyond next).map Event.use) := by
  induction t generalizing next with
  | leaf rest last =>
    rw [eventsOf_leaf]
    exact h.testsInOrder next rest last false
  | split pivot lower upper ihLower ihUpper =>
    have first := (ihLower (next + 1) (by omega)).enclose
    have all := first.append (ihUpper (next + 1 + lower.splits) (by omega)) hn
    have count : next + (split pivot lower upper).splits =
        next + 1 + lower.splits + upper.splits := by
      rw [splits]
      omega
    rw [count]
    simpa [eventsOf_split, Event.use] using all

/-- A search binds its own labels, once each, and tests for them only before that. -/
theorem Strategy.IsSearch.local_events {s : Strategy} (search : s.IsSearch) {r : Routes}
    {callers : ℕ} (h : r.Below callers) (next : ℕ) (hn : callers ≤ next) :
    Use.Local callers next (next + s.labels) ((s.events r next).map Event.use) := by
  cases search with
  | inOrder _ => exact h.testsInOrder next _ _ true
  | byProbability _ => exact h.testsInOrder next _ _ true
  | bisection _ => exact SplitTree.local_eventsOf h _ _ next hn

end Multiway
