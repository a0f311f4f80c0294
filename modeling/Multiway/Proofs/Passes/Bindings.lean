import Multiway.Proofs.Passes.Script

/-!
# Labels of a script

A script that binds no label twice has an outline that binds no label twice, since its searches bind
labels of their own. If it binds its labels before the first switch or after the last one, no
comparison branches back over another one that stands before the mark.
-/
namespace Multiway

def Use.isTest : Use → Bool
  | test _ => true
  | _ => false

theorem Piece.isTest_use (x : Piece) : x.use.isTest = x.isComparison := by
  cases x <;> rfl

namespace Outline

/-- What is done with labels in an outline, in order. -/
def uses (P : Outline) : List Use := P.map Piece.use

theorem getElem?_uses {P : Outline} {i : ℕ} (h : i < P.length) :
    P.uses[i]? = some (P.piece i).use := by
  rw [uses, List.getElem?_map, List.getElem?_eq_getElem h,
    piece_of_getElem? (List.getElem?_eq_getElem h)]
  rfl

theorem lt_of_use {P : Outline} {i : ℕ} (h : (P.piece i).use ≠ .none) : i < P.length := by
  by_contra beyond
  simp [piece, Nat.le_of_not_lt beyond, Piece.use] at h

theorem bindsOnce_of_nodup {P : Outline} (h : (Use.bound P.uses).Nodup) : P.BindsOnce := by
  rw [Use.bound, List.Nodup, List.pairwise_filterMap, List.pairwise_iff_getElem] at h
  -- of two marks of one label, none stands before the other
  have apart {i j : ℕ} {l : Label} (hi : P.piece i = .mark l) (hj : P.piece j = .mark l) :
      ¬i < j := by
    intro lt
    have inside : j < P.length := lt_of_use (by rw [hj]; exact fun eq => by contradiction)
    have first := getElem?_uses (P := P) (lt.trans inside)
    have second := getElem?_uses inside
    rw [List.getElem?_eq_some_iff] at first second
    obtain ⟨hi', first⟩ := first
    obtain ⟨hj', second⟩ := second
    refine h i j hi' hj' lt l ?_ l ?_ rfl
    · rw [first, hi]
      rfl
    · rw [second, hj]
      rfl
  intro i j l hi hj
  have := apart hi hj
  have := apart hj hi
  omega

/-- No comparison branches back over another one if all comparisons stand in a part in which labels
are bound after they are tested for. -/
theorem anchored_of_ordered {A B C : Outline} (hA : ∀ x ∈ A, ¬x.isComparison)
    (hB : Use.Ordered B.uses) (hC : ∀ x ∈ C, ¬x.isComparison) : (A ++ B ++ C).Anchored := by
  have within {i : ℕ} (h : ((A ++ B ++ C).piece i).isComparison) :
      A.length ≤ i ∧ i < A.length + B.length := by
    have inside := lt_length_of_isComparison h
    have found : (A ++ B ++ C)[i]? = some ((A ++ B ++ C).piece i) := by
      rw [List.getElem?_eq_getElem inside, piece_of_getElem? (List.getElem?_eq_getElem inside)]
    by_contra outside
    obtain before | after : i < A.length ∨ A.length + B.length ≤ i := by omega
    · rw [List.getElem?_append_left (by
        rw [List.length_append]
        omega), List.getElem?_append_left before] at found
      exact hA _ (List.mem_of_getElem? found) h
    · rw [List.getElem?_append_right (by rw [List.length_append]; exact after)] at found
      exact hC _ (List.mem_of_getElem? found) h
  have inner {i : ℕ} (lower : A.length ≤ i) (upper : i < A.length + B.length) :
      B.uses[i - A.length]? = some ((A ++ B ++ C).piece i).use := by
    have inside : i < (A ++ B ++ C).length := by
      simp only [List.length_append]
      omega
    rw [← getElem?_uses inside, uses, uses, List.map_append, List.map_append, List.append_assoc,
      List.getElem?_append_right (by simpa using lower), List.getElem?_append_left (by
        simp only [List.length_map]
        omega), List.length_map]
  intro i j l mark hji compares k hkj comparison
  have hk := within comparison
  have hi := within (Piece.isComparison_of_comparesTo compares)
  have bind := inner (i := j) (by omega) (by omega)
  have test := inner hi.1 hi.2
  rw [mark] at bind
  rw [Piece.comparesTo_iff_use.1 compares] at test
  rw [List.getElem?_eq_some_iff] at bind test
  obtain ⟨hj', bind⟩ := bind
  obtain ⟨hi', test⟩ := test
  rw [Use.Ordered, List.pairwise_iff_getElem] at hB
  exact hB (j - A.length) (i - A.length) hj' hi' (by omega) l bind test

theorem comparisons_eq (P : Outline) : P.comparisons = P.uses.countP Use.isTest := by
  rw [comparisons, uses, List.countP_map]
  congr 1
  ext x
  exact (Piece.isTest_use x).symm

end Outline

/-! ## Comparisons of a search -/

/-- Whether a request comes down to a comparison. -/
def Request.compares : Request → Bool
  | test .. | testToTarget .. | testOrDefault .. => true
  | _ => false

theorem Request.countP_inOrder (rest : List ℕ) (last : ℕ) (mayFallThrough : Bool) :
    ((rest.map fun i => testToTarget i .equal) ++
      [testOrDefault last .equal mayFallThrough]).countP compares = rest.length + 1 := by
  have tests : (rest.map fun i => testToTarget i .equal).countP compares = rest.length := by
    rw [List.countP_map, List.countP_eq_length]
    exact fun _ _ => rfl
  rw [List.countP_append, tests]
  rfl

theorem Routes.countP_testsInOrder (r : Routes) (rest : List ℕ) (last : ℕ)
    (mayFallThrough : Bool) :
    ((r.testsInOrder rest last mayFallThrough).map Event.use).countP Use.isTest =
      rest.length + 1 := by
  rw [testsInOrder, decisionEvents, List.map_append, List.countP_append, List.map_map]
  have tests : (rest.map (Event.use ∘ fun i => .test i .equal (r.targetOf i))).countP
      Use.isTest = rest.length := by
    rw [List.countP_map, List.countP_eq_length]
    exact fun _ _ => rfl
  rw [tests]
  split_ifs <;> rfl

theorem SplitTree.countP_eventsOf (r : Routes) (beyond : Condition) (t : SplitTree)
    (next made : ℕ) :
    ((t.eventsOf r .mk beyond next).map Event.use).countP Use.isTest =
      (t.requests beyond made).countP Request.compares := by
  induction t generalizing next made with
  | leaf rest last => rw [eventsOf_leaf, r.countP_testsInOrder, requests, Request.countP_inOrder]
  | split pivot lower upper ihLower ihUpper =>
    simp only [eventsOf_split, requests, List.map_append, List.countP_append]
    rw [ihLower (next + 1) (made + 1), ihUpper _ (made + 1 + lower.splits)]
    simp [Event.use, Use.isTest, Request.compares]

theorem Strategy.IsSearch.countP_events {s : Strategy} (search : s.IsSearch) (r : Routes)
    (next : ℕ) : ((s.events r next).map Event.use).countP Use.isTest =
      s.requests.countP Request.compares := by
  have linear (l : LinearSearch) : (((Strategy.linear l).events r next).map Event.use).countP
      Use.isTest = (Strategy.linear l).requests.countP Request.compares := by
    rw [events, r.countP_testsInOrder, requests, LinearSearch.requests, Request.countP_inOrder]
  cases search with
  | inOrder _ => exact linear _
  | byProbability _ => exact linear _
  | bisection _ => exact SplitTree.countP_eventsOf r _ _ next 0

/-! ## Labels of a script -/

namespace Step

def emits : Step → Bool
  | emit _ => true
  | _ => false

def comparisons : Step → ℕ
  | emit s => s.strategy.requests.countP Request.compares
  | _ => 0

variable {callers next : ℕ} {p : ConstantPool}

theorem uses_emit (s : Switch) :
    Outline.uses ((emit s).pieces next p) = (s.strategy.events s.routes next).map Event.use :=
  s.emission.map_use_pieces _ p

theorem countP_uses {x : Step} (accepted : x.Accepted callers) :
    (Outline.uses (x.pieces next p)).countP Use.isTest = x.comparisons := by
  cases x with
  | emit s => rw [uses_emit, accepted.2.1.countP_events, comparisons]
  | nops count => rfl
  | bind l => rfl

/-- A step that binds no label of its own binds those of its search only. -/
theorem local_uses {x : Step} (accepted : x.Accepted callers) (unbound : x.bound? = none)
    (hn : callers ≤ next) :
    Use.Local callers next (next + x.labels) (Outline.uses (x.pieces next p)) := by
  cases x with
  | emit s =>
    rw [uses_emit]
    exact accepted.2.1.local_events accepted.2.2 next hn
  | nops count =>
    apply Use.Local.of_tests
    exact fun u hu => Or.inl (List.mem_singleton.1 hu)
  | bind l => contradiction

theorem index_lt_of_bound? {x : Step} (accepted : x.Accepted callers) {l : Label}
    (binds : x.bound? = some l) : l.index < callers := by
  cases x with
  | emit s => contradiction
  | nops count => contradiction
  | bind l' =>
    cases binds
    exact accepted

/-- A step binds the label that it names and the labels that it makes, once each. -/
theorem nodup_bound_uses {x : Step} (accepted : x.Accepted callers) (hn : callers ≤ next) :
    (Use.bound (Outline.uses (x.pieces next p))).Nodup ∧
      ∀ l ∈ Use.bound (Outline.uses (x.pieces next p)), (x.bound? = some l ∧ l.index < callers) ∨
        (next ≤ l.index ∧ l.index < next + x.labels) := by
  cases binds : x.bound? with
  | none =>
    have here := local_uses (p := p) accepted binds hn
    exact ⟨here.nodup, fun l mem => Or.inr (here.range (Use.mem_bound.1 mem))⟩
  | some l =>
    obtain rfl : x = .bind l := by
      cases x <;> simp_all [bound?]
    have single : Use.bound (Outline.uses ((bind l).pieces next p)) = [l] := rfl
    rw [single]
    refine ⟨List.nodup_singleton l, fun l' mem => ?_⟩
    obtain rfl := List.mem_singleton.1 mem
    exact Or.inl ⟨rfl, accepted⟩

theorem not_isComparison_of_mem_pieces {x : Step} (still : ¬x.emits) :
    ∀ y ∈ x.pieces next p, ¬y.isComparison := by
  intro y hy
  cases x with
  | emit s => exact absurd rfl still
  | nops count =>
    rw [List.mem_singleton.1 hy]
    exact fun h => by contradiction
  | bind l =>
    rw [List.mem_singleton.1 hy]
    exact fun h => by contradiction

end Step

namespace Script

variable {s : Script} {callers next : ℕ} {p : ConstantPool}

def comparisons (s : Script) : ℕ := (s.map Step.comparisons).sum

theorem pieces_append (xs ys : Script) (next : ℕ) (p : ConstantPool) :
    pieces (xs ++ ys) next p =
      pieces xs next p ++ pieces ys (next + labels xs) (reserve xs next p) := by
  induction xs generalizing next p with
  | nil => rfl
  | cons x xs ih =>
    rw [List.cons_append, pieces, ih, pieces, List.append_assoc, labels_cons, Nat.add_assoc]
    rfl

theorem uses_pieces_cons (x : Step) (xs : Script) (next : ℕ) (p : ConstantPool) :
    Outline.uses (pieces (x :: xs) next p) = Outline.uses (x.pieces next p) ++
      Outline.uses (pieces xs (next + x.labels) (x.reserve next p)) := List.map_append

theorem comparisons_outline (accepted : ∀ x ∈ s, x.Accepted callers) :
    (s.outline callers).comparisons = s.comparisons := by
  have all (next : ℕ) (p : ConstantPool) :
      (Outline.uses (s.pieces next p)).countP Use.isTest = s.comparisons := by
    induction s generalizing next p with
    | nil => rfl
    | cons x xs ih =>
      rw [uses_pieces_cons, List.countP_append,
        Step.countP_uses (accepted x List.mem_cons_self),
        ih fun y mem => accepted y (List.mem_cons_of_mem _ mem), comparisons, comparisons,
        List.map_cons, List.sum_cons]
  rw [Outline.comparisons_eq]
  exact all callers .empty

theorem bound_cons (x : Step) (xs : Script) :
    bound (x :: xs) = x.bound?.toList ++ bound xs := by
  rw [bound, List.filterMap_cons]
  cases x.bound? <;> rfl

theorem index_lt_of_mem_bound (accepted : ∀ x ∈ s, x.Accepted callers) {l : Label}
    (mem : l ∈ s.bound) : l.index < callers := by
  obtain ⟨x, hx, binds⟩ := List.mem_filterMap.1 mem
  exact Step.index_lt_of_bound? (accepted x hx) binds

/-- The labels bound in a pass are those of the script and those of its searches. -/
theorem nodup_bound_pieces (accepted : ∀ x ∈ s, x.Accepted callers) (once : s.bound.Nodup)
    (hn : callers ≤ next) :
    (Use.bound (Outline.uses (s.pieces next p))).Nodup ∧
      ∀ l ∈ Use.bound (Outline.uses (s.pieces next p)), l ∈ s.bound ∨ next ≤ l.index := by
  induction s generalizing next p with
  | nil => exact ⟨List.nodup_nil, fun l mem => absurd mem List.not_mem_nil⟩
  | cons x xs ih =>
    have acceptedRest : ∀ y ∈ xs, y.Accepted callers :=
      fun y mem => accepted y (List.mem_cons_of_mem _ mem)
    rw [bound_cons, List.nodup_append] at once
    obtain ⟨-, onceRest, apart⟩ := once
    obtain ⟨nodup, own⟩ := Step.nodup_bound_uses (p := p) (accepted x List.mem_cons_self) hn
    obtain ⟨nodupRest, ownRest⟩ := ih (p := x.reserve next p) acceptedRest onceRest
      (hn.trans (Nat.le_add_right next x.labels))
    rw [uses_pieces_cons, Use.bound_append, List.nodup_append, bound_cons]
    refine ⟨⟨nodup, nodupRest, ?_⟩, ?_⟩
    · rintro l hl l' hl' rfl
      obtain ⟨mine, known⟩ | ⟨lower, upper⟩ := own l hl <;> obtain theirs | later := ownRest l hl'
      · exact apart l (Option.mem_toList.2 mine) l theirs rfl
      · omega
      · have := index_lt_of_mem_bound acceptedRest theirs
        omega
      · omega
    · intro l hl
      rw [List.mem_append]
      obtain hl | hl := List.mem_append.1 hl
      · obtain ⟨mine, -⟩ | ⟨lower, -⟩ := own l hl
        · exact Or.inl (Or.inl (Option.mem_toList.2 mine))
        · exact Or.inr lower
      · obtain theirs | later := ownRest l hl
        · exact Or.inl (Or.inr theirs)
        · exact Or.inr (by omega)

theorem bindsOnce_outline (accepted : ∀ x ∈ s, x.Accepted callers) (once : s.bound.Nodup) :
    (s.outline callers).BindsOnce :=
  Outline.bindsOnce_of_nodup (nodup_bound_pieces accepted once le_rfl).1

theorem local_uses (accepted : ∀ x ∈ s, x.Accepted callers) (unbound : ∀ x ∈ s, x.bound? = none)
    (hn : callers ≤ next) :
    Use.Local callers next (next + s.labels) (Outline.uses (s.pieces next p)) := by
  induction s generalizing next p with
  | nil => exact Use.Local.of_tests fun u hu => absurd hu List.not_mem_nil
  | cons x xs ih =>
    have first := Step.local_uses (p := p) (accepted x List.mem_cons_self)
      (unbound x List.mem_cons_self) hn
    have rest := ih (p := x.reserve next p) (fun y mem => accepted y (List.mem_cons_of_mem _ mem))
      (fun y mem => unbound y (List.mem_cons_of_mem _ mem))
      (hn.trans (Nat.le_add_right next x.labels))
    rw [uses_pieces_cons, labels_cons, ← Nat.add_assoc]
    exact first.append rest hn

theorem not_isComparison_of_mem_pieces (still : ∀ x ∈ s, ¬x.emits) :
    ∀ y ∈ s.pieces next p, ¬y.isComparison := by
  induction s generalizing next p with
  | nil => exact fun y hy => absurd hy List.not_mem_nil
  | cons x xs ih =>
    intro y hy
    obtain hy | hy := List.mem_append.1 hy
    · exact Step.not_isComparison_of_mem_pieces (still x List.mem_cons_self) y hy
    · exact ih (fun z mem => still z (List.mem_cons_of_mem _ mem)) y hy

/-- A script that binds its labels before the first switch or after the last one is anchored. -/
theorem anchored_outline {front body back : Script} (hfront : ∀ x ∈ front, ¬x.emits)
    (hbody : ∀ x ∈ body, x.Accepted callers ∧ x.bound? = none) (hback : ∀ x ∈ back, ¬x.emits) :
    (outline (front ++ body ++ back) callers).Anchored := by
  rw [outline, pieces_append, pieces_append]
  apply Outline.anchored_of_ordered
  · exact not_isComparison_of_mem_pieces hfront
  · exact (local_uses (fun x hx => (hbody x hx).1) (fun x hx => (hbody x hx).2)
      (Nat.le_add_right _ _)).ordered
  · exact not_isComparison_of_mem_pieces hback

end Script

end Multiway
