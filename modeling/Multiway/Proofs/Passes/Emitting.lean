import Multiway.Proofs.Lowering.Check
import Multiway.Proofs.Passes.Progress

/-!
# Emitting a switch in a pass

The requests of a search lead from one stage of a pass to another, and the labels that they make are
the next ones of the pass. So a switch over a search is emitted without an error wherever the
outline continues with its pieces.
-/
namespace Multiway

/-- No label is bound twice. -/
def Outline.BindsOnce (P : Outline) : Prop :=
  ∀ {i j : ℕ} {l : Label}, P.piece i = .mark l → P.piece j = .mark l → i = j

namespace Outline

variable {P : Outline} {m : Machine} {callers : ℕ} {before : Option Forms}

theorem BindsOnce.mark?_eq_none (once : P.BindsOnce) {i : ℕ} {l : Label}
    (piece : P.piece i = .mark l) : P.mark? i l = none := by
  rw [Outline.mark?_eq_none]
  intro j hj earlier
  have := once piece earlier
  omega

/-- The outline continues with some pieces. -/
def Continues (P : Outline) (i : ℕ) (xs : List Piece) : Prop := xs <+: P.drop i

theorem Continues.cons {i : ℕ} {x : Piece} {xs : List Piece} (h : P.Continues i (x :: xs)) :
    P.piece i = x ∧ P.Continues (i + 1) xs := by
  obtain ⟨rest, eq⟩ := h
  rw [List.cons_append] at eq
  constructor
  · apply piece_of_getElem?
    have head : (P.drop i)[0]? = some x := by
      rw [← eq]
      rfl
    simpa using head
  · refine ⟨rest, ?_⟩
    rw [← List.tail_drop, ← eq]
    rfl

theorem Continues.append {i : ℕ} {xs ys : List Piece} (h : P.Continues i (xs ++ ys)) :
    P.Continues i xs ∧ P.Continues (i + xs.length) ys := by
  obtain ⟨rest, eq⟩ := h
  refine ⟨⟨ys ++ rest, by rw [← eq, List.append_assoc]⟩, rest, ?_⟩
  rw [← List.drop_drop, ← eq, List.append_assoc, List.drop_left]

namespace Stage

variable {i u : ℕ} {p : ConstantPool} {d : Draft} {e : Emission}

theorem perform (h : Stage P m callers before i u p d) (once : P.BindsOnce) {v : Event}
    (piece : P.piece i = e.piece p v) (loadable : e.Loadable v)
    (made : ∀ l, v = .bind l → l.index < callers + u) :
    ∃ d', (e.sink.perform v).run d = .ok () d' ∧
      Stage P m callers before (i + 1) u (e.reserve p v) d' := by
  cases v with
  | test index condition target =>
    obtain ⟨inside, loads⟩ := loadable
    obtain ⟨d', performed, stage⟩ := h.compare piece loads
    refine ⟨d', ?_, stage⟩
    simp only [Sink.perform, Emission.sink, Emission.keys_eq inside]
    exact performed
  | jump target =>
    have stage := h.emitAll (piece.trans rfl : P.piece i = .jump target) rfl
    exact ⟨_, rfl, stage⟩
  | bind l =>
    obtain ⟨code, bound, stage⟩ := h.bind piece (once.mark?_eq_none piece) (made l rfl)
    refine ⟨_, ?_, stage⟩
    simp only [Sink.perform, Emission.sink, EStateM.run, bound]

theorem performAll (h : Stage P m callers before i u p d) (once : P.BindsOnce) {vs : List Event}
    (pieces : P.Continues i (e.pieces vs p)) (loadable : ∀ v ∈ vs, e.Loadable v)
    (made : ∀ l, .bind l ∈ vs → l.index < callers + u) :
    ∃ d', (e.sink.performAll vs).run d = .ok () d' ∧
      Stage P m callers before (i + vs.length) u (e.reserveAll vs p) d' := by
  induction vs generalizing i p d with
  | nil => exact ⟨d, rfl, h⟩
  | cons v vs ih =>
    rw [Emission.pieces] at pieces
    obtain ⟨piece, rest⟩ := pieces.cons
    obtain ⟨d₁, first, stage₁⟩ := h.perform once piece (loadable v List.mem_cons_self)
      fun l eq => made l (eq ▸ List.mem_cons_self)
    obtain ⟨d₂, others, stage₂⟩ := ih stage₁ rest
      (fun w mem => loadable w (List.mem_cons_of_mem _ mem))
      fun l mem => made l (List.mem_cons_of_mem _ mem)
    refine ⟨d₂, ?_, ?_⟩
    · rw [Sink.performAll, EStateM.run_bind, first]
      exact others
    · rw [List.length_cons, Nat.add_comm vs.length, ← Nat.add_assoc]
      exact stage₂

end Stage

end Outline

/-! ## Searches -/

namespace Outline.Stage

variable {P : Outline} {m : Machine} {callers : ℕ} {before : Option Forms} {i u : ℕ}
  {p : ConstantPool} {d : Draft} {e : Emission} {routes : Routes}

theorem serves_testsInOrder (h : Stage P m callers before i u p d) (once : P.BindsOnce)
    (sizes : routes.targets.size = e.keys.size) {rest : List ℕ} {last : ℕ} {mayFallThrough : Bool}
    (pieces : P.Continues i (e.pieces (routes.testsInOrder rest last mayFallThrough) p))
    (loadable : ∀ v ∈ routes.testsInOrder rest last mayFallThrough, e.Loadable v)
    (made : Array Label) :
    ∃ d', e.sink.Serves routes ((rest.map fun i => .testToTarget i .equal) ++
          [.testOrDefault last .equal mayFallThrough]) made d
        (routes.testsInOrder rest last mayFallThrough) made d' ∧
      Stage P m callers before (i + (routes.testsInOrder rest last mayFallThrough).length) u
        (e.reserveAll (routes.testsInOrder rest last mayFallThrough) p) d' := by
  obtain ⟨d', performed, stage⟩ := h.performAll once pieces loadable fun l mem =>
    absurd mem (routes.bind_not_mem_testsInOrder _ _ _ l)
  refine ⟨d', e.sink.serves_testsInOrder made ?_ ?_ performed, stage⟩
  · intro i hi
    rw [sizes]
    exact (loadable (.test i .equal (routes.targetOf i))
      (List.mem_append_left _ (List.mem_map.2 ⟨i, hi, rfl⟩))).1
  · rw [sizes]
    have tested : ∃ c l,
        Event.test last c l ∈ routes.decisionEvents last .equal mayFallThrough := by
      unfold Routes.decisionEvents
      split_ifs
      · exact ⟨_, _, List.mem_cons_self⟩
      · exact ⟨_, _, List.mem_cons_self⟩
      · exact ⟨_, _, List.mem_cons_self⟩
    obtain ⟨c, l, mem⟩ := tested
    exact (loadable (.test last c l) (List.mem_append_right _ mem)).1

/-- A split makes the next label and tests whether to go there. -/
theorem serves_split (h : Stage P m callers before i u p d) (routes : Routes)
    (once : P.BindsOnce) {pivot : ℕ} {beyond : Condition}
    (piece : P.piece i = e.piece p (.test pivot beyond ⟨callers + u⟩))
    (loadable : e.Loadable (.test pivot beyond ⟨callers + u⟩)) (made : Array Label) :
    ∃ d', e.sink.Serves routes [.makeLabel, .test pivot beyond (.fresh made.size)] made d
          [.test pivot beyond ⟨callers + u⟩] (made.push ⟨callers + u⟩) d' ∧
      Stage P m callers before (i + 1) (u + 1)
        (e.reserve p (.test pivot beyond ⟨callers + u⟩)) d' := by
  obtain ⟨label, stage⟩ := h.localLabel
  have labelled : e.sink.makeLabel.run d =
      .ok ⟨callers + u⟩ { d with code := d.code.localLabel.2 } := by
    rw [← label]
    rfl
  have fresh : (made.push ⟨callers + u⟩)[made.size]? = some (⟨callers + u⟩ : Label) := by simp
  obtain ⟨d', tested, stage'⟩ := stage.perform once piece loadable fun l eq => by contradiction
  refine ⟨d', .make labelled (.single (fun eq => by contradiction) ?_ ?_), stage'⟩
  · simp only [Request.events, LabelRef.label?, fresh]
    rfl
  · rw [Sink.run_performAll_single, tested]

/-- A label made before is bound. -/
theorem serves_mark (h : Stage P m callers before i u p d) (routes : Routes) (once : P.BindsOnce)
    {made : Array Label} {n : ℕ} {l : Label} (fresh : made[n]? = some l)
    (piece : P.piece i = e.piece p (.bind l)) (inside : l.index < callers + u) :
    ∃ d', e.sink.Serves routes [.bind (.fresh n)] made d [.bind l] made d' ∧
      Stage P m callers before (i + 1) u (e.reserve p (.bind l)) d' := by
  obtain ⟨d', bound, stage⟩ := h.perform once piece trivial fun l' eq => by
    cases eq
    exact inside
  refine ⟨d', .single (fun eq => by contradiction) ?_ ?_, stage⟩
  · simp only [Request.events, LabelRef.label?, fresh]
    rfl
  · rw [Sink.run_performAll_single, bound]

/-- The requests of a decision tree are served, and make as many labels as the tree has splits. -/
theorem serves_tree (once : P.BindsOnce) (sizes : routes.targets.size = e.keys.size)
    {beyond : Condition} (t : SplitTree) (h : Stage P m callers before i u p d) (made : Array Label)
    (pieces : P.Continues i (e.pieces (t.eventsOf routes .mk beyond (callers + u)) p))
    (loadable : ∀ v ∈ t.eventsOf routes .mk beyond (callers + u), e.Loadable v) :
    ∃ d' made', e.sink.Serves routes (t.requests beyond made.size) made d
          (t.eventsOf routes .mk beyond (callers + u)) made' d' ∧
        Stage P m callers before (i + (t.eventsOf routes .mk beyond (callers + u)).length)
          (u + t.splits) (e.reserveAll (t.eventsOf routes .mk beyond (callers + u)) p) d' ∧
        made'.size = made.size + t.splits ∧ ∀ n < made.size, made'[n]? = made[n]? := by
  induction t generalizing i u p d made with
  | leaf rest last =>
    rw [SplitTree.eventsOf_leaf] at pieces loadable ⊢
    obtain ⟨d', served, stage⟩ := h.serves_testsInOrder once sizes pieces loadable made
    exact ⟨d', made, served, stage, rfl, fun _ _ => rfl⟩
  | split pivot lower upper ihLower ihUpper =>
    have parts : (SplitTree.split pivot lower upper).eventsOf routes .mk beyond (callers + u) =
        .test pivot beyond ⟨callers + u⟩ :: (lower.eventsOf routes .mk beyond (callers + u + 1) ++
          .bind ⟨callers + u⟩ ::
            upper.eventsOf routes .mk beyond (callers + u + 1 + lower.splits)) := by
      simp [SplitTree.eventsOf_split]
    rw [parts] at pieces loadable ⊢
    -- the test at the pivot
    rw [Emission.pieces] at pieces
    obtain ⟨pivotPiece, pieces⟩ := pieces.cons
    obtain ⟨d₂, first, stage₂⟩ :=
      h.serves_split routes once pivotPiece (loadable _ List.mem_cons_self) made
    -- the lower half
    rw [Emission.pieces_append] at pieces
    obtain ⟨lowerPieces, pieces⟩ := pieces.append
    obtain ⟨d₃, made₃, lowerServed, stage₃, size₃, kept₃⟩ :=
      ihLower stage₂ (made.push ⟨callers + u⟩) lowerPieces fun v mem =>
        loadable v (List.mem_cons_of_mem _ (List.mem_append_left _ mem))
    rw [Array.size_push] at lowerServed size₃ kept₃
    have fresh : made₃[made.size]? = some ⟨callers + u⟩ := by
      rw [kept₃ made.size (Nat.lt_succ_self _)]
      simp
    -- the mark between the halves
    rw [Emission.pieces, Emission.length_pieces] at pieces
    obtain ⟨markPiece, upperPieces⟩ := pieces.cons
    obtain ⟨d₄, mark, stage₄⟩ :=
      stage₃.serves_mark routes once fresh markPiece (by simp only; omega)
    -- the upper half
    have next : callers + (u + 1 + lower.splits) = callers + u + 1 + lower.splits := by omega
    obtain ⟨d₅, made₅, upperServed, stage₅, size₅, kept₅⟩ :=
      ihUpper stage₄ made₃ (by rwa [next]) fun v mem => by
        rw [next] at mem
        exact loadable v (List.mem_cons_of_mem _ (List.mem_append_right _
          (List.mem_cons_of_mem _ mem)))
    rw [next] at upperServed stage₅
    rw [size₃] at upperServed size₅ kept₅
    refine ⟨d₅, made₅, ?_, ?_, ?_, ?_⟩
    · have all := ((first.append lowerServed).append mark).append upperServed
      rw [SplitTree.requests]
      simpa [Nat.add_assoc] using all
    · have count : u + (SplitTree.split pivot lower upper).splits =
          u + 1 + lower.splits + upper.splits := by
        rw [SplitTree.splits]
        omega
      rw [count]
      simpa [Emission.reserveAll, Nat.add_assoc, Nat.add_comm, Nat.add_left_comm] using stage₅
    · rw [size₅, SplitTree.splits]
      omega
    · intro n hn
      rw [kept₅ n (by omega), kept₃ n (by omega), Array.getElem?_push, if_neg (by omega)]

end Outline.Stage

namespace Switch

/-- The pieces of a switch over a search, where `next` is the index of the first label made. -/
def pieces (s : Switch) (next : ℕ) (p : ConstantPool) : List Piece :=
  s.emission.pieces (s.strategy.events s.routes next) p

def reserve (s : Switch) (next : ℕ) (p : ConstantPool) : ConstantPool :=
  s.emission.reserveAll (s.strategy.events s.routes next) p

/-- Whatever a search tests for can be loaded. -/
theorem Accepted.loadable {s : Switch} (accepted : s.Accepted) (search : s.strategy.IsSearch)
    (next : ℕ) : ∀ v ∈ s.strategy.events s.routes next, s.emission.Loadable v := by
  intro v mem
  have within := search.within s.routes next v mem
  cases v with
  | test index condition target =>
    have inside : index < s.keys.size := within
    have key : s.emission.keyAt index ∈ s.keys :=
      Array.mem_of_getElem? (Emission.keys_eq (e := s.emission) inside)
    exact ⟨inside, accepted.not_isZero_base key⟩
  | jump target => trivial
  | bind label => trivial

end Switch

/-- An accepted switch over a search is emitted without an error. -/
theorem Outline.Stage.emit {P : Outline} {m : Machine} {callers : ℕ} {before : Option Forms}
    {i u : ℕ} {p : ConstantPool} {d : Draft} (h : P.Stage m callers before i u p d)
    (once : P.BindsOnce) {s : Switch} (accepted : s.Accepted) (search : s.strategy.IsSearch)
    (pieces : P.Continues i (s.pieces (callers + u) p)) :
    ∃ d', s.emit d = .ok () d' ∧ P.Stage m callers before
      (i + (s.pieces (callers + u) p).length) (u + s.strategy.labels)
      (s.reserve (callers + u) p) d' := by
  have loadable := accepted.loadable search (callers + u)
  have served : ∃ d' made, s.emission.sink.Serves s.routes s.strategy.requests #[] d
        (s.strategy.events s.routes (callers + u)) made d' ∧
      P.Stage m callers before (i + (s.strategy.events s.routes (callers + u)).length)
        (u + s.strategy.labels) (s.reserve (callers + u) p) d' := by
    unfold Switch.pieces at pieces
    unfold Switch.reserve
    cases strategy : s.strategy with
    | linear search =>
      rw [strategy] at pieces loadable
      obtain ⟨d', served, stage⟩ :=
        h.serves_testsInOrder once accepted.targets_size pieces loadable #[]
      exact ⟨d', #[], served, stage⟩
    | bisection search =>
      rw [strategy] at pieces loadable
      obtain ⟨d', made, served, stage, -⟩ :=
        h.serves_tree once accepted.targets_size search.tree #[] pieces loadable
      exact ⟨d', made, served, stage⟩
    | scripted keys requests =>
      rw [strategy] at search
      contradiction
  obtain ⟨d', made, served, stage⟩ := served
  refine ⟨d', ?_, ?_⟩
  · rw [Switch.emit, Sink.run_eq_ok_iff.2 ⟨_, made, served⟩]
  · rw [Switch.pieces, Emission.length_pieces]
    exact stage

end Multiway
