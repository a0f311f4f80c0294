import Multiway.Proofs.Draft.Locals
import Multiway.Proofs.Lowering.Check
import Multiway.Proofs.Lowering.Growth
import Multiway.Proofs.Search.Binding

/-!
# Accepted searches are emitted

A search with a target for each key asks for nothing that could be refused: its keys exist and can
be loaded, and it binds the labels that it makes, the latest one first. So it can be priced at all
times, and emitted as long as none of the local labels to come is bound. Then it binds each label
that it has made, once, between the beginning and the end of its code, and no other label.
-/
namespace Multiway

namespace Emission

variable {e : Emission}

/-- Code is emitted for all that is asked for, as long as all keys can be loaded and the labels to
be bound are not bound already. -/
theorem complies (loadable : ∀ k ∈ e.keys, k.isPooled → ¬e.base.isZero) :
    e.sink.Complies (· < e.keys.size) fun pending d => d.code.Ready pending where
  test {index pending d} inside ready condition l := by
    have performed : e.sink.perform (.test index condition l) =
        e.compare e.keys[index] condition l := by
      simp only [Sink.perform, sink, Array.getElem?_eq_getElem inside]
    rw [performed]
    exact ⟨_, run_compare_eq_ok_iff.2 ⟨loadable _ (Array.getElem_mem inside), rfl⟩,
      (ready.hintFor l).emitAll _⟩
  jump ready l := ⟨_, rfl, ready.emitAll [.jump l, .nop]⟩
  bind {pending d l} ready := by
    obtain ⟨code, bound, later⟩ := ready.bind
    refine ⟨{ d with code }, ?_, later⟩
    simp only [Sink.perform, sink, EStateM.run, bound]
  makeLabel ready := ⟨_, _, rfl, ready.localLabel⟩

/-- The labels made are the next local labels, and the labels bound are those of the events. -/
theorem traces_labels (e : Emission) :
    e.sink.Traces fun d vs ls d' => d.code.Consistent → d'.code.Consistent ∧
      d'.code.handedOut = d.code.handedOut ++ ls ∧
      d'.code.bindings.toList = d.code.bindings.toList ++ boundBy vs where
  nil d consistent := ⟨consistent, (List.append_nil _).symm, (List.append_nil _).symm⟩
  append {d₁ d₂ d₃ us vs ls ms} first rest consistent := by
    obtain ⟨middle, made, bound⟩ := first consistent
    obtain ⟨last, made', bound'⟩ := rest middle
    refine ⟨last, ?_, ?_⟩
    · rw [made', made, List.append_assoc]
    · rw [bound', bound, boundBy_append, List.append_assoc]
  perform {v d d'} performed consistent := by
    cases performs_of_perform performed with
    | test condition target _ compared =>
      obtain ⟨-, rfl⟩ := run_compare_eq_ok_iff.1 compared
      refine ⟨(consistent.hintFor target).emitAll _, ?_, ?_⟩
      · rw [CodeBuffer.emitAll_eq, List.append_nil]
        rfl
      · rw [CodeBuffer.emitAll_eq]
        exact (List.append_nil _).symm
    | jump target =>
      exact ⟨consistent.emitAll [.jump target, .nop], (List.append_nil _).symm,
        (List.append_nil _).symm⟩
    | bind bound =>
      obtain ⟨bindings, -, locals, used⟩ := CodeBuffer.bindings_of_bind bound
      refine ⟨consistent.bind bound, ?_, ?_⟩
      · rw [CodeBuffer.handedOut, locals, used, List.append_nil]
        rfl
      · rw [bindings, Array.toList_push]
        rfl
  makeLabel {l d d'} label consistent := by
    cases label
    refine ⟨consistent.localLabel, consistent.localLabel_cases.1, ?_⟩
    rw [show boundBy [] = [] from rfl, List.append_nil]
    exact congrArg Array.toList d.code.bindings_localLabel

end Emission

/-- A sink that prices keys refuses none of them. -/
theorem Tally.complies (keys : Array Key) :
    (Tally.sink keys).Complies (· < keys.size) fun _ _ => True where
  test {index _ t} inside _ condition l := by
    refine ⟨t.addComparison keys[index], ?_, trivial⟩
    simp only [Sink.perform, sink, Array.getElem?_eq_getElem inside]
    rfl
  jump _ _ := ⟨_, rfl, trivial⟩
  bind {_ t _} _ := ⟨t, rfl, trivial⟩
  makeLabel _ := ⟨_, _, rfl, trivial⟩

/-! ## Where labels are bound -/

theorem Block.exists_site? {bs : List Block} {l : Label} (mem : .bind l ∈ bs.map event) :
    ∃ n ≤ (codeOf bs).length, site? bs l = some n := by
  induction bs with
  | nil => contradiction
  | cons b bs ih =>
    rw [codeOf, List.flatMap_cons, List.length_append, site?]
    split_ifs with here
    · exact ⟨0, Nat.zero_le _, rfl⟩
    · obtain same | later := List.mem_cons.1 mem
      · exact absurd same.symm here
      · obtain ⟨n, le, site⟩ := ih later
        rw [site]
        exact ⟨_, Nat.add_le_add_left le _, rfl⟩

namespace Emission

open Block

variable {e : Emission} {d d' : Draft} {bs : List Block}

theorem Lowers.length_pos {p : ConstantPool} {v : Event} {is : List Instruction}
    (h : e.Lowers p v is) (unbound : ∀ l, v ≠ .bind l) : 0 < is.length := by
  cases h with
  | @test _ _ condition target plan fused padded held loads fits =>
    rw [comparison, List.length_append]
    cases fused with
    | false => simp
    | true =>
      simp only [if_true, List.length_append, List.length_singleton]
      omega
  | jump target => simp
  | bind label => exact absurd rfl (unbound label)

theorem Grows.size_eq (h : e.Grows d bs d') :
    d'.code.code.size = d.code.code.size + (codeOf bs).length := by
  have := congrArg List.length h.code
  simpa using this

/-- What does not end with a label binds its labels before its end. -/
theorem Grows.bound_inside (h : e.Grows d bs d') {us : List Event} {v : Event}
    (events : bs.map event = us ++ [v]) (unbound : ∀ l, v ≠ .bind l) {l : Label}
    (mem : .bind l ∈ bs.map event) :
    d.code.position? l = none ∧
      ∃ p, d'.code.position? l = some p ∧ d.code.position ≤ p ∧ p < d'.code.position := by
  obtain ⟨b, block, bind⟩ := List.mem_map.1 mem
  have fresh := h.fresh b block bind
  obtain ⟨front, last, rfl, rfl, ends⟩ := List.map_eq_append_iff.1 events
  obtain ⟨z, rfl, rfl⟩ := List.map_eq_singleton_iff.1 ends
  have mem : .bind l ∈ front.map event := by
    rw [events, List.mem_append, List.mem_singleton] at mem
    exact mem.resolve_right fun same => unbound l same.symm
  obtain ⟨n, le, site⟩ := exists_site? mem
  have longer := (h.lowers z (by simp)).length_pos unbound
  have size := h.size_eq
  have code : (codeOf [z]).length = z.code.length := by simp [codeOf]
  rw [codeOf_append, List.length_append, code] at size
  have placed : d'.code.position? l = some ((d.code.code.size + n) * instructionBytes) := by
    rw [h.bound fresh, site?_append, site]
    rfl
  refine ⟨fresh, _, placed, ?_, ?_⟩
  · exact Nat.mul_le_mul_right _ (Nat.le_add_right _ _)
  · rw [CodeBuffer.position, size]
    exact Nat.mul_lt_mul_of_pos_right (by omega) (by decide)

theorem Grows.position?_of_not_mem (h : e.Grows d bs d') {l : Label}
    (absent : .bind l ∉ bs.map event) : d'.code.position? l = d.code.position? l := by
  cases before : d.code.position? l with
  | some p => exact h.kept before
  | none =>
    rw [h.bound before, Option.map_eq_none_iff]
    cases site : site? bs l with
    | none => rfl
    | some n =>
      obtain ⟨b, mem, bind⟩ := exists_of_site? site
      exact absurd (List.mem_map.2 ⟨b, mem, bind⟩) absent

end Emission

/-! ## Emission of searches -/

/-- The labels made are the local labels that come next. Each of them is bound once, between the
beginning and the end of what has been added to the draft, and no other label is. So nothing happens
to a label that a caller has, be it an ordinary label or a local one that has been handed out. -/
structure Draft.BindsOwn (d d' : Draft) (made : List Label) : Prop where
  handedOut : d'.code.handedOut = d.code.handedOut ++ made
  own : ∀ l ∈ made, l ∈ d.code.upcoming ∨ d.code.labelCount ≤ l.index
  nodup : made.Nodup
  once : ∃ bound, d'.code.bindings.toList = d.code.bindings.toList ++ bound ∧ bound.Perm made
  inside : ∀ l ∈ made, d.code.position? l = none ∧
    ∃ p, d'.code.position? l = some p ∧ d.code.position ≤ p ∧ p < d'.code.position
  others : ∀ l ∉ made, d'.code.position? l = d.code.position? l

theorem Draft.BindsOwn.position?_of_caller {d d' : Draft} {made : List Label}
    (h : d.BindsOwn d' made) {l : Label} (inside : l.index < d.code.labelCount)
    (known : l ∉ d.code.upcoming) : d'.code.position? l = d.code.position? l := by
  refine h.others l fun mem => ?_
  obtain next | new := h.own l mem
  · exact known next
  · exact Nat.not_lt.2 new inside

namespace Switch

variable {s : Switch} {d d' : Draft}

/-- A search whose requests are served binds its own labels. -/
theorem bindsOwn_of_serves (search : s.strategy.IsSearch) (distinct : d.code.Distinct)
    {events : List Event} {made : Array Label}
    (served : s.emission.sink.Serves s.routes s.strategy.requests #[] d events made d') :
    made.size = s.strategy.labels ∧ d.BindsOwn d' made.toList := by
  obtain ⟨size, perm, us, v, ends, unbound⟩ := search.binds_of_serves served
  obtain ⟨ls, same, labels⟩ := s.emission.traces_labels.serves served
  rw [Array.toList_empty, List.nil_append] at same
  obtain ⟨-, handedOut, bindings⟩ := labels distinct.toConsistent
  rw [← same] at handedOut
  obtain ⟨bs, blocks, grows⟩ := Emission.grows_of_serves served
  have run := Sink.run_eq_ok_iff.2 ⟨events, made, served⟩
  have reached : ∃ as, d'.code = d.code.actAll as := by
    have kept := s.emission.keeps_actAll.run s.routes s.strategy.requests d
    unfold Sink.stateAfter at kept
    rw [EStateM.run, run] at kept
    exact kept
  obtain ⟨as, code⟩ := reached
  have distinct' : d'.code.Distinct := code ▸ distinct.actAll as
  have grown : d.code.Grown d'.code := code ▸ CodeBuffer.grown_actAll as
  obtain ⟨nodup, own⟩ := distinct'.next_of_grown grown handedOut
  have mem_events {l : Label} : .bind l ∈ bs.map Block.event ↔ l ∈ made.toList := by
    rw [blocks, ← mem_boundBy]
    exact perm.mem_iff
  refine ⟨size, handedOut, own, nodup, ⟨_, bindings, perm⟩, fun l mem => ?_, fun l h => ?_⟩
  · exact grows.bound_inside (blocks.trans ends) unbound (mem_events.2 mem)
  · exact grows.position?_of_not_mem fun mem => h (mem_events.1 mem)

/-- An accepted search is emitted wherever all local labels to come can be bound. -/
theorem Accepted.exists_emit (h : s.Accepted) (search : s.strategy.IsSearch)
    (ready : d.code.Ready []) :
    ∃ d' events made, s.emit d = .ok () d' ∧
      s.emission.sink.Serves s.routes s.strategy.requests #[] d events made d' := by
  obtain ⟨events, made, d', served, -⟩ := (Emission.complies fun _ mem pooled =>
    h.not_isZero_base mem pooled).serves_search search h.targets_size (fun _ inside => inside) ready
  refine ⟨d', events, made, ?_, served⟩
  rw [emit, Sink.run_eq_ok_iff.2 ⟨events, made, served⟩]

/-- An accepted search can be priced. -/
theorem Accepted.exists_footprint (h : s.Accepted) (search : s.strategy.IsSearch) :
    ∃ f, s.footprint = .ok f := by
  obtain ⟨events, made, tally, served, -⟩ := (Tally.complies s.keys).serves_search search
    h.targets_size (fun _ inside => inside) trivial
  refine ⟨tally.footprint, ?_⟩
  rw [footprint, Sink.run_eq_ok_iff.2 ⟨events, made, served⟩]

/-- What follows a switch does not matter to whether it is accepted. -/
theorem Accepted.facing (h : s.Accepted) (successor : Option Label) :
    Accepted { s with routes := { s.routes with successor } } :=
  ⟨h.keys_nonempty, h.targets_size, h.immediates, h.scratch_ne_zero, h.scratch_ne_value,
    h.base_ne_zero, h.base_of_pooled⟩

/-- An accepted search in front of any label has a footprint. After every history that has bound no
label that is still to be handed out, it is emitted and binds its own labels. -/
theorem emits_of_check {t s : Switch} (accepted : t.check = .ok s) (search : s.strategy.IsSearch)
    (successor : Option Label) (m : Machine) (history : List Draft.Operation) :
    let u := { s with routes := { s.routes with successor } }
    let d := Draft.after history { machine := m }
    (∀ l ∈ d.code.upcoming, d.code.position? l = none) →
      (∃ f, u.footprint = .ok f) ∧
      ∃ d' events made, u.emit d = .ok () d' ∧
        u.emission.sink.Serves u.routes u.strategy.requests #[] d events made d' ∧
        made.size = u.strategy.labels ∧ d.BindsOwn d' made.toList ∧
        ∀ l : Label, l.index < d.code.labelCount → l ∉ d.code.upcoming →
          d'.code.position? l = d.code.position? l := by
  intro u d unbound
  have fit : u.Accepted := (accepted_of_check accepted).facing successor
  have distinct : d.code.Distinct := Draft.distinct_after history (Draft.distinct_fresh m)
  obtain ⟨d', events, made, emitted, served⟩ := fit.exists_emit search (distinct.ready unbound)
  obtain ⟨size, binds⟩ := bindsOwn_of_serves (s := u) search distinct served
  exact ⟨fit.exists_footprint search, d', events, made, emitted, served, size, binds,
    fun _ => binds.position?_of_caller⟩

/-- A search over four keys is emitted in one pass, and again in the next one. -/
theorem emits_of_check_twice :
    let keys : List Key := [.immediate 7, .immediate (-3), .immediate 40, .immediate 12]
    let s : Switch := {
      strategy := .bisection ⟨keys.toArray, .split 0 (.leaf [1] 0) (.leaf [3] 2), .greater⟩
      routes := ⟨#[⟨0⟩, ⟨1⟩, ⟨0⟩, ⟨1⟩], ⟨1⟩, none⟩, value := ⟨8⟩, width := .word,
      base := some ⟨9⟩, scratch := ⟨1⟩ }
    let d := Draft.after [.newLabel, .newLabel, .emit s, .nextPass] {}
    s.check = .ok s ∧ s.strategy.IsSearch ∧ (∀ l ∈ d.code.upcoming, d.code.position? l = none) ∧
      (∃ f, (s.before ⟨1⟩).footprint = .ok f) ∧
      ∃ d' events made, (s.before ⟨1⟩).emit d = .ok () d' ∧
        s.emission.sink.Serves (s.before ⟨1⟩).routes s.strategy.requests #[] d events made d' ∧
        made.size = s.strategy.labels ∧ d.BindsOwn d' made.toList ∧
        ∀ l : Label, l.index < d.code.labelCount → l ∉ d.code.upcoming →
          d'.code.position? l = d.code.position? l := by
  intro keys s d
  have order : Bisection.byOrdinal keys = [1, 0, 3, 2] := by
    simp [keys, Bisection.byOrdinal, List.mergeSort, List.MergeSort.Internal.splitInTwo,
      Key.ordinal]
  have accepted : s.check = .ok s := rfl
  have search : s.strategy.IsSearch := .bisection
    (Bisection.ofKeys_of_four .immediate (by simp [keys]) (by simp [keys, Key.kind]) order)
  have unbound : ∀ l ∈ d.code.upcoming, d.code.position? l = none :=
    fun l _ => CodeBuffer.position?_nextPass _ l
  exact ⟨accepted, search, unbound, emits_of_check accepted search (some ⟨1⟩) {}
    [.newLabel, .newLabel, .emit s, .nextPass] unbound⟩

/-! ## Keys of all kinds -/

/-- A tree over keys that no search takes together, as they are of all three kinds. -/
def mixed : Switch where
  strategy := .scripted #[.immediate 5, .word 0x80000000#32, .extended 0x10000000000#64]
    (SplitTree.requests .above (.split 1 (.leaf [0] 1) (.leaf [] 2)) 0)
  routes := ⟨#[⟨0⟩, ⟨1⟩, ⟨0⟩], ⟨1⟩, none⟩
  value := .inBank .outs 0
  width := .xword
  base := some (.inBank .outs 1)
  scratch := .inBank .globals 1

theorem exists_emit_mixed (ready : d.code.Ready []) :
    ∃ d', mixed.emit d = .ok () d' ∧ d'.pool.size ≤ d.pool.size + 112 := by
  have complies := Emission.complies (e := mixed.emission) (by decide)
  obtain ⟨events, made, d', served⟩ : ∃ events made d', mixed.emission.sink.Serves mixed.routes
      mixed.strategy.requests #[] d events made d' := by
    obtain ⟨events, made, d', served, -⟩ := complies.serves_tree (r := mixed.routes) .above
      (.split 1 (.leaf [0] 1) (.leaf [] 2)) (by decide) (by decide) [] #[] ready
    exact ⟨events, made, d', served⟩
  have length : events.length = 7 := by
    rw [served.events_eq (numbers_getD made ⟨1⟩)]
    rfl
  have bound := Emission.size_pool_le_of_serves served
  rw [length] at bound
  refine ⟨d', ?_, bound⟩
  rw [emit, Sink.run_eq_ok_iff.2 ⟨events, made, served⟩]

end Switch

end Multiway
