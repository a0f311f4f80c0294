import Multiway.Proofs.Lowering.Price
import Multiway.Proofs.Lowering.Success

/-!
# Estimates of a switch

The footprint of a switch is exact for code without fused branches in a draft without constants, and
an upper bound if there are fused branches. It is no bound in a draft that holds constants already:
an offset that they move beyond the immediate operands takes two more instructions, and the first
slot may be moved by a gap. Nothing else makes a switch larger than its footprint.
-/
namespace Multiway

theorem Width.bytes_dvd_eight (w : Width) : w.bytes ∣ 8 := by cases w <;> decide

/-! ## Searches for one key -/

/-- A linear search for one key is a test and a jump. -/
theorem Sink.run_single {σ : Type} {s : Sink σ} {l l' : Label} {x y z : σ}
    (test : (s.perform (.test 0 .equal l)).run x = .ok () y)
    (jump : (s.perform (.jump l')).run y = .ok () z) :
    s.run ⟨#[l], l', none⟩ [.testOrDefault 0 .equal true] x = .ok () z := by
  refine run_eq_ok_iff.2 ⟨[.test 0 .equal l, .jump l'], #[], .single (by decide) rfl ?_⟩
  rw [performAll, EStateM.run_bind, test]
  simp only
  rw [run_performAll_single, jump]

/-- Without fused branches a comparison takes its longer form. -/
theorem Emission.run_compare_longer {e : Emission} {key : Key} {d : Draft}
    (loadable : key.isPooled → ¬e.base.isZero) (longer : d.machine.fusedBranches = false)
    (condition : Condition) (target : Label) :
    (e.compare key condition target).run d = .ok () { d with
      code := (d.code.hintFor target).2.emitAll
        (e.comparison (key.loadPlan e.base e.scratch d.pool) key condition target false false)
      pool := key.reserve d.pool } := by
  have form : e.fuses key target d = false := by
    simp only [fuses, takesFused, longer, Bool.false_and]
  refine run_compare_eq_ok_iff.2 ⟨loadable, ?_⟩
  rw [comparisonIn_eq, form]
  rfl

/-- The first comparison takes what its key is priced at. -/
theorem Tally.footprint_addComparison (key : Key) :
    (({} : Tally).addComparison key).footprint = key.comparisonFootprint := by
  unfold addComparison footprint Key.comparisonFootprint Key.isPooled Key.poolBytes
  cases key.constant? with
  | none => rfl
  | some c =>
    obtain ⟨first, size⟩ := ConstantPool.intern_empty c
    have near : LoadPlan.IsNear 0 := by decide
    show Footprint.mk (0 + _ + if LoadPlan.IsNear (ConstantPool.empty.intern c).1 then 0 else _)
      (ConstantPool.empty.intern c).2.size = _
    rw [first, size, if_pos near, Nat.zero_add, Nat.add_zero]
    rfl

namespace Switch

open Emission Draft

variable {s : Switch} {d d' : Draft}

/-- What a linear search for one key adds on a machine without fused branches. -/
theorem exists_run_single {key : Key} {l l' : Label} (keys : s.keys = #[key])
    (routes : s.routes = ⟨#[l], l', none⟩) (loadable : key.isPooled → ¬s.emission.base.isZero)
    (longer : d.machine.fusedBranches = false) :
    ∃ d', s.emission.sink.run s.routes [.testOrDefault 0 .equal true] d = .ok () d' ∧
      d'.pool = key.reserve d.pool ∧ d'.code.position = d.code.position +
        ((key.loadPlan s.emission.base s.emission.scratch d.pool).length + comparisonLength +
          jumpLength) * instructionBytes := by
  let e := s.emission
  let code := (d.code.hintFor l).2
  let is := e.comparison (key.loadPlan e.base e.scratch d.pool) key .equal l false false
  have tested : (e.sink.perform (.test 0 .equal l)).run d =
      .ok () { d with code := code.emitAll is, pool := key.reserve d.pool } := by
    simp only [Sink.perform, sink, show e.keys[0]? = some key by simp [e, emission, keys]]
    exact run_compare_longer loadable longer .equal l
  have length : is.length = (key.loadPlan e.base e.scratch d.pool).length + comparisonLength := by
    simp [is, comparison, LoadPlan.length, comparisonLength]
  refine ⟨_, by rw [routes]; exact Sink.run_single tested rfl, rfl, ?_⟩
  show ((code.emitAll is).emitAll [.jump l', .nop]).position = _
  rw [CodeBuffer.position_emitAll, CodeBuffer.position_emitAll, length, Nat.add_mul _ jumpLength,
    ← Nat.add_assoc]
  rfl

theorem footprint_single {key : Key} {l l' : Label} (keys : s.keys = #[key])
    (requests : s.strategy.requests = [.testOrDefault 0 .equal true])
    (routes : s.routes = ⟨#[l], l', none⟩) :
    s.footprint = .ok ⟨key.comparisonFootprint.code + jumpLength * instructionBytes,
      key.comparisonFootprint.data⟩ := by
  let t := ({} : Tally).addComparison key
  have run : (Tally.sink s.keys).run s.routes s.strategy.requests {} =
      .ok () { t with codeBytes := t.codeBytes + jumpLength * instructionBytes } := by
    have tested : ((Tally.sink s.keys).perform (.test 0 .equal l)).run {} = .ok () t := by
      simp only [Sink.perform, Tally.sink, show s.keys[0]? = some key by simp [keys]]
      rfl
    rw [requests, routes]
    exact Sink.run_single tested rfl
  rw [footprint, run, ← Tally.footprint_addComparison]
  rfl

/-! ## Drafts without constants -/

/-- Requests that are served into a draft without constants can be priced. The price is the size of
the constants, and that of the code unless there are fused branches, each of which saves at least
one instruction. -/
theorem price_of_run {rs : List Request} (within : d.pool.Within) (empty : d.pool.isEmpty)
    (run : s.emission.sink.run s.routes rs d = .ok () d') :
    ∃ t is, (Tally.sink s.keys).run s.routes rs {} = .ok () t ∧
      d'.code.code.toList = d.code.code.toList ++ is ∧ t.footprint.data = d'.pool.size ∧
      ((∀ i ∈ is, ¬i.isFused) → d.code.position + t.footprint.code = d'.code.position) ∧
      d'.code.position + is.countP (·.isFused) * instructionBytes ≤
        d.code.position + t.footprint.code := by
  have leads := s.emission.leads_tally d fun _ _ c _ => c.width.bytes_dvd_eight
  obtain ⟨t, tallied, tracks⟩ := leads.run (tracks_start (by decide) within) run
  have none := ConstantPool.eq_empty within empty
  obtain ⟨is, n, far, code, bytes, priced, exact, -⟩ := tracks.code
  have size := congrArg List.length code
  obtain ⟨upper, lower⟩ := priced
  -- Both pools start empty and stay the same, so each far offset has been priced.
  rw [exact none] at upper lower
  simp only [Array.length_toList, List.length_append] at size
  refine ⟨t, is, tallied, code, ?_, fun longer => ?_, ?_⟩
  · rw [Tally.footprint, tracks.same none]
  · have fused : is.countP (·.isFused) = 0 := List.countP_eq_zero.2 longer
    simp only [CodeBuffer.position, Tally.footprint, instructionBytes] at bytes ⊢
    omega
  · simp only [CodeBuffer.position, Tally.footprint, instructionBytes] at bytes ⊢
    omega

/-- A switch over keys of all kinds is priced and emitted behind a fused branch, to a label that two
of its keys lead back to. -/
theorem price_of_run_mixed :
    let d := Draft.after
      [.newLabel, .newLabel, .bind ⟨0⟩, .append (.fused .equal .icc ⟨8⟩ (.imm 3) ⟨0⟩)]
      { machine := { fusedBranches := true } }
    ∃ d' t is, d.pool.Within ∧ d.pool.isEmpty ∧
      mixed.emission.sink.run mixed.routes mixed.strategy.requests d = .ok () d' ∧
      (Tally.sink mixed.keys).run mixed.routes mixed.strategy.requests {} = .ok () t ∧
      d'.code.code.toList = d.code.code.toList ++ is ∧ t.footprint.data = d'.pool.size ∧
      ((∀ i ∈ is, ¬i.isFused) → d.code.position + t.footprint.code = d'.code.position) ∧
      d'.code.position + is.countP (·.isFused) * instructionBytes ≤
        d.code.position + t.footprint.code := by
  intro d
  have distinct : d.code.Distinct := distinct_after _ (distinct_fresh _)
  obtain ⟨d', emitted, -⟩ := exists_emit_mixed (d := d)
    (distinct.ready fun _ mem => absurd mem List.not_mem_nil)
  have run := run_of_emit emitted
  have within : d.pool.Within := ConstantPool.within_empty
  obtain ⟨t, is, priced⟩ := price_of_run within rfl run
  exact ⟨d', t, is, within, rfl, run, priced⟩

/-! ## Drafts with constants -/

/-- A switch grows beyond its footprint by two instructions for each offset that it builds, and by
one gap in the pool; there is none if the pool ends at a multiple of the width of each constant. -/
theorem growth_of_emit (within : d.pool.Within) (emitted : s.emit d = .ok () d') :
    ∃ f is, s.footprint = .ok f ∧ d'.code.code.toList = d.code.code.toList ++ is ∧
      d'.code.position + is.countP (·.isFused) * instructionBytes ≤ d.code.position + f.code +
        is.countP (·.isSetHigh) * (farOffsetLength * instructionBytes) ∧
      (d'.pool.size ≤ modulus 12 → d'.code.position ≤ d.code.position + f.code) ∧
      ∀ unit > 0, (∀ key ∈ s.keys, ∀ c ∈ key.constant?, c.width.bytes ∣ unit) →
        d'.pool.size ≤ alignUp d.pool.size unit + f.data := by
  have follow (unit : ℕ) (pos : 0 < unit)
      (multiple : ∀ key ∈ s.keys, ∀ c ∈ key.constant?, c.width.bytes ∣ unit) :
      ∃ t, s.footprint = .ok t.footprint ∧ Tracks unit d d' t := by
    obtain ⟨t, tallied, tracks⟩ := (s.emission.leads_tally d multiple).run
      (tracks_start pos within) (run_of_emit emitted)
    refine ⟨t, ?_, tracks⟩
    rw [footprint, show (Tally.sink s.keys).run _ _ _ = _ from tallied]
  -- Eight is a multiple of every width, which is enough for the code.
  obtain ⟨t, priced, tracks⟩ := follow 8 (by decide) fun _ _ c _ => c.width.bytes_dvd_eight
  obtain ⟨is, n, far, code, bytes, ⟨upper, -⟩, -, small⟩ := tracks.code
  have size := congrArg List.length code
  simp only [Array.length_toList, List.length_append] at size
  refine ⟨t.footprint, is, priced, code, ?_, fun final => ?_, fun unit pos multiple => ?_⟩
  · simp only [CodeBuffer.position, Tally.footprint, instructionBytes, farOffsetLength] at *
    omega
  · have near := small final
    simp only [CodeBuffer.position, Tally.footprint, instructionBytes, farOffsetLength] at *
    omega
  · obtain ⟨t', priced', tracks'⟩ := follow unit pos multiple
    rw [priced, Except.ok.injEq] at priced'
    rw [priced']
    exact tracks'.size

theorem growth_of_emit_after_word :
    let s : Switch := {
      strategy := .linear ⟨#[.extended 5], [0], by decide⟩, routes := ⟨#[⟨0⟩], ⟨1⟩, none⟩,
      value := ⟨8⟩, width := .xword, base := some ⟨9⟩, scratch := ⟨1⟩ }
    let d := after [.intern ⟨7, .word⟩] {}
    ∃ d' f is, d.pool.Within ∧ s.emit d = .ok () d' ∧
      s.footprint = .ok f ∧ d'.code.code.toList = d.code.code.toList ++ is ∧
      d'.code.position + is.countP (·.isFused) * instructionBytes ≤ d.code.position + f.code +
        is.countP (·.isSetHigh) * (farOffsetLength * instructionBytes) ∧
      (d'.pool.size ≤ modulus 12 → d'.code.position ≤ d.code.position + f.code) ∧
      ∀ unit > 0, (∀ key ∈ s.keys, ∀ c ∈ key.constant?, c.width.bytes ∣ unit) →
        d'.pool.size ≤ alignUp d.pool.size unit + f.data := by
  intro s d
  have within : d.pool.Within := ((consistent_fresh {}).after [.intern ⟨7, .word⟩]).pool
  have keys : s.keys = #[.extended 5] := rfl
  obtain ⟨d', run, -, -⟩ := exists_run_single (d := d) keys rfl (fun _ => by decide) rfl
  have emitted : s.emit d = .ok () d' := by
    rw [emit, show s.emission.sink.run s.routes s.strategy.requests d = _ from run]
  obtain ⟨f, is, growth⟩ := growth_of_emit within emitted
  exact ⟨d', f, is, within, emitted, growth⟩

/-- A linear search for one extended key exceeds its footprint if the constant is new, and its slot
lies beyond a gap and beyond the near offsets. -/
theorem exceeds_footprint_of_far {bits : BitVec 64} {l l' : Label}
    (keys : s.keys = #[.extended bits])
    (requests : s.strategy.requests = [.testOrDefault 0 .equal true])
    (routes : s.routes = ⟨#[l], l', none⟩) (base : ¬s.emission.base.isZero)
    (longer : d.machine.fusedBranches = false) (new : d.pool.offset? ⟨bits, .xword⟩ = none)
    (far : modulus 12 ≤ d.pool.size) (gap : ¬8 ∣ d.pool.size) :
    ∃ f d', s.footprint = .ok f ∧ s.emit d = .ok () d' ∧
      d.code.position + f.code < d'.code.position ∧ d.pool.size + f.data < d'.pool.size := by
  let c : Constant := ⟨bits, .xword⟩
  obtain ⟨d', run, pool, position⟩ := exists_run_single keys routes (fun _ => base) longer
  have offset : (d.pool.intern c).1 = alignUp d.pool.size 8 := (ConstantPool.intern_of_none new).1
  have beyond : d.pool.size < alignUp d.pool.size 8 := by
    refine Nat.lt_of_le_of_ne (le_alignUp _ (by decide)) fun same => gap ?_
    rw [same]
    exact alignUp_dvd _ _
  have length : ((Key.extended bits).loadPlan s.emission.base s.emission.scratch d.pool).length =
      1 + farOffsetLength := by
    show (LoadPlan.atOffset .xword _ _ (d.pool.intern c).1).length = _
    rw [LoadPlan.length_atOffset, if_neg]
    · rfl
    · rw [LoadPlan.isNear_iff, offset]
      omega
  have size : d'.pool.size = alignUp d.pool.size 8 + 8 := by
    rw [pool]
    show (d.pool.intern c).2.size = _
    rw [ConstantPool.size_intern_of_none new, offset]
    rfl
  refine ⟨_, d', footprint_single keys requests routes, ?_, ?_, ?_⟩
  · rw [emit, requests, run]
  · rw [position, length]
    exact Nat.add_lt_add_left (show 24 < 32 by decide) _
  · rw [size]
    exact Nat.add_lt_add_right beyond 8

end Switch

namespace Draft

/-- Requests for the words from zero on. -/
def words (n : ℕ) : List Operation := (List.range n).map fun i => .intern ⟨.ofNat 64 i, .word⟩

theorem after_words {n : ℕ} (small : n ≤ modulus 64) :
    (after (words n) {}).pool.size = n * 4 ∧ (after (words n) {}).machine = {} ∧
      ∀ c o, (after (words n) {}).pool.offset? c = some o → c.bits.toNat < n ∧ c.width = .word := by
  induction n with
  | zero => exact ⟨rfl, rfl, fun c o found => by simp [words, after, ConstantPool.offset?] at found⟩
  | succ n ih =>
    obtain ⟨size, machine, held⟩ := ih (by omega)
    have number : (BitVec.ofNat 64 n).toNat = n := Nat.mod_eq_of_lt small
    have new : (after (words n) {}).pool.offset? ⟨.ofNat 64 n, .word⟩ = none := by
      cases found : (after (words n) {}).pool.offset? ⟨.ofNat 64 n, .word⟩ with
      | none => rfl
      | some o =>
        have earlier : (BitVec.ofNat 64 n).toNat < n := (held _ _ found).1
        omega
    rw [words, List.range_succ, List.map_append, after_append]
    refine ⟨?_, machine, fun c o found => ?_⟩
    · show ((after (words n) {}).pool.intern _).2.size = _
      rw [ConstantPool.size_intern_of_none new, (ConstantPool.intern_of_none new).1, size]
      show alignUp (n * 4) 4 + 4 = _
      rw [alignUp_mul n (by decide), Nat.succ_mul]
    · obtain ⟨rfl, -⟩ | ⟨-, old⟩ := ConstantPool.offset?_intern_cases found
      · exact ⟨number.trans_lt n.lt_succ_self, rfl⟩
      · obtain ⟨lt, word⟩ := held c o old
        exact ⟨by omega, word⟩

end Draft

namespace Switch

open Draft

/-- In a pool that ends at 4100 an extended key takes two more instructions to load, after a gap. -/
theorem exceeds_footprint_after_words :
    let s : Switch := {
      strategy := .linear ⟨#[.extended (.ofNat 64 (modulus 40))], [0], by decide⟩
      routes := ⟨#[⟨0⟩], ⟨1⟩, none⟩, value := ⟨8⟩, width := .xword, base := some ⟨9⟩,
      scratch := ⟨1⟩ }
    s.check = .ok s ∧ s.strategy.IsSearch ∧ ∃ d f d', d = after (words 1025) {} ∧
      s.footprint = .ok f ∧ s.emit d = .ok () d' ∧
      d.code.position + f.code < d'.code.position ∧ d.pool.size + f.data < d'.pool.size := by
  intro s
  have search : LinearSearch.ofKeys [.extended (.ofNat 64 (modulus 40))] = .ok _ := rfl
  obtain ⟨size, machine, held⟩ := after_words (n := 1025) (by decide)
  have new : (after (words 1025) {}).pool.offset? ⟨.ofNat 64 (modulus 40), .xword⟩ = none := by
    rw [← Option.not_isSome_iff_eq_none, Option.isSome_iff_exists]
    rintro ⟨o, found⟩
    exact absurd (held _ o found).2 (by decide)
  obtain ⟨f, d', exceeds⟩ := exceeds_footprint_of_far (s := s) rfl rfl rfl (by decide)
    (by rw [machine]) new (by rw [size]; decide) (by rw [size]; decide)
  exact ⟨rfl, .inOrder search, _, f, d', rfl, exceeds⟩

end Switch

end Multiway
