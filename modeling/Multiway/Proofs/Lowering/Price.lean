import Multiway.Proofs.Dispatch.Lockstep
import Multiway.Proofs.Lowering.Probe

/-!
# The price of emitted code

A tally can follow an emission request by request. It prices each comparison in its longer form, so
its price is the size of the code but for what fused branches save, which is two instructions, or
one if a `nop` has to separate two of them. The rest of the difference is due to the pool: the
tally's starts empty, while constants that are there before may move an offset beyond the immediate
operands and a slot beyond a gap.
-/
namespace Multiway

/-! ## Slots of two pools -/

theorem alignUp_mono {m n : ℕ} (unit : ℕ) (h : m ≤ n) : alignUp m unit ≤ alignUp n unit :=
  Nat.mul_le_mul_right unit (Nat.div_le_div_right (by omega))

/-- A multiple of the unit in front of everything moves every slot by as much. -/
theorem alignUp_add {a unit : ℕ} (n : ℕ) (pos : 0 < unit) (h : unit ∣ a) :
    alignUp (a + n) unit = a + alignUp n unit := by
  obtain ⟨k, rfl⟩ := h
  rw [alignUp, alignUp, show unit * k + n + unit - 1 = n + unit - 1 + unit * k by omega,
    Nat.add_mul_div_left _ _ pos, Nat.add_mul, Nat.mul_comm unit k, Nat.add_comm]

namespace ConstantPool

variable {p q : ConstantPool} {c : Constant}

theorem eq_empty (within : p.Within) (empty : p.isEmpty) : p = .empty := by
  have size : p.size = 0 := by simpa [isEmpty, size] using empty
  have bytes : p.bytes = #[] := Array.size_eq_zero_iff.1 size
  have offsets : p.offsets = ∅ := by
    apply Std.ExtHashMap.ext_getElem?
    intro c
    cases found : p.offsets[c]? with
    | none => simp
    | some o =>
      have := within c o found
      omega
  show ConstantPool.mk p.bytes p.offsets = _
  rw [bytes, offsets]
  rfl

/-- The first constant begins at zero, without a gap. -/
theorem intern_empty (c : Constant) :
    (empty.intern c).1 = 0 ∧ (empty.intern c).2.size = c.width.bytes := by
  have new : empty.offset? c = none := by simp [offset?, empty]
  have first : (empty.intern c).1 = 0 := by
    have zero := alignUp_mul 0 c.width.bytes_pos
    rw [Nat.zero_mul] at zero
    rw [(intern_of_none new).1]
    exact zero
  exact ⟨first, by rw [size_intern_of_none new, first, Nat.zero_add]⟩

theorem isSome_offset?_intern (c' : Constant) :
    ((p.intern c).2.offset? c').isSome ↔ c' = c ∨ (p.offset? c').isSome := by
  by_cases same : c = c'
  · simp [← same]
  · rw [offset?_intern_of_ne same]
    simp [Ne.symm same]

/-- A pool that holds more and is longer by a multiple of the width at most stays so. -/
theorem size_intern_le {a : ℕ} (held : (q.offset? c).isSome → (p.offset? c).isSome)
    (multiple : c.width.bytes ∣ a) (size : p.size ≤ a + q.size) :
    (p.intern c).2.size ≤ a + (q.intern c).2.size := by
  cases found : p.offset? c with
  | some o =>
    rw [intern_of_offset? found]
    exact size.trans (Nat.add_le_add_left (extends_intern q c).size_le a)
  | none =>
    have new : q.offset? c = none := by
      rw [← Option.not_isSome_iff_eq_none]
      intro old
      have := held old
      simp [found] at this
    rw [size_intern_of_none found, size_intern_of_none new, (intern_of_none found).1,
      (intern_of_none new).1, ← Nat.add_assoc, ← alignUp_add q.size c.width.bytes_pos multiple]
    exact Nat.add_le_add_right (alignUp_mono _ size) _

end ConstantPool

/-! ## The length of a load -/

/-- Whether this is the first of the instructions that build a far offset. -/
def Instruction.isSetHigh : Instruction → Bool
  | setHigh .. => true
  | _ => false

namespace Key

variable {key : Key} {base scratch : Register} {p : ConstantPool}

theorem within_reserve (within : p.Within) : (key.reserve p).Within := by
  unfold reserve
  cases key.constant? with
  | none => exact within
  | some c => exact within.intern c

theorem size_le_reserve (key : Key) (p : ConstantPool) : p.size ≤ (key.reserve p).size := by
  unfold reserve
  cases key.constant? with
  | none => exact Nat.le_refl _
  | some c => exact (p.extends_intern c).size_le

/-- A pool that holds more than another one still does so with one more key in both. -/
theorem isSome_offset?_reserve {q : ConstantPool}
    (held : ∀ c, (q.offset? c).isSome → (p.offset? c).isSome) (c : Constant)
    (h : ((key.reserve q).offset? c).isSome) : ((key.reserve p).offset? c).isSome := by
  unfold reserve at h ⊢
  cases constant : key.constant? with
  | none =>
    simp only [constant] at h ⊢
    exact held c h
  | some k =>
    simp only [constant, ConstantPool.isSome_offset?_intern] at h ⊢
    exact h.imp_right (held c)

theorem size_reserve_le {q : ConstantPool} {a : ℕ}
    (held : ∀ c, (q.offset? c).isSome → (p.offset? c).isSome)
    (multiple : ∀ c ∈ key.constant?, c.width.bytes ∣ a) (size : p.size ≤ a + q.size) :
    (key.reserve p).size ≤ a + (key.reserve q).size := by
  unfold reserve
  cases constant : key.constant? with
  | none => exact size
  | some c => exact ConstantPool.size_intern_le (held c) (multiple c constant) size

/-- A load is one instruction, and two more if the offset is far. -/
theorem length_loadPlan (key : Key) (base scratch : Register) (p : ConstantPool) :
    (key.loadPlan base scratch p).length = (if key.isPooled then 1 else 0) +
      farOffsetLength * (key.loadPlan base scratch p).instructions.countP (·.isSetHigh) := by
  unfold loadPlan isPooled
  cases key.constant? with
  | none => rfl
  | some c =>
    simp only [LoadPlan.length, LoadPlan.atOffset]
    split_ifs <;> simp_all [Instruction.isSetHigh, Instruction.setHighOf, farOffsetLength]

/-- In a small pool no offset is far. -/
theorem countP_isSetHigh_loadPlan (within : p.Within) (small : (key.reserve p).size ≤ modulus 12) :
    (key.loadPlan base scratch p).instructions.countP (·.isSetHigh) = 0 := by
  unfold loadPlan
  unfold reserve at small
  cases constant : key.constant? with
  | none => rfl
  | some c =>
    simp only [constant] at small
    have inside : (p.intern c).1 < (p.intern c).2.size :=
      within.intern c c _ (p.offset?_intern c)
    have near : LoadPlan.IsNear (p.intern c).1 := LoadPlan.isNear_iff.2 (by omega)
    simp [LoadPlan.atOffset, near, Instruction.isSetHigh]

end Key

/-- A comparison is priced like its longer form after the same load. -/
theorem Tally.addComparison_eq (t : Tally) (key : Key) (base scratch : Register) :
    t.addComparison key = { t with
      pool := key.reserve t.pool
      codeBytes := t.codeBytes +
        ((key.loadPlan base scratch t.pool).length + comparisonLength) * instructionBytes } := by
  unfold addComparison Key.loadPlan Key.reserve Key.comparisonFootprint Key.isPooled
  cases key.constant? with
  | none => rfl
  | some c =>
    simp only [LoadPlan.length_atOffset, Option.isSome_some, if_true]
    split_ifs <;> rfl

/-! ## Accounts -/

/-- A price of `n` instructions accounts for code if `far` offsets had to be built in it and not
those that are: what is left is what fused branches save, one or two instructions each. -/
structure Priced (is : List Instruction) (n far : ℕ) : Prop where
  upper : is.length + is.countP (·.isFused) + farOffsetLength * far ≤
    n + farOffsetLength * is.countP (·.isSetHigh)
  lower : n + farOffsetLength * is.countP (·.isSetHigh) ≤
    is.length + 2 * is.countP (·.isFused) + farOffsetLength * far

theorem Priced.append {is js : List Instruction} {m n far far' : ℕ} (first : Priced is m far)
    (second : Priced js n far') : Priced (is ++ js) (m + n) (far + far') := by
  obtain ⟨upper, lower⟩ := first
  obtain ⟨upper', lower'⟩ := second
  constructor
  all_goals
    simp only [List.length_append, List.countP_append, farOffsetLength] at *
    omega

theorem priced_nil : Priced [] 0 0 := ⟨Nat.le_refl _, Nat.le_refl _⟩

theorem priced_jump (target : Label) : Priced [.jump target, .nop] jumpLength 0 :=
  ⟨Nat.le_refl _, Nat.le_refl _⟩

namespace Emission

variable (e : Emission)

/-- A comparison is priced by the load from another pool. -/
theorem priced_comparison (key : Key) (condition : Condition) (target : Label) (fused padded : Bool)
    (p q : ConstantPool) :
    Priced (e.comparison (key.loadPlan e.base e.scratch p) key condition target fused padded)
      ((key.loadPlan e.base e.scratch q).length + comparisonLength)
      ((key.loadPlan e.base e.scratch q).instructions.countP (·.isSetHigh)) := by
  have here := key.length_loadPlan e.base e.scratch p
  have there := key.length_loadPlan e.base e.scratch q
  have loading : (key.loadPlan e.base e.scratch p).instructions.countP (·.isFused) = 0 := by
    rw [List.countP_eq_zero]
    intro x mem
    have := Key.isLoading_of_mem_loadPlan mem
    cases x <;> simp_all [Key.IsLoading, Instruction.isFused]
  unfold LoadPlan.length at here there
  constructor
  all_goals
    unfold comparison LoadPlan.length
    rw [List.length_append, List.countP_append, List.countP_append, here, there, loading]
    cases fused <;> cases padded <;>
      simp [Instruction.isFused, Instruction.isSetHigh, farOffsetLength, comparisonLength] <;> omega

variable {e}

/-- What a comparison adds, if it does not fail. -/
theorem of_compare_eq_ok {key : Key} {condition : Condition} {target : Label} {d d' : Draft}
    (h : (e.compare key condition target).run d = .ok () d') :
    d'.pool = key.reserve d.pool ∧ ∃ fused padded, d'.code.code.toList = d.code.code.toList ++
      e.comparison (key.loadPlan e.base e.scratch d.pool) key condition target fused padded := by
  obtain ⟨-, rfl⟩ := run_compare_eq_ok_iff.1 h
  rw [comparisonIn_eq]
  exact ⟨rfl, _, _, CodeBuffer.toList_code_emitAll _ _⟩

/-- A draft and a tally that have followed each other from an empty tally and the draft `d` on,
where `unit` is a multiple of the width of each constant. -/
structure Tracks (unit : ℕ) (d x : Draft) (t : Tally) : Prop where
  within : x.pool.Within
  held : ∀ c, (t.pool.offset? c).isSome → (x.pool.offset? c).isSome
  size : x.pool.size ≤ alignUp d.pool.size unit + t.pool.size
  same : d.pool = .empty → x.pool = t.pool
  code : ∃ is n far, x.code.code.toList = d.code.code.toList ++ is ∧
    t.codeBytes = n * instructionBytes ∧ Priced is n far ∧
    (d.pool = .empty → far = is.countP (·.isSetHigh)) ∧
    (x.pool.size ≤ modulus 12 → is.countP (·.isSetHigh) = 0)

variable {unit : ℕ} {d x : Draft} {t : Tally}

theorem tracks_start (pos : 0 < unit) (within : d.pool.Within) : Tracks unit d d {} where
  within := within
  held c h := by simp [ConstantPool.offset?] at h
  size := (le_alignUp _ pos).trans (Nat.le_add_right _ _)
  same h := h
  code := ⟨[], 0, 0, by simp, rfl, priced_nil, fun _ => rfl, fun _ => rfl⟩

/-- Code without a load is priced on its own. -/
theorem Tracks.append {x' : Draft} {t' : Tally} (h : Tracks unit d x t) {is : List Instruction}
    {n : ℕ} (code : x'.code.code.toList = x.code.code.toList ++ is) (pool : x'.pool = x.pool)
    (pool' : t'.pool = t.pool) (bytes' : t'.codeBytes = t.codeBytes + n * instructionBytes)
    (priced : Priced is n 0) (near : is.countP (·.isSetHigh) = 0) : Tracks unit d x' t' := by
  obtain ⟨within, held, size, same, js, m, far, grown, bytes, before, exact, small⟩ := h
  rw [← pool] at within held size same small
  rw [← pool'] at held size same
  refine ⟨within, held, size, same, js ++ is, m + n, far + 0, ?_, ?_, before.append priced, ?_, ?_⟩
  · rw [code, grown, List.append_assoc]
  · rw [bytes', bytes, Nat.add_mul]
  · rw [List.countP_append, near]
    exact exact
  · rw [List.countP_append, near]
    exact small

theorem Tracks.compare {x' : Draft} (h : Tracks unit d x t) {key : Key}
    (multiple : ∀ c ∈ key.constant?, c.width.bytes ∣ unit) {condition : Condition}
    {target : Label} (compared : (e.compare key condition target).run x = .ok () x') :
    Tracks unit d x' (t.addComparison key) := by
  obtain ⟨pool, fused, padded, code⟩ := of_compare_eq_ok compared
  obtain ⟨is, n, far, grown, bytes, before, exact, small⟩ := h.code
  have priced := e.priced_comparison key condition target fused padded x.pool t.pool
  have setHighs : (e.comparison (key.loadPlan e.base e.scratch x.pool) key condition target fused
      padded).countP (·.isSetHigh) =
        (key.loadPlan e.base e.scratch x.pool).instructions.countP (·.isSetHigh) := by
    unfold comparison
    rw [List.countP_append]
    cases fused <;> cases padded <;> simp [Instruction.isSetHigh]
  rw [t.addComparison_eq key e.base e.scratch]
  refine ⟨?_, ?_, ?_, fun empty => ?_, _, _, _, ?_, ?_, before.append priced, fun empty => ?_,
    fun final => ?_⟩
  · rw [pool]
    exact Key.within_reserve h.within
  · rw [pool]
    exact Key.isSome_offset?_reserve h.held
  · rw [pool]
    exact Key.size_reserve_le h.held
      (fun c mem => Nat.dvd_trans (multiple c mem) (alignUp_dvd _ _)) h.size
  · rw [pool, h.same empty]
  · rw [code, grown, List.append_assoc]
  · simp only
    rw [bytes, Nat.add_mul n]
  · rw [List.countP_append, setHighs, exact empty, h.same empty]
  · rw [pool] at final
    rw [List.countP_append, setHighs, small ((key.size_le_reserve _).trans final),
      Key.countP_isSetHigh_loadPlan h.within final]

/-- Whatever is emitted can be priced, and the price keeps track of the code. -/
theorem leads_tally (e : Emission) (d : Draft)
    (multiple : ∀ key ∈ e.keys, ∀ c ∈ key.constant?, c.width.bytes ∣ unit) :
    e.sink.Leads (Tally.sink e.keys) (Tracks unit d) where
  perform {v v' x x' t} alike related performed := by
    cases alike with
    | test index condition l l' =>
      simp only [Sink.perform, sink, Tally.sink] at performed ⊢
      cases held : e.keys[index]? with
      | none =>
        rw [held] at performed
        contradiction
      | some key =>
        rw [held] at performed
        exact ⟨_, rfl, related.compare (multiple key (Array.mem_of_getElem? held)) performed⟩
    | jump l l' =>
      cases performed
      exact ⟨_, rfl, related.append (x.code.toList_code_emitAll [.jump l, .nop]) rfl rfl rfl
        (priced_jump l) rfl⟩
    | bind l l' =>
      simp only [Sink.perform, sink, EStateM.run] at performed
      cases bound : x.code.bind l with
      | error error => simp [bound] at performed
      | ok code =>
        simp only [bound, EStateM.Result.ok.injEq, true_and] at performed
        subst performed
        obtain ⟨-, same, -⟩ := CodeBuffer.bind_eq_ok bound
        exact ⟨t, rfl, related.append (by rw [same, List.append_nil]) rfl rfl rfl priced_nil rfl⟩
  makeLabel {l x x' t} related made := by
    cases made
    refine ⟨_, _, rfl, related.append ?_ rfl rfl rfl priced_nil rfl⟩
    exact (congrArg Array.toList x.code.code_localLabel).trans (List.append_nil _).symm

end Emission

end Multiway
