import Multiway.Proofs.Lowering.Probe

/-!
# Growth of a draft

What a run adds to a draft is the blocks of its events. This is put as a relation between two
drafts that holds for single events, and from there by induction for whole runs.
-/
namespace Multiway

/-- A block of code and the event that it is for. -/
structure Block where
  event : Event
  code : List Instruction

namespace Block

def codeOf (bs : List Block) : List Instruction := bs.flatMap code

/-- Where blocks bind a label, as an index into their code. -/
def site? : List Block → Label → Option ℕ
  | [], _ => none
  | b :: bs, l => if b.event = .bind l then some 0 else (site? bs l).map (b.code.length + ·)

@[simp] theorem codeOf_nil : codeOf [] = [] := rfl

@[simp] theorem codeOf_append (bs bs' : List Block) :
    codeOf (bs ++ bs') = codeOf bs ++ codeOf bs' := List.flatMap_append

theorem site?_append (bs bs' : List Block) (l : Label) :
    site? (bs ++ bs') l =
      (site? bs l).or ((site? bs' l).map ((codeOf bs).length + ·)) := by
  induction bs with
  | nil => simp [site?]
  | cons b bs ih =>
    simp only [List.cons_append, site?, codeOf, List.flatMap_cons, List.length_append]
    split_ifs
    · rfl
    · rw [ih]
      cases site? bs l <;> simp [codeOf, Function.comp_def, Nat.add_assoc]

theorem exists_of_site? {bs : List Block} {l : Label} {n : ℕ} (h : site? bs l = some n) :
    ∃ b ∈ bs, b.event = .bind l := by
  induction bs generalizing n with
  | nil => contradiction
  | cons b bs ih =>
    by_cases bound : b.event = .bind l
    · exact ⟨b, List.mem_cons_self, bound⟩
    · simp only [site?, bound, if_false, Option.map_eq_some_iff] at h
      obtain ⟨k, later, -⟩ := h
      obtain ⟨b', mem, event⟩ := ih later
      exact ⟨b', List.mem_cons_of_mem _ mem, event⟩

end Block

namespace Emission

open Block

variable {e : Emission}

/-- The second draft is the first one and some blocks of code. -/
structure Grows (e : Emission) (d : Draft) (bs : List Block) (d' : Draft) : Prop where
  code : d'.code.code.toList = d.code.code.toList ++ codeOf bs
  lowers : ∀ b ∈ bs, e.Lowers d'.pool b.event b.code
  pool : d.pool.Extends d'.pool
  sound : d.pool.Sound → d'.pool.Sound
  kept : ∀ {l : Label} {p : ℕ}, d.code.position? l = some p → d'.code.position? l = some p
  bound : ∀ {l : Label}, d.code.position? l = none →
    d'.code.position? l = (site? bs l).map fun n => (d.code.code.size + n) * instructionBytes
  fresh : ∀ {l : Label}, ∀ b ∈ bs, b.event = .bind l → d.code.position? l = none

theorem grows_nil {d d' : Draft} (code : d'.code.code = d.code.code) (pool : d'.pool = d.pool)
    (positions : ∀ l, d'.code.position? l = d.code.position? l) : e.Grows d [] d' where
  code := by simp [code]
  lowers b h := absurd h List.not_mem_nil
  pool := by
    rw [pool]
    exact .refl _
  sound h := by rwa [pool]
  kept h := by rwa [positions]
  bound h := by simp [positions, h, site?]
  fresh b h := absurd h List.not_mem_nil

theorem Grows.trans {d₁ d₂ d₃ : Draft} {bs bs' : List Block} (first : e.Grows d₁ bs d₂)
    (second : e.Grows d₂ bs' d₃) : e.Grows d₁ (bs ++ bs') d₃ where
  code := by rw [second.code, first.code, codeOf_append, List.append_assoc]
  lowers b h := by
    obtain h | h := List.mem_append.1 h
    · exact (first.lowers b h).mono second.pool
    · exact second.lowers b h
  pool := first.pool.trans second.pool
  sound h := second.sound (first.sound h)
  kept h := second.kept (first.kept h)
  bound {l} h := by
    have mid := first.bound h
    have size : d₂.code.code.size = d₁.code.code.size + (codeOf bs).length := by
      have := congrArg List.length first.code
      simpa using this
    rw [site?_append]
    cases here : site? bs l with
    | some n =>
      simp only [here, Option.map_some] at mid
      rw [second.kept mid]
      rfl
    | none =>
      simp only [here, Option.map_none] at mid
      rw [second.bound mid, size]
      simp [Function.comp_def, Nat.add_assoc]
  fresh {l} b h event := by
    obtain h | h := List.mem_append.1 h
    · exact first.fresh b h event
    · have mid := second.fresh b h event
      cases before : d₁.code.position? l with
      | none => rfl
      | some p => rw [first.kept before] at mid; contradiction

/-- One block of code, in which no label is bound. -/
theorem grows_block {d d' : Draft} {v : Event} {is : List Instruction}
    (code : d'.code.code = d.code.code ++ is) (lowers : e.Lowers d'.pool v is)
    (pool : d.pool.Extends d'.pool) (sound : d.pool.Sound → d'.pool.Sound)
    (positions : ∀ l, d'.code.position? l = d.code.position? l)
    (unbound : ∀ l, v ≠ .bind l) : e.Grows d [⟨v, is⟩] d' where
  code := by simp [code, codeOf]
  lowers b h := by
    obtain rfl := List.mem_singleton.1 h
    exact lowers
  pool := pool
  sound := sound
  kept h := by rwa [positions]
  bound h := by simp [positions, h, site?, unbound]
  fresh b h event := by
    obtain rfl := List.mem_singleton.1 h
    exact absurd event (unbound _)

theorem grows_of_compare {d d' : Draft} {index : ℕ} {key : Key} {condition : Condition}
    {target : Label} (held : e.keys[index]? = some key)
    (h : (e.compare key condition target).run d = .ok () d') :
    ∃ is, e.Grows d [⟨.test index condition target, is⟩] d' := by
  obtain ⟨loadable, rfl⟩ := run_compare_eq_ok_iff.1 h
  obtain ⟨loads, grown, sound⟩ := loads_of_forKey (Key.forKey_eq loadable e.scratch d.pool)
  rw [comparisonIn_eq]
  exact ⟨_, grows_block (CodeBuffer.code_emitAll _ _)
    (.test _ _ _ held loads fun fused => (fuses_iff.1 fused).2.1) grown sound
    (fun _ => CodeBuffer.position?_emitAll _ _ _) fun _ event => by contradiction⟩

theorem grows_of_perform {d d' : Draft} {v : Event} (h : (e.sink.perform v).run d = .ok () d') :
    ∃ is, e.Grows d [⟨v, is⟩] d' := by
  cases performs_of_perform h with
  | test _ _ held compared => exact grows_of_compare held compared
  | jump target =>
    refine ⟨[.jump target, .nop], grows_block ?_ (.jump target) (.refl _) id (fun _ => rfl) ?_⟩
    · exact CodeBuffer.code_emitAll d.code [.jump target, .nop]
    · intro l event
      contradiction
  | @bind label code bound =>
    obtain ⟨unbound, same, positions⟩ := CodeBuffer.bind_eq_ok bound
    refine ⟨[], ?_, ?_, .refl _, id, ?_, ?_, ?_⟩
    · simp [same, codeOf]
    · intro b hb
      obtain rfl := List.mem_singleton.1 hb
      exact .bind label
    · intro l p position
      rw [positions, if_neg]
      · exact position
      · rintro rfl
        simp [unbound] at position
    · intro l position
      simp only [positions, site?, Event.bind.injEq]
      by_cases hl : l = label
      · simp [hl, CodeBuffer.position]
      · simp [hl, Ne.symm hl, position]
    · intro l b hb event
      obtain rfl := List.mem_singleton.1 hb
      simp only [Event.bind.injEq] at event
      subst event
      exact unbound

theorem grows_of_makeLabel {d d' : Draft} {l : Label} (h : e.sink.makeLabel.run d = .ok l d') :
    e.Grows d [] d' := by
  cases h
  refine grows_nil ?_ rfl ?_
  · exact CodeBuffer.code_localLabel d.code
  · exact CodeBuffer.position?_localLabel d.code

theorem traces_grows (e : Emission) :
    e.sink.Traces fun d vs _ d' => ∃ bs, bs.map Block.event = vs ∧ e.Grows d bs d' where
  nil d := ⟨[], rfl, grows_nil rfl rfl fun _ => rfl⟩
  append := by
    rintro d₁ d₂ d₃ _ _ _ _ ⟨bs, rfl, first⟩ ⟨bs', rfl, rest⟩
    exact ⟨bs ++ bs', List.map_append, first.trans rest⟩
  perform performed := by
    obtain ⟨is, grows⟩ := grows_of_perform performed
    exact ⟨[⟨_, is⟩], rfl, grows⟩
  makeLabel label := ⟨[], rfl, grows_of_makeLabel label⟩

/-- A run adds the blocks of its events. -/
theorem grows_of_serves {routes : Routes} {rs : List Request} {made made' : Array Label}
    {vs : List Event} {d d' : Draft} (h : e.sink.Serves routes rs made d vs made' d') :
    ∃ bs, bs.map Block.event = vs ∧ e.Grows d bs d' := by
  obtain ⟨-, -, grows⟩ := e.traces_grows.serves h
  exact grows

end Emission

/-! ## How far the pool grows -/

theorem Key.size_reserve_le_add (key : Key) (p : ConstantPool) :
    (key.reserve p).size ≤ p.size + 16 := by
  unfold reserve
  cases key.constant? with
  | none => exact Nat.le_add_right _ _
  | some c =>
    have slots := p.size_intern_lt c
    have width : c.width.bytes ≤ 8 := by cases c.width <;> decide
    simp only
    omega

theorem Emission.traces_size_pool (e : Emission) :
    e.sink.Traces fun d vs _ d' => d'.pool.size ≤ d.pool.size + vs.length * 16 where
  nil d := Nat.le_add_right _ _
  append first rest := by
    rw [List.length_append, Nat.add_mul]
    omega
  perform performed := by
    cases performs_of_perform performed with
    | @test _ key _ condition target _ compared =>
      obtain ⟨-, rfl⟩ := run_compare_eq_ok_iff.1 compared
      exact key.size_reserve_le_add _
    | jump target => exact Nat.le_add_right _ _
    | bind bound => exact Nat.le_add_right _ _
  makeLabel label := by
    cases label
    exact Nat.le_add_right _ _

/-- An event takes sixteen bytes of the pool at most, for a slot and the gap before it. -/
theorem Emission.size_pool_le_of_serves {e : Emission} {routes : Routes} {rs : List Request}
    {made made' : Array Label} {vs : List Event} {d d' : Draft}
    (h : e.sink.Serves routes rs made d vs made' d') :
    d'.pool.size ≤ d.pool.size + vs.length * 16 := by
  obtain ⟨-, -, bound⟩ := e.traces_size_pool.serves h
  exact bound

end Multiway
