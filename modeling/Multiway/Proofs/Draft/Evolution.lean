import Multiway.Proofs.Draft.Rewinding

/-!
# Evolution of a draft

While a strategy makes its requests the draft grows, whether a request fails or not, and it stays
consistent. So whatever a run of requests has done before it fails can be taken back.
-/
namespace Multiway

namespace Draft

/-- The parts of a draft agree with each other. -/
structure Consistent (d : Draft) : Prop where
  code : d.code.Consistent
  pool : d.pool.Within

/-- The second draft has grown out of the first one. -/
structure Grown (d x : Draft) : Prop where
  code : d.code.Grown x.code
  pool : d.pool.Extends x.pool
  machine : x.machine = d.machine

/-- The second draft has grown out of the first one, and is consistent if the first one is. -/
def Evolves (d x : Draft) : Prop := d.Grown x ∧ (d.Consistent → x.Consistent)

theorem Evolves.refl (d : Draft) : d.Evolves d := ⟨⟨.refl _, .refl _, rfl⟩, id⟩

theorem Evolves.trans {d x y : Draft} (hdx : d.Evolves x) (hxy : x.Evolves y) : d.Evolves y :=
  ⟨⟨hdx.1.code.trans hxy.1.code, hdx.1.pool.trans hxy.1.pool,
    hxy.1.machine.trans hdx.1.machine⟩, fun h => hxy.2 (hdx.2 h)⟩

theorem evolves_of_code {d : Draft} {code : CodeBuffer} (grown : d.code.Grown code)
    (consistent : d.code.Consistent → code.Consistent) : d.Evolves { d with code } :=
  ⟨⟨grown, .refl _, rfl⟩, fun h => ⟨consistent h.code, h.pool⟩⟩

end Draft

theorem Emission.evolves_compare (e : Emission) (key : Key) (condition : Condition)
    (target : Label) (d : Draft) :
    d.Evolves (Sink.stateAfter (e.compare key condition target) d) := by
  have hinted : d.Evolves { d with code := (d.code.hintFor target).2 } :=
    Draft.evolves_of_code (CodeBuffer.grown_hintFor target) fun h => h.hintFor target
  unfold Sink.stateAfter
  rw [EStateM.run, compare_eq]
  cases planned : LoadPlan.forKey key e.base e.scratch d.pool with
  | error error => exact hinted
  | ok result =>
    obtain ⟨plan, pool⟩ := result
    simp only
    refine hinted.trans ⟨⟨CodeBuffer.grown_emitAll _, ?_, rfl⟩, fun h => ⟨h.code.emitAll _, ?_⟩⟩
    · exact (loads_of_forKey planned).2.1
    · unfold LoadPlan.forKey at planned
      split at planned
      · cases planned
        exact h.pool
      · split_ifs at planned
        simp only [Except.ok.injEq, Prod.mk.injEq] at planned
        rw [← planned.2]
        exact h.pool.intern _

/-- Whatever a strategy asks for, the draft grows, also if it fails. -/
theorem Emission.keeps_evolves (e : Emission) : e.sink.Keeps Draft.Evolves where
  refl := Draft.Evolves.refl
  trans := Draft.Evolves.trans
  perform v d := by
    cases v with
    | test index condition target =>
      simp only [Sink.perform, sink]
      cases e.keys[index]? with
      | none => exact .refl d
      | some key => exact e.evolves_compare key condition target d
    | jump target =>
      exact Draft.evolves_of_code (CodeBuffer.grown_emitAll [.jump target, .nop])
        fun h => h.emitAll [.jump target, .nop]
    | bind label =>
      unfold Sink.stateAfter
      simp only [Sink.perform, sink, EStateM.run]
      cases bound : d.code.bind label with
      | error error => exact .refl d
      | ok code =>
        exact Draft.evolves_of_code (CodeBuffer.grown_bind bound) fun h => h.bind bound
  makeLabel d := Draft.evolves_of_code CodeBuffer.grown_localLabel fun h => h.localLabel

namespace Switch

theorem evolves_run (s : Switch) (d : Draft) :
    d.Evolves (Sink.stateAfter (s.emission.sink.run s.routes s.strategy.requests) d) :=
  s.emission.keeps_evolves.run s.routes s.strategy.requests d

end Switch

end Multiway
