import Multiway.Lowering.Switch
import Mathlib.Tactic.Common

/-!
# What the check of a switch establishes

A switch that passes the check is fit to be emitted: it has a target for each of its keys, each
immediate key fits its operand, and there are registers for what has to be loaded.
-/
namespace Multiway

/-- What holds of a switch that has passed the check. -/
structure Switch.Accepted (s : Switch) : Prop where
  keys_nonempty : 0 < s.keys.size
  targets_size : s.routes.targets.size = s.keys.size
  immediates : ∀ {value : Int32}, .immediate value ∈ s.keys →
    FitsSigned Key.immediateBits value.toInt
  scratch_ne_zero : ¬s.scratch.isZero
  scratch_ne_value : s.scratch ≠ s.value
  base_ne_zero : ∀ {r : Register}, s.base = some r → ¬r.isZero
  base_of_pooled : ∀ {k : Key}, k ∈ s.keys → k.isPooled → s.base.isSome

namespace Switch

/-- An accepted switch has a base to load its keys from. -/
theorem Accepted.not_isZero_base {s : Switch} (h : s.Accepted) {k : Key} (mem : k ∈ s.keys)
    (pooled : k.isPooled) : ¬s.emission.base.isZero := by
  obtain ⟨r, base⟩ := Option.isSome_iff_exists.1 (h.base_of_pooled mem pooled)
  simp only [emission, base, Option.getD_some]
  exact h.base_ne_zero base

theorem immediates_of_wideImmediate? {s : Switch} (h : s.wideImmediate? = none) {value : Int32}
    (mem : .immediate value ∈ s.keys) : FitsSigned Key.immediateBits value.toInt := by
  have narrow := Array.findSome?_eq_none_iff.1 h _ mem
  by_contra wide
  simp [wide] at narrow

/-- What the check asks of a switch. -/
structure Fit (t : Switch) : Prop where
  keys_nonempty : ¬t.keys.isEmpty
  targets_size : t.keys.size = t.routes.targets.size
  immediates : t.wideImmediate? = none
  scratch_ne_zero : ¬t.scratch.isZero
  scratch_ne_value : t.scratch ≠ t.value
  base_of_pooled : ¬((t.base.filter (!·.isZero)).isNone && t.keys.any (·.isPooled))

/-- The check passes a switch exactly if it is fit, and changes nothing but the base. -/
theorem check_eq_ok_iff {t s : Switch} :
    t.check = .ok s ↔ t.Fit ∧ s = { t with base := t.base.filter (!·.isZero) } := by
  unfold check
  simp only [bind, Except.bind, pure, Except.pure, throw, throwThe, MonadExceptOf.throw]
  constructor
  · intro accepted
    by_cases empty : t.keys.isEmpty
    · simp [empty] at accepted
    by_cases sizes : t.keys.size ≠ t.routes.targets.size
    · simp [empty, sizes] at accepted
    cases wide : t.wideImmediate? with
    | some value =>
      simp only [if_neg empty, if_neg sizes, wide] at accepted
      contradiction
    | none =>
      simp only [if_neg empty, if_neg sizes, wide] at accepted
      by_cases zero : t.scratch.isZero
      · simp [zero] at accepted
      by_cases value : t.scratch = t.value
      · simp only [if_neg zero, if_pos value] at accepted
        contradiction
      by_cases pooled : (t.base.filter (!·.isZero)).isNone && t.keys.any (·.isPooled)
      · simp only [if_neg zero, if_neg value, if_pos pooled] at accepted
        contradiction
      · simp only [if_neg zero, if_neg value, if_neg pooled, Except.ok.injEq] at accepted
        exact ⟨⟨empty, not_not.1 sizes, wide, zero, value, pooled⟩, accepted.symm⟩
  · rintro ⟨fit, rfl⟩
    simp only [if_neg fit.keys_nonempty, if_neg (not_not.2 fit.targets_size), fit.immediates,
      if_neg fit.scratch_ne_zero, if_neg fit.scratch_ne_value, if_neg fit.base_of_pooled]

theorem accepted_of_check {t s : Switch} (h : t.check = .ok s) : s.Accepted := by
  obtain ⟨fit, rfl⟩ := check_eq_ok_iff.1 h
  refine ⟨?_, fit.targets_size.symm, immediates_of_wideImmediate? fit.immediates,
    fit.scratch_ne_zero, fit.scratch_ne_value, ?_, ?_⟩
  · exact Array.size_pos_iff.2 fun none => fit.keys_nonempty (Array.isEmpty_iff.2 none)
  · intro r hr
    simpa using (Option.filter_eq_some_iff.1 hr).2
  · intro k mem loaded
    by_contra none
    refine fit.base_of_pooled ?_
    rw [Bool.and_eq_true, Array.any_eq_true', Option.isNone_iff_eq_none]
    exact ⟨Option.not_isSome_iff_eq_none.1 none, k, mem, loaded⟩

end Switch

end Multiway
