import Multiway.Assembly.Label
import Mathlib.Order.Basic
import Mathlib.Order.Nat
import Mathlib.Tactic.Common

/-!
# Runs of a piece of code

A piece of code is run step by step until control departs from it. A run that never departs loops.
Two pieces of code behave alike if they depart in the same way from related states. For this it is
enough that the second one follows each step of the first one in some number of steps, where it may
stand still only if the first one cannot do so for ever.
-/
namespace Multiway

/-- How control departs from a piece of code. -/
inductive Departure where
  /-- It goes to a label outside the code. -/
  | through (l : Label)
  /-- It arrives at the end of the code. -/
  | falls
  /-- It goes anywhere else. -/
  | astray
  deriving DecidableEq, Repr

section

variable {σ τ : Type}

/-- The departure within a number of steps, if there is one. -/
def departure? (step : σ → Except Departure σ) : ℕ → σ → Option Departure
  | 0, _ => none
  | n + 1, x =>
    match step x with
    | .error d => some d
    | .ok y => departure? step n y

/-- The run from a state ends in a departure. -/
def Departs (step : σ → Except Departure σ) (x : σ) (d : Departure) : Prop :=
  ∃ n, departure? step n x = some d

/-- A number of steps leads from one state to another. -/
inductive Path (step : σ → Except Departure σ) : ℕ → σ → σ → Prop
  | stay (x : σ) : Path step 0 x x
  | step {n : ℕ} {x y z : σ} : step x = .ok y → Path step n y z → Path step (n + 1) x z

variable {step : σ → Except Departure σ} {step' : τ → Except Departure τ}

theorem Path.trans {m n : ℕ} {x y z : σ} (first : Path step m x y) (second : Path step n y z) :
    Path step (m + n) x z := by
  induction first with
  | stay x => rwa [Nat.zero_add]
  | @step m x y z taken _ ih =>
    rw [Nat.add_right_comm]
    exact .step taken (ih second)

theorem Path.departure? {n : ℕ} {x y : σ} (path : Path step n x y) (m : ℕ) :
    departure? step (n + m) x = departure? step m y := by
  induction path with
  | stay x => rw [Nat.zero_add]
  | @step n x y z taken _ ih =>
    rw [Nat.add_right_comm, Multiway.departure?, taken]
    exact ih

theorem departure?_eq_none {x y : σ} {m n : ℕ} (path : Path step n x y) (h : m ≤ n) :
    departure? step m x = none := by
  induction path generalizing m with
  | stay x =>
    obtain rfl := Nat.le_zero.1 h
    rfl
  | @step n x y z taken _ ih =>
    cases m with
    | zero => rfl
    | succ m =>
      rw [departure?, taken]
      exact ih (Nat.le_of_succ_le_succ h)

/-- A run that departs has the rest of the run left after any path from its beginning. -/
theorem Path.rest {n k : ℕ} {x y : σ} {d : Departure} (path : Path step n x y)
    (h : Multiway.departure? step k x = some d) :
    ∃ m, k = n + m ∧ Multiway.departure? step m y = some d := by
  by_cases hk : k ≤ n
  · rw [departure?_eq_none path hk] at h
    contradiction
  · obtain ⟨m, rfl⟩ := Nat.exists_eq_add_of_le (Nat.le_of_not_le hk)
    exact ⟨m, rfl, by rwa [path.departure?] at h⟩

/-- Where a step departs, the run departs in this way and in no other. -/
theorem departs_iff_of_error {x : σ} {d : Departure} (left : step x = .error d) (d' : Departure) :
    Departs step x d' ↔ d' = d := by
  constructor
  · rintro ⟨n, hn⟩
    cases n with
    | zero => contradiction
    | succ n =>
      rw [departure?, left] at hn
      exact (Option.some.inj hn).symm
  · rintro rfl
    exact ⟨1, by rw [departure?, left]⟩

/-- A run departs as the rest of it does after a step. -/
theorem departs_iff_of_ok {x y : σ} (taken : step x = .ok y) (d : Departure) :
    Departs step x d ↔ Departs step y d := by
  constructor
  · rintro ⟨n, hn⟩
    cases n with
    | zero => contradiction
    | succ n =>
      rw [departure?, taken] at hn
      exact ⟨n, hn⟩
  · rintro ⟨n, hn⟩
    exact ⟨n + 1, by rwa [departure?, taken]⟩

/-- The second system gets from `y` to what a step of the first one from `x` comes to. -/
def KeepsUp (step' : τ → Except Departure τ) (R : σ → τ → Prop) (patience : σ → ℕ) (x : σ) (y : τ) :
    Except Departure σ → Prop
  | .error d => ∃ n z, Path step' n y z ∧ step' z = .error d
  | .ok x' => ∃ n z, Path step' n y z ∧ R x' z ∧ (0 < n ∨ patience x' < patience x)

/-- The second system follows each step of the first one from related states. -/
def Follows (step : σ → Except Departure σ) (step' : τ → Except Departure τ) (R : σ → τ → Prop)
    (patience : σ → ℕ) : Prop :=
  ∀ x y, R x y → KeepsUp step' R patience x y (step x)

variable {R : σ → τ → Prop} {patience : σ → ℕ}

theorem departs_of_follows (follows : Follows step step' R patience) {x : σ} {y : τ}
    (h : R x y) {d : Departure} (departs : Departs step x d) : Departs step' y d := by
  obtain ⟨n, hn⟩ := departs
  induction n generalizing x y with
  | zero => contradiction
  | succ n ih =>
    have once := follows x y h
    rw [departure?] at hn
    cases taken : step x with
    | error d' =>
      simp only [taken, KeepsUp] at once hn
      obtain ⟨k, z, path, last⟩ := once
      refine ⟨k + 1, ?_⟩
      rw [path.departure?, departure?, last]
      exact hn
    | ok x' =>
      simp only [taken, KeepsUp] at once hn
      obtain ⟨k, z, path, related, -⟩ := once
      obtain ⟨m, hm⟩ := ih related hn
      exact ⟨k + m, by rw [path.departure?, hm]⟩

theorem departs_of_followed (follows : Follows step step' R patience) {x : σ} {y : τ}
    (h : R x y) {d : Departure} (departs : Departs step' y d) : Departs step x d := by
  obtain ⟨k, hk⟩ := departs
  -- either the second system comes closer to its departure, or the first one loses patience
  induction k using Nat.strong_induction_on generalizing x y with
  | _ k closer =>
    induction hp : patience x using Nat.strong_induction_on generalizing x y with
    | _ p waiting =>
      have once := follows x y h
      cases taken : step x with
      | error d' =>
        simp only [taken, KeepsUp] at once
        obtain ⟨n, z, path, last⟩ := once
        obtain ⟨m, rfl, hm⟩ := path.rest hk
        refine ⟨1, ?_⟩
        cases m with
        | zero => contradiction
        | succ m =>
          rw [departure?, last] at hm
          rw [departure?, taken]
          exact hm
      | ok x' =>
        simp only [taken, KeepsUp] at once
        obtain ⟨n, z, path, related, progress⟩ := once
        obtain ⟨m, rfl, hm⟩ := path.rest hk
        have later : Departs step x' d := by
          by_cases hn : 0 < n
          · exact closer m (by omega) related hm
          · obtain rfl : n = 0 := by omega
            have lost : patience x' < p := by omega
            exact waiting _ lost related (by rwa [Nat.zero_add]) rfl
        obtain ⟨n', hn'⟩ := later
        refine ⟨n' + 1, ?_⟩
        rw [departure?, taken]
        exact hn'

/-- Where each step of one system is followed by the other, both depart in the same way. -/
theorem departs_iff_of_follows (follows : Follows step step' R patience) {x : σ} {y : τ}
    (h : R x y) (d : Departure) : Departs step' y d ↔ Departs step x d :=
  ⟨departs_of_followed follows h, departs_of_follows follows h⟩

end

end Multiway
