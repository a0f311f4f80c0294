import Multiway.Proofs.Dispatch.Requests
import Mathlib.Data.List.Forall2

/-!
# Two sinks in lockstep

Two sinks that are asked for the same make labels of their own, so the events that they perform
differ in labels. If every event that one of them performs can be followed by the other, so can
every run.
-/
namespace Multiway

/-- Events that differ in labels at most. -/
inductive Event.Alike : Event → Event → Prop
  | test (index : ℕ) (condition : Condition) (l l' : Label) :
    Alike (.test index condition l) (.test index condition l')
  | jump (l l' : Label) : Alike (.jump l) (.jump l')
  | bind (l l' : Label) : Alike (.bind l) (.bind l')

theorem Event.Alike.refl : (v : Event) → v.Alike v
  | .test .. => .test ..
  | .jump _ => .jump ..
  | .bind _ => .bind ..

/-- A label can be told as soon as enough labels have been made. -/
theorem LabelRef.label?_of_size_eq {made made' : Array Label} (size : made'.size = made.size)
    {ref : LabelRef} {l : Label} (h : ref.label? made = .ok l) :
    ∃ l', ref.label? made' = .ok l' := by
  cases ref with
  | known label => exact ⟨label, rfl⟩
  | fresh n =>
    have inside : n < made.size := by
      by_contra outside
      simp [label?, Array.getElem?_eq_none (Nat.le_of_not_lt outside)] at h
    rw [← size] at inside
    exact ⟨made'[n], by simp [label?, inside]⟩

/-- What a request comes down to depends on the labels made only in the labels that it names. -/
theorem Request.events_of_size_eq {routes : Routes} {made made' : Array Label}
    (size : made'.size = made.size) {r : Request} {vs : List Event}
    (h : r.events routes made = .ok vs) :
    ∃ vs', r.events routes made' = .ok vs' ∧ List.Forall₂ Event.Alike vs vs' := by
  have label {ref : LabelRef} {f : Label → List Event}
      (alike : ∀ l l', List.Forall₂ Event.Alike (f l) (f l'))
      (h : (ref.label? made).map f = .ok vs) :
      ∃ vs', (ref.label? made').map f = .ok vs' ∧ List.Forall₂ Event.Alike vs vs' := by
    cases told : ref.label? made with
    | error e => simp [told, Except.map] at h
    | ok l =>
      simp only [told, Except.map, Except.ok.injEq] at h
      obtain ⟨l', told'⟩ := LabelRef.label?_of_size_eq size told
      rw [told']
      exact ⟨f l', rfl, h ▸ alike l l'⟩
  cases r with
  | test index condition target => exact label (fun l l' => .cons (.test ..) .nil) h
  | jump target => exact label (fun l l' => .cons (.jump ..) .nil) h
  | bind l => exact label (fun l l' => .cons (.bind ..) .nil) h
  | askFallsTo l => exact label (fun _ _ => .nil) h
  | _ => exact ⟨vs, h, List.forall₂_same.2 fun v _ => .refl v⟩

namespace Sink

variable {σ τ : Type} {s : Sink σ} {t : Sink τ} {R : σ → τ → Prop}

/-- Whatever the first sink does, the second one can do too, and what is between their states is
kept. -/
structure Leads (s : Sink σ) (t : Sink τ) (R : σ → τ → Prop) : Prop where
  perform : ∀ {v v' : Event} {x x' : σ} {y : τ}, v.Alike v' → R x y →
    (s.perform v).run x = .ok () x' → ∃ y', (t.perform v').run y = .ok () y' ∧ R x' y'
  makeLabel : ∀ {l : Label} {x x' : σ} {y : τ}, R x y → s.makeLabel.run x = .ok l x' →
    ∃ l' y', t.makeLabel.run y = .ok l' y' ∧ R x' y'

theorem Leads.performAll (leads : s.Leads t R) {vs vs' : List Event}
    (alike : List.Forall₂ Event.Alike vs vs') {x x' : σ} {y : τ} (related : R x y)
    (performed : (s.performAll vs).run x = .ok () x') :
    ∃ y', (t.performAll vs').run y = .ok () y' ∧ R x' y' := by
  induction alike generalizing x y with
  | nil =>
    cases performed
    exact ⟨y, rfl, related⟩
  | @cons v v' vs vs' first _ ih =>
    rw [Sink.performAll, EStateM.run_bind] at performed
    cases here : (s.perform v).run x with
    | error e z => simp [here] at performed
    | ok _ z =>
      simp only [here] at performed
      obtain ⟨w, followed, related⟩ := leads.perform first related here
      obtain ⟨y', rest, related⟩ := ih related performed
      refine ⟨y', ?_, related⟩
      rw [Sink.performAll, EStateM.run_bind, followed]
      exact rest

theorem Leads.serves (leads : s.Leads t R) {routes : Routes} {rs : List Request}
    {made made' : Array Label} {x x' : σ} {vs : List Event}
    (served : s.Serves routes rs made x vs made' x') {labels : Array Label} {y : τ}
    (size : labels.size = made.size) (related : R x y) :
    ∃ vs' labels' y', t.Serves routes rs labels y vs' labels' y' ∧ R x' y' := by
  induction served generalizing labels y with
  | done => exact ⟨[], labels, y, .done, related⟩
  | @make _ before _ _ _ _ l _ label _ ih =>
    obtain ⟨l', w, made, related⟩ := leads.makeLabel related label
    have sizes : (labels.push l').size = (before.push l).size := by simp [size]
    obtain ⟨vs', labels', y', rest, related⟩ := ih sizes related
    exact ⟨vs', labels', y', .make made rest, related⟩
  | perform hr events performed _ ih =>
    obtain ⟨us', events', alike⟩ := Request.events_of_size_eq size events
    obtain ⟨w, followed, related⟩ := leads.performAll alike related performed
    obtain ⟨vs', labels', y', rest, related⟩ := ih size related
    exact ⟨us' ++ vs', labels', y', .perform hr events' followed rest, related⟩

/-- A run of the first sink is followed by the second one. -/
theorem Leads.run (leads : s.Leads t R) {routes : Routes} {rs : List Request} {x x' : σ} {y : τ}
    (related : R x y) (run : s.run routes rs x = .ok () x') :
    ∃ y', t.run routes rs y = .ok () y' ∧ R x' y' := by
  obtain ⟨vs, made, served⟩ := run_eq_ok_iff.1 run
  obtain ⟨vs', labels, y', served', related⟩ := leads.serves served rfl related
  exact ⟨y', run_eq_ok_iff.2 ⟨vs', labels, served'⟩, related⟩

end Sink

end Multiway
