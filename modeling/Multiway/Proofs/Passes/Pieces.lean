import Multiway.Proofs.Passes.Outline
import Multiway.Proofs.Search.Uses

/-!
# Pieces of events

An event becomes a piece of the outline, and its key, if it is pooled, takes its place among the
constants. Both depend on the events before it and not on the pass.
-/
namespace Multiway

def Piece.use : Piece → Use
  | comparison c => .test c.target
  | mark l => .bind l
  | _ => .none

namespace Piece

theorem comparesTo_iff_use {x : Piece} {l : Label} : x.comparesTo l ↔ x.use = .test l := by
  cases x <;> simp [comparesTo, use]

theorem eq_mark_iff_use {x : Piece} {l : Label} : x = .mark l ↔ x.use = .bind l := by
  cases x <;> simp [use]

end Piece

namespace Emission

/-- The key of an index; what stands for those that are missing does not matter. -/
def keyAt (e : Emission) (index : ℕ) : Key := e.keys.getD index (.immediate 0)

theorem keys_eq {e : Emission} {index : ℕ} (h : index < e.keys.size) :
    e.keys[index]? = some (e.keyAt index) := by
  simp [keyAt, h]

def piece (e : Emission) (p : ConstantPool) : Event → Piece
  | .test index condition target =>
    .comparison { emission := e, key := e.keyAt index, condition, target, pool := p }
  | .jump target => .jump target
  | .bind label => .mark label

def reserve (e : Emission) (p : ConstantPool) : Event → ConstantPool
  | .test index _ _ => (e.keyAt index).reserve p
  | _ => p

def pieces (e : Emission) : List Event → ConstantPool → List Piece
  | [], _ => []
  | v :: vs, p => e.piece p v :: e.pieces vs (e.reserve p v)

def reserveAll (e : Emission) (vs : List Event) (p : ConstantPool) : ConstantPool :=
  vs.foldl e.reserve p

@[simp] theorem length_pieces (e : Emission) (vs : List Event) (p : ConstantPool) :
    (e.pieces vs p).length = vs.length := by
  induction vs generalizing p with
  | nil => rfl
  | cons v vs ih => rw [pieces, List.length_cons, List.length_cons, ih]

theorem pieces_append (e : Emission) (vs ws : List Event) (p : ConstantPool) :
    e.pieces (vs ++ ws) p = e.pieces vs p ++ e.pieces ws (e.reserveAll vs p) := by
  induction vs generalizing p with
  | nil => rfl
  | cons v vs ih =>
    rw [List.cons_append, pieces, ih]
    rfl

/-- The pieces of events do with labels what the events do. -/
theorem map_use_pieces (e : Emission) (vs : List Event) (p : ConstantPool) :
    (e.pieces vs p).map Piece.use = vs.map Event.use := by
  induction vs generalizing p with
  | nil => rfl
  | cons v vs ih =>
    rw [pieces, List.map_cons, List.map_cons, ih]
    cases v <;> rfl

/-- Nothing is missing to load a key of a switch. -/
def Loadable (e : Emission) : Event → Prop
  | .test index _ _ => index < e.keys.size ∧ ((e.keyAt index).isPooled → ¬e.base.isZero)
  | _ => True

end Emission

end Multiway
