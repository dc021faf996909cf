import Gantry.Scalar

/-!
Coordinates in which a network is trained: each component is centred on an
offset and measured in units of a scale.
-/

namespace Gantry

structure Normalization (α : Type) where
  offset : List α
  scale : List α
  deriving DecidableEq, Inhabited

namespace Normalization

variable {α : Type} [Scalar α]

/-- The coordinates of a state. -/
def coordinates? (n : Normalization α) (state : List α) : Option (List α) :=
  (entrywise (· - ·) state n.offset).bind fun centred => entrywise (· / ·) centred n.scale

/-- The state at some coordinates. -/
def state? (n : Normalization α) (coordinates : List α) : Option (List α) :=
  (entrywise (· * ·) coordinates n.scale).bind fun scaled => entrywise (· + ·) scaled n.offset

/-- Coordinates that are the states themselves. -/
def trivial (width : Nat) : Normalization α :=
  ⟨List.replicate width Scalar.zero, List.replicate width Scalar.one⟩

/-- A prediction made in normalized coordinates. Only a prediction that is a
state again is taken back. -/
def predictActual {ε : Type} (n : Normalization α) (square : Bool) (misfit : ε)
    (predict : List α → Except ε (List α)) (state : List α) : Except ε (List α) :=
  match n.coordinates? state with
  | none => .error misfit
  | some coordinates =>
    match predict coordinates with
    | .error f => .error f
    | .ok predicted =>
      if square then
        match n.state? predicted with
        | none => .error misfit
        | some actual => .ok actual
      else .ok predicted

end Normalization

end Gantry
