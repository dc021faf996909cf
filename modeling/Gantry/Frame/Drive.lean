import Gantry.Document.Datum
import Gantry.Formula.Value

/-!
Drives, which move an axis between two limits, and axes as they stand. Moving
an axis pushes its deadband towards one half, or towards minus one half on the
way back; at the lower limit the deadband takes the value it has at home.
-/

namespace Gantry

structure Drive where
  low : Number
  high : Number
  name : Option String
  low_lt_high : low.lt high = true
  deriving DecidableEq

instance : Inhabited Drive := ⟨⟨.int 0, .int 1, none, rfl⟩⟩

namespace Drive

def make? (low high : Number) (name : Option String) : Option Drive :=
  if h : low.lt high = true then some ⟨low, high, name, h⟩ else none

/-- The nearest position within the limits. -/
def clip (d : Drive) (position : Number) : Number := (d.low.larger position).smaller d.high

/-- Names of the first axes. -/
def axisNames : List String := ["X", "Y", "Z", "A", "B", "C"]

/-- Gives a drive without a name one for its place. -/
def withName (d : Drive) (index : Nat) : Drive :=
  match d.name with
  | some _ => d
  | none => { d with name := some (axisNames.getD index ("Drive" ++ toString (index + 1))) }

def datum (d : Drive) : Datum :=
  .object [("min_pos", .number d.low), ("max_pos", .number d.high),
    ("name", match d.name with | some s => .text s | none => .null)]

end Drive

/-- How deadbands follow moves. -/
structure Backlash where
  /-- Whether deadbands are modelled at all. -/
  active : Bool
  /-- How sharply a deadband turns. -/
  scale : Value
  /-- The deadband of an axis at its lower limit. -/
  home : Value
  deriving DecidableEq, Inhabited

structure Axis where
  drive : Drive
  position : Value
  deadband : Value
  deriving DecidableEq, Inhabited

namespace Axis

/-- The greatest magnitude of a deadband. -/
def deadbandLimit : Number := .real Binary64.half

def deadbandFloor : Number := .real Binary64.half.neg

/-- The hyperbolic tangent of a number; whole ones must fit machine words. -/
def tanh : Number → Except Fault Number
  | .real x => .ok (.real x.tanh)
  | .int n =>
    match Whole.toReal? n with
    | some x => .ok (.real x.tanh)
    | none => .error (.type none)

/-- A deadband within its limits; the upper one if it is not a number. -/
def limitDeadband (d : Number) : Number := deadbandLimit.smaller (d.larger deadbandFloor)

/-- Where a move is counted from: zero if the position is not known. -/
def origin (a : Axis) : Number :=
  match a.position with
  | some p => if p.same (.int 0) then .real Binary64.zero else p
  | none => .real Binary64.zero

/-- The deadband after a move to another position. -/
def deadbandAt (b : Backlash) (a : Axis) (position : Number) : Except Fault Value :=
  if position.same a.drive.low then .ok b.home
  else do
    let delta ← Value.combine Number.sub (some position) (some a.origin)
    let push ← tanh (← Value.combine Number.mul b.scale (some delta))
    let moved ← Value.combine Number.add a.deadband (some push)
    return some (limitDeadband moved)

/-- Moves an axis as near to a position as its drive allows, or forgets where
it is. -/
def moveTo (b : Backlash) (a : Axis) : Value → Except Fault Axis
  | none => .ok { a with position := none }
  | some target =>
    let position := a.drive.clip target
    if b.active && !a.position.any position.same then do
      let deadband ← a.deadbandAt b position
      return { a with position := some position, deadband }
    else .ok { a with position := some position }

end Axis

end Gantry
