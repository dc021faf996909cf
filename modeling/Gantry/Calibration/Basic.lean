import Gantry.Calibration.Normalization
import Gantry.Calibration.Refinement
import Gantry.Network.Document
import Gantry.Training.Fit

/-!
Calibrations: a network that predicts the actual state for a commanded one, in
coordinates of its own. Going back from an actual state refines a command until
the network predicts that state.
-/

namespace Gantry

open Gantry.Network (Failure)

structure Calibration where
  network : Network
  /-- How the network was trained, if it was trained here. -/
  result : Option (Training.Result Binary64)
  normalization : Normalization Binary64
  deriving Inhabited

namespace Calibration

inductive Flaw where
  /-- Coordinates are given, but predictions are not states. -/
  | notSquare
  | width (expected : Nat)
  | zeroScale
  | network (f : Failure)
  deriving Inhabited

def Flaw.asFault : Flaw → Fault
  | .notSquare => .shape "normalized calibration needs a network with equal input and output width"
  | .width expected => .shape ("offset and scale must have " ++ toString expected ++ " entries")
  | .zeroScale => .value (some "scale entries must be non-zero")
  | .network f => f.asFault

/-- Numbers given as a vector, or arranged in another way. -/
inductive Entries where
  | vector (xs : List Binary64)
  | other
  deriving Inhabited

def Entries.hasLength (n : Nat) : Entries → Bool
  | .vector xs => xs.length == n
  | .other => false

def Entries.toList : Entries → List Binary64
  | .vector xs => xs
  | .other => []

/-- A calibration by a network, in the given coordinates or in plain ones. -/
def make (network : Network) (result : Option (Training.Result Binary64))
    (offset scale : Option Entries) : Except Flaw Calibration :=
  let plain : Normalization Binary64 := Normalization.trivial network.inputs
  let offsets := offset.getD (.vector plain.offset)
  let scales := scale.getD (.vector plain.scale)
  if (offset.isSome || scale.isSome) && network.inputs != network.outputs then .error .notSquare
  else if !(offsets.hasLength network.inputs && scales.hasLength network.inputs) then
    .error (.width network.inputs)
  else if scales.toList.any Binary64.isZero then .error .zeroScale
  else .ok ⟨network, result, ⟨offsets.toList, scales.toList⟩⟩

def isSquare (c : Calibration) : Bool := c.network.inputs == c.network.outputs

def misfit : Failure := .fault (.value none)

/-- The predicted actual state for a commanded state. -/
def actualWith (c : Calibration) (forward : Except Failure Memo.Evaluator) (state : List Binary64) :
    Except Failure (List Binary64) :=
  c.normalization.predictActual c.isSquare misfit
    (fun coordinates => c.network.predictWith forward (coordinates.map fun x => some (.real x))) state

def toActual [Memo.Stack] [Algebra.Engine] (c : Calibration) (state : List Binary64) :
    Except Failure (List Binary64) × Calibration :=
  let (forward, network) := c.network.forward
  (c.actualWith forward state, { c with network })

/-- How far a command is refined; a tolerance that cannot be compared with
matters once there is something to compare. -/
structure Effort where
  rounds : Nat
  tolerance : Except Fault Binary64

def Effort.standard : Effort := ⟨50, .ok (Binary64.ofDecimal false 1 (-10))⟩

def nominalWith (c : Calibration) (forward : Except Failure Memo.Evaluator) (effort : Effort)
    (actual : List Binary64) : Except Failure (List Binary64) :=
  match effort.tolerance with
  | .ok tolerance =>
    Refinement.refine (c.actualWith forward) misfit actual tolerance effort.rounds actual
  | .error f =>
    if effort.rounds = 0 then .ok actual
    else
      match Refinement.round (c.actualWith forward) misfit actual actual with
      | .error e => .error e
      | .ok _ => .error (.fault f)

/-- The commanded state whose predicted actual state is the given one. -/
def toNominal [Memo.Stack] [Algebra.Engine] (c : Calibration) (effort : Effort)
    (actual : List Binary64) :
    Except Failure (List Binary64) × Calibration :=
  let (forward, network) := c.network.forward
  (c.nominalWith forward effort actual, { c with network })

end Calibration

end Gantry
