import Gantry.Frame.Walk

/-!
Calibrating a frame: one affine layer is trained on examples in coordinates in
which every component of the state is centred and scaled by half its range.
-/

namespace Gantry.Frame

/-- Half of a number, as a double. -/
def half : Number → Except Fault Binary64
  | .int n =>
    let x := Binary64.ofRatio (n < 0) n.natAbs 2
    if x.isFinite then .ok x else .error .overflow
  | .real x => .ok (x / Binary64.ofNat 2)

def halfOf (op : Number → Number → Option Number) (a b : Number) : Except Fault Binary64 := do
  half (← Value.combine op (some a) (some b))

/-- Coordinates centred on the middle of each range, in units of half of it;
deadbands stay as they are. -/
def normalization (f : Frame) : Except Fault (Normalization Binary64) := do
  let middles ← f.drives.mapM fun d => halfOf Number.add d.low d.high
  let ranges ← f.drives.mapM fun d => halfOf Number.sub d.high d.low
  let deadbands (x : Binary64) := if f.backlash.active then f.axes.map fun _ => x else []
  return ⟨middles ++ deadbands Binary64.zero, ranges ++ deadbands Binary64.one⟩

def normalize (n : Normalization Binary64) (xs : List Binary64) : Except Fault (List Binary64) :=
  match n.coordinates? xs with
  | some ys => .ok ys
  | none => .error (.value none)

def normalizeExample (n : Normalization Binary64) (e : Training.Example Binary64) :
    Except Fault (Training.Example Binary64) := do
  let input ← normalize n e.input
  let target ← normalize n e.target
  return ⟨input, target⟩

/-- A network of one affine layer that begins as the identity. -/
def affineNetwork (width : Nat) : Except Network.Failure Network := do
  let layer ← Network.Dense.make width "identity" "identity" none []
  let net ← Network.empty true width
  -- An identity is not drawn.
  let (added, net, _) := net.add (.loose (.dense layer)) default
  added
  return net

/-- What is trained for a frame: coordinates, examples in them, and a network. -/
structure Task where
  normalization : Normalization Binary64
  examples : List (Training.Example Binary64)
  network : Network
  deriving Inhabited

def task (f : Frame) (examples : List (Training.Example Binary64)) : Except Failure Task := do
  let n ← f.normalization.mapError .fault
  let examples ← (examples.mapM (normalizeExample n)).mapError .fault
  let network ← (affineNetwork n.offset.length).mapError fun e => .fault e.asFault
  return ⟨n, examples, network⟩

/-- What calibrating did to a frame. -/
structure Outcome where
  frame : Frame
  /-- The training, if it came to that. -/
  fit : Option Training.Fit
  result : Except Failure (Training.Result Binary64)
  deriving Inhabited

/-- Trains a network for a frame. The frame changes only if that succeeds. -/
def calibrate [Memo.Stack] [Algebra.Engine] (f : Frame) (s : Training.Settings)
    (examples : List (Training.Example Binary64)) (observer : Training.Observer) : Outcome :=
  match f.task examples with
  | .error e => ⟨f, none, .error e⟩
  | .ok t =>
    let fit := Training.fit t.network s t.examples observer
    match fit.outcome with
    | .error e => ⟨f, some fit, .error (.fit e)⟩
    | .ok r =>
      match Calibration.make fit.network (some r) (some (.vector t.normalization.offset))
          (some (.vector t.normalization.scale)) with
      | .error e => ⟨f, some fit, .error (.calibration e)⟩
      | .ok c => ⟨{ f with calibration := some c }, some fit, .ok r⟩

end Gantry.Frame
