import Gantry.Calibration.Document
import Gantry.Frame.Drive

/-!
Frames: axes that move together. The state of a frame lists the positions of
its axes and, if backlash is modelled, their deadbands. Axes move one after the
other, so a move that fails half way has moved those before.
-/

namespace Gantry

structure Frame where
  axes : List Axis
  backlash : Backlash
  stream : Random.Stream
  calibration : Option Calibration
  deriving Inhabited

namespace Frame

inductive Failure where
  | limits
  | noDrives
  | stateLength (expected given : Nat)
  | positions (expected : Nat) (given : List Value)
  | axis (given : Number)
  /-- No sampled move was long enough. -/
  | noMove (separation tries : Value)
  | count
  | exampleCount (given : Nat) (expected : Number)
  /-- The first example does not start at home. -/
  | start (home given : List Binary64)
  | calibration (f : Calibration.Flaw)
  | fit (f : Training.FitFailure)
  | fault (f : Fault)
  deriving Inhabited

def valueDatum : Value → Datum
  | some n => .number n
  | none => .null

def valueText (v : Value) : String := (valueDatum v).literal

/-- Doubles in parentheses; a comma follows a single one. -/
def tupleText (xs : List Binary64) : String :=
  match xs with
  | [x] => "(" ++ Decimal.literalText x ++ ",)"
  | xs => "(" ++ ", ".intercalate (xs.map Decimal.literalText) ++ ")"

def Failure.asFault : Failure → Fault
  | .limits => .value (some "min_pos must be less than max_pos")
  | .noDrives => .value (some "a frame needs at least one drive")
  | .stateLength expected given =>
    .value (some ("expected state of length " ++ toString expected ++ ", got " ++ toString given))
  | .positions expected given =>
    .value (some ("expected " ++ toString expected ++ " axis positions, got " ++
      (Datum.list (given.map valueDatum)).literal))
  | .axis given => .value (some ("home() invalid axis: " ++ given.text))
  | .noMove separation tries =>
    .value (some ("no move at least " ++ valueText separation ++ " away found in " ++
      valueText tries ++ " tries"))
  | .count => .input "count must be a positive integer"
  | .exampleCount given expected =>
    .input ("frame produced " ++ toString given ++ " examples, expected " ++ expected.text)
  | .start home given =>
    .input ("first example must start at home " ++ tupleText home ++ ", got " ++ tupleText given)
  | .calibration f => f.asFault
  | .fit f => f.asFault
  | .fault f => f

def drives (f : Frame) : List Drive := f.axes.map Axis.drive

def positions (f : Frame) : List Value := f.axes.map Axis.position

def deadbands (f : Frame) : List Value := if f.backlash.active then f.axes.map Axis.deadband else []

def state (f : Frame) : List Value := f.positions ++ f.deadbands

/-- The length of states. -/
def width (f : Frame) : Nat := f.axes.length * if f.backlash.active then 2 else 1

/-- Puts positions and deadbands into axes; deadbands that are missing stay. -/
def placeAxes : List Axis → List Value → List Value → List Axis
  | a :: as, p :: ps, d :: ds => { a with position := p, deadband := d } :: placeAxes as ps ds
  | a :: as, p :: ps, [] => { a with position := p } :: placeAxes as ps []
  | as, _, _ => as

def setState (f : Frame) (state : List Value) : Except Failure Frame :=
  if state.length ≠ f.width then .error (.stateLength f.width state.length)
  else
    let n := f.axes.length
    .ok { f with axes := placeAxes f.axes (state.take n) (state.drop n) }

/-- Forgets all positions. -/
def clear (f : Frame) : Frame :=
  { f with axes := f.axes.map fun a => { a with position := none, deadband := f.backlash.home } }

def nameDrives : Nat → List Drive → List Drive
  | _, [] => []
  | i, d :: ds => d.withName i :: nameDrives (i + 1) ds

/-- The stream of a seed, or a fresh one without a seed. -/
def streamOf (fresh : Random.Stream) : Datum → Except Fault Random.Stream
  | .null => .ok fresh
  | .number (.int n) => if n < 0 then .error (.value none) else .ok (.ofSeed n.toNat)
  | .flag b => .ok (.ofSeed b.toNat)
  | _ => .error (.type none)

def make (drives : List Drive) (backlash : Backlash) (fresh : Random.Stream) (seed : Datum)
    (state : Option (List Value)) : Except Failure Frame :=
  if drives.isEmpty then .error .noDrives
  else
    match streamOf fresh seed with
    | .error f => .error (.fault f)
    | .ok stream =>
      let axes := (nameDrives 0 drives).map fun d => ⟨d, none, backlash.home⟩
      let frame : Frame := ⟨axes, backlash, stream, none⟩
      match state with
      | none => .ok frame
      | some state => frame.setState state

/-- Moves axes in order, up to the first that fails. -/
def moveAxes (b : Backlash) : List Axis → List Value → Except Fault Unit × List Axis
  | a :: as, v :: vs =>
    match a.moveTo b v with
    | .error f => (.error f, a :: as)
    | .ok a =>
      let (r, as) := moveAxes b as vs
      (r, a :: as)
  | as, _ => (.ok (), as)

/-- Moves every axis, or forgets where it is. -/
def setPositions (f : Frame) (targets : List Value) : Except Failure Unit × Frame :=
  if targets.length ≠ f.axes.length then (.error (.positions f.axes.length targets), f)
  else
    let (r, axes) := moveAxes f.backlash f.axes targets
    (r.mapError .fault, { f with axes })

def lows (f : Frame) : List Value := f.axes.map fun a => some a.drive.low

def home (f : Frame) : Except Failure Unit × Frame := f.setPositions f.lows

/-- The positions with that of one axis at its lower limit. -/
def lowered (axis : Number) : Nat → List Axis → List Value
  | _, [] => []
  | i, a :: as =>
    (if axis.same (.int i) then some a.drive.low else a.position) :: lowered axis (i + 1) as

def homeAxis (f : Frame) (axis : Number) : Except Failure Unit × Frame :=
  if (Number.int 0).le axis && axis.lt (.int f.axes.length) then
    f.setPositions (lowered axis 0 f.axes)
  else (.error (.axis axis), f)

/-- Targets in which a missing one is the old position. -/
def resolve : List Value → List Value → Except Fault (List Value)
  | _, [] => .ok []
  | old, some v :: vs => (resolve old.tail vs).map (some v :: ·)
  | p :: ps, none :: vs => (resolve ps vs).map (p :: ·)
  | [], none :: _ => .error .index

/-- Moves the axes for which there is a target. -/
def moveTo (f : Frame) (targets : List Value) : Except Failure Unit × Frame :=
  match resolve f.positions targets with
  | .error e => (.error (.fault e), f)
  | .ok targets => f.setPositions targets

/-- The state right after homing every axis. -/
def homeState (f : Frame) : List Value :=
  f.lows ++ if f.backlash.active then f.axes.map fun _ => f.backlash.home else []

end Frame

end Gantry
