import Gantry.Frame.Calibration

/-!
Frames as data, with their drives, their state and their calibration. How the
random stream stands is not written, so a frame is read with a fresh one.
-/

namespace Gantry.Frame

def calibrationDatum (f : Frame) : Except Network.Failure Datum :=
  match f.calibration with
  | none => .ok .null
  | some c => c.datum

def datum (f : Frame) : Except Network.Failure Datum := do
  let calibration ← f.calibrationDatum
  return .object [("type", .text "DriveFrame"), ("state", .list (f.state.map valueDatum)),
    ("backlash", .flag f.backlash.active), ("deadband_scale", valueDatum f.backlash.scale),
    ("deadband_home", valueDatum f.backlash.home), ("drives", .list (f.drives.map Drive.datum)),
    ("calibration", calibration)]

/-- A number or nothing. -/
def valueOf : Datum → Except Fault Value
  | .null => .ok none
  | d => d.toNumber.map some

def nameOf : Datum → Option String
  | .null => none
  | d => some d.shown

def driveOf (d : Datum) : Except Failure Drive := do
  let low ← (d.member "min_pos").mapError .fault
  let high ← (d.member "max_pos").mapError .fault
  let ms ← d.members.mapError .fault
  let low ← low.toNumber.mapError .fault
  let high ← high.toNumber.mapError .fault
  match Drive.make? low high (nameOf ((ms.lookup "name").getD .null)) with
  | some drive => return drive
  | none => throw .limits

/-- A state that may be left out. -/
def stateOf : Datum → Except Failure (Option (List Value))
  | .null => .ok none
  | d => do
    let items ← (Network.itemsOf d).mapError fun e => .fault e.asFault
    return some (← (items.mapM valueOf).mapError .fault)

def ofDatum (stream : Random.Stream) (fresh : Nat → Random.Stream) (d : Datum) :
    Except Failure Frame := do
  let given ← (d.member "drives").mapError .fault
  let items ← (Network.itemsOf given).mapError fun e => .fault e.asFault
  let drives ← items.mapM driveOf
  if drives.isEmpty then throw .noDrives
  let ms ← d.members.mapError .fault
  let value (key : String) (standard : Number) : Except Failure Value :=
    (valueOf ((ms.lookup key).getD (.number standard))).mapError .fault
  let scale ← value "deadband_scale" (.real (Binary64.ofNat 3))
  let home ← value "deadband_home" (.real Binary64.half)
  let state ← stateOf ((ms.lookup "state").getD .null)
  let backlash : Backlash := ⟨((ms.lookup "backlash").getD (.flag true)).isTrue, scale, home⟩
  let frame ← make drives backlash stream .null state
  match (ms.lookup "calibration").getD .null with
  | .null => return frame
  | d =>
    let c ← (Calibration.ofDatum fresh d).mapError .calibration
    return { frame with calibration := some c }

end Gantry.Frame
