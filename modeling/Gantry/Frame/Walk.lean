import Gantry.Frame.Basic

/-!
Examples from a random walk. The walk starts at home; every further move is
sampled within the limits until it is long enough on every axis.
-/

namespace Gantry

/-- How the target of an example follows from the state reached. -/
inductive Target where
  /-- The state itself. -/
  | reached
  /-- Positions measured with an error that is affine. -/
  | measured (shift scale : Value)
  /-- Positions that lag behind by a part of the deadband. -/
  | lagging (size : Value)
  deriving DecidableEq, Inhabited

/-- A request for examples. -/
structure Survey where
  count : Value
  target : Target
  separation : Value
  maxTries : Value
  deriving DecidableEq, Inhabited

/-- Thirty examples, moves of at least one unit, a thousand tries for each. -/
def Survey.standard : Survey :=
  ⟨some (.int 30), .reached, some (.real Binary64.one), some (.int 1000)⟩

namespace Target

def measure (shift scale position : Value) : Except Fault Value := do
  let scaled ← Value.combine Number.mul position scale
  return some (← Value.combine Number.add (some scaled) shift)

def lag (size position deadband : Value) : Except Fault Value := do
  let short ← Value.combine Number.sub deadband (some (.real Binary64.half))
  let lag ← Value.combine Number.mul (some short) size
  return some (← Value.combine Number.add position (some lag))

def lagAll (size : Value) : List Value → List Value → Except Fault (List Value)
  | [], _ => .ok []
  | _ :: _, [] => .error .index
  | p :: ps, d :: ds => do
    let v ← lag size p d
    let vs ← lagAll size ps ds
    return v :: vs

def values (t : Target) (f : Frame) : Except Fault (List Value) :=
  match t with
  | .reached => .ok f.state
  | .measured shift scale => do
    let positions ← f.positions.mapM (measure shift scale)
    return positions ++ f.deadbands
  | .lagging size => do
    let positions ← lagAll size f.positions f.deadbands
    return positions ++ f.deadbands

end Target

namespace Frame

/-- Samples a position for each drive. -/
def sampleDrives : List Drive → Random.Stream → Except Fault (List Binary64) × Random.Stream
  | [], s => (.ok [], s)
  | d :: ds, s =>
    match d.low.toBinary64?, d.high.toBinary64? with
    | some low, some high =>
      if (high - low).isFinite then
        let (x, s) := s.nextBetween low high
        let (r, s) := sampleDrives ds s
        (r.map (x :: ·), s)
      else (.error .overflow, s)
    | _, _ => (.error .overflow, s)

def sample (f : Frame) : Except Fault (List Binary64) × Frame :=
  let (r, stream) := sampleDrives f.drives f.stream
  (r, { f with stream })

def distances : List Binary64 → List Value → Except Fault (List Number)
  | x :: xs, p :: ps => do
    let d ← Value.combine Number.sub (some (.real x)) p
    let ds ← distances xs ps
    return d.abs :: ds
  | _, _ => .ok []

/-- Whether a move is long enough on every axis. -/
def isFar (separation : Value) (sampled : List Binary64) (positions : List Value) :
    Except Fault Bool := do
  match (← distances sampled positions) with
  | [] => return true
  | d :: ds =>
    match separation with
    | some s => return s.le (ds.foldl Number.smaller d)
    | none => throw (.type none)

/-- Samples until a move is long enough. -/
def findMove (drives : List Drive) (positions : List Value) (survey : Survey) :
    Nat → Random.Stream → Except Failure (List Binary64) × Random.Stream
  | 0, s => (.error (.noMove survey.separation survey.maxTries), s)
  | n + 1, s =>
    match sampleDrives drives s with
    | (.error e, s) => (.error (.fault e), s)
    | (.ok sampled, s) =>
      match isFar survey.separation sampled positions with
      | .error e => (.error (.fault e), s)
      | .ok true => (.ok sampled, s)
      | .ok false => findMove drives positions survey n s

/-- The example of the state a frame is in. -/
def exampleHere (f : Frame) (t : Target) : Except Fault (Training.Example Binary64) := do
  let target ← t.values f
  let input ← Value.toReals f.state
  let target ← Value.toReals target
  return ⟨input, target⟩

/-- Makes a sampled move. -/
def wander (f : Frame) (survey : Survey) : Except Failure Unit × Frame :=
  match Value.toInt survey.maxTries with
  | .error e => (.error (.fault e), f)
  | .ok tries =>
    match findMove f.drives f.positions survey tries.toNat f.stream with
    | (.error e, stream) => (.error e, { f with stream })
    | (.ok sampled, stream) =>
      { f with stream }.setPositions (sampled.map fun x => some (.real x))

/-- Homes every axis, whatever its deadband was. -/
def startWalk (f : Frame) : Except Failure Unit × Frame :=
  match f.home with
  | (.error e, f) => (.error e, f)
  | (.ok (), f) =>
    match f.setState f.homeState with
    | .error e => (.error e, f)
    | .ok f => (.ok (), f)

/-- The examples of so many further moves. -/
def walkOn (survey : Survey) : Nat → Frame → Except Failure (List (Training.Example Binary64)) × Frame
  | 0, f => (.ok [], f)
  | n + 1, f =>
    match f.wander survey with
    | (.error e, f) => (.error e, f)
    | (.ok (), f) =>
      match f.exampleHere survey.target with
      | .error e => (.error (.fault e), f)
      | .ok e =>
        let (r, f) := walkOn survey n f
        (r.map (e :: ·), f)

/-- Examples of a random walk from home. -/
def examples (f : Frame) (survey : Survey) :
    Except Failure (List (Training.Example Binary64)) × Frame :=
  match Value.toInt survey.count with
  | .error e => (.error (.fault e), f)
  | .ok count =>
    match count.toNat with
    | 0 => (.ok [], f)
    | n + 1 =>
      match f.startWalk with
      | (.error e, f) => (.error e, f)
      | (.ok (), f) =>
        match f.exampleHere survey.target with
        | .error e => (.error (.fault e), f)
        | .ok e =>
          let (r, f) := walkOn survey n f
          (r.map (e :: ·), f)

/-- The number of examples asked for, which has to be positive. -/
def countOf : Value → Except Failure Number
  | none => .error (.fault (.type none))
  | some n => if n.lt (.int 1) then .error .count else .ok n

def sameVector (same : Binary64 → Binary64 → Bool) : List Binary64 → List Binary64 → Bool
  | [], [] => true
  | x :: xs, y :: ys => same x y && sameVector same xs ys
  | _, _ => false

/-- Checks that there are as many examples as asked for and that the first
starts at home. -/
def checkExamples (same : Binary64 → Binary64 → Bool) (count : Number) (home : List Value)
    (examples : List (Training.Example Binary64)) : Except Failure Unit :=
  if !(Number.int examples.length).same count then .error (.exampleCount examples.length count)
  else
    match Value.toReals home, examples with
    | .error e, _ => .error (.fault e)
    | .ok _, [] => .error (.fault .index)
    | .ok home, e :: _ => if sameVector same e.input home then .ok () else .error (.start home e.input)

/-- Whether two numbers are equal or are one and the same not-a-number. -/
def equalOrSame (x y : Binary64) : Bool := x.eqv y || x == y

/-- Examples of a random walk, checked for their number and their start. -/
def checkedExamples (f : Frame) (survey : Survey) :
    Except Failure (List (Training.Example Binary64)) × Frame :=
  match countOf survey.count with
  | .error e => (.error e, f)
  | .ok count =>
    match f.examples survey with
    | (.error e, f) => (.error e, f)
    | (.ok examples, f) =>
      ((checkExamples equalOrSame count f.homeState examples).map fun () => examples, f)

end Frame

/-- Examples that stand for those of a frame, checked alike. -/
def checkGiven (count : Value) (home : List Value) (examples : List (Training.Example Binary64)) :
    Except Frame.Failure (List (Training.Example Binary64)) := do
  let count ← Frame.countOf count
  Frame.checkExamples Binary64.eqv count home examples
  return examples

end Gantry
