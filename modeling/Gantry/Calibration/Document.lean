import Gantry.Calibration.Basic

/-!
Calibrations as data, and the vectors of numbers they are given.
-/

namespace Gantry

/-- A member of something that has to be an object. -/
def Datum.member (d : Datum) (key : String) : Except Fault Datum :=
  match d with
  | .object ms => Datum.require ms key
  | _ => .error (.type none)

/-- A component of a vector; a missing one is not a number. -/
def Datum.component : Datum → Except Fault Binary64
  | .null => .ok Binary64.nan
  | d => d.toReal

def Datum.components (ds : List Datum) : Except Fault (List Binary64) := ds.mapM Datum.component

namespace Calibration

def listLength? : Datum → Option Nat
  | .list items => some items.length
  | _ => none

/-- A datum read as a vector. Rows of equal length are numbers in another
arrangement; rows and numbers do not mix. -/
def Entries.ofDatum (d : Datum) : Except Fault Entries :=
  match d with
  | .list items =>
    if items.all fun i => (listLength? i).isNone then (Datum.components items).map .vector
    else
      match items.map listLength? with
      | some n :: rest => if rest.all (· == some n) then .ok .other else .error (.value none)
      | _ => .error (.value none)
  | d => d.component.map fun _ => .other

/-- A vector that may be left out. -/
def Entries.ofDatum? : Datum → Except Fault (Option Entries)
  | .null => .ok none
  | d => (Entries.ofDatum d).map some

/-- A calibration in coordinates given as data. -/
def ofData (network : Network) (offset scale : Datum) : Except Flaw Calibration := do
  let fault {α : Type} (r : Except Fault α) : Except Flaw α := r.mapError fun f => .network (.fault f)
  let offset ← fault (Entries.ofDatum? offset)
  let scale ← fault (Entries.ofDatum? scale)
  make network none offset scale

def datum (c : Calibration) : Except Network.Failure Datum := do
  let network ← c.network.datum
  return .object [("type", .text "Calibration"), ("network", network),
    ("offset", .ofReals c.normalization.offset), ("scale", .ofReals c.normalization.scale)]

def ofDatum (fresh : Nat → Random.Stream) (d : Datum) : Except Flaw Calibration := do
  let data ← (d.member "network").mapError fun f => .network (.fault f)
  let network ← (Network.ofDatum fresh data).mapError .network
  let ms ← d.members.mapError fun f => .network (.fault f)
  ofData network ((ms.lookup "offset").getD .null) ((ms.lookup "scale").getD .null)

/-- How many rounds a user asks for. -/
def roundsOf : Datum → Except Fault Nat
  | .number (.int n) => .ok n.toNat
  | .flag b => .ok b.toNat
  | _ => .error (.type none)

/-- A tolerance as it is compared with. -/
def toleranceOf (d : Datum) : Except Fault Binary64 := do
  match (← d.toNumber).toBinary64? with
  | some x => return x
  | none => throw .overflow

end Calibration

end Gantry
