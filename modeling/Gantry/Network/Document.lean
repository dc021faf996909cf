import Gantry.Document.Reader
import Gantry.Document.Writer
import Gantry.Network.Basic

/-!
Networks as data. A layer is written with its weights; how a random matrix was
seeded is not, so layers are read without seeds. Reading checks the layers first
and then puts them together.
-/

namespace Gantry.Network

def weightData (ws : List Weight) : Datum := .object (ws.map fun w => (w.name, .ofReal w.value))

def MapEntry.datum : MapEntry → Except Failure Datum
  | .text s => .ok (.text s)
  | _ => .error .notWritable

def Layer.datum (l : Layer) : Except Failure Datum :=
  match l.kind with
  | .dense d =>
    .ok (.object [("type", .text "Layer"), ("n_out", .ofNat d.outputs),
      ("activation", .text d.activation.name), ("initializer", .text d.initializer.name),
      ("weights", weightData l.weights)])
  | .map entries => do
    let texts ← entries.mapM MapEntry.datum
    return .object [("type", .text "MapLayer"), ("fmap", .list texts)]

def datum (net : Network) : Except Failure Datum := do
  let layers ← net.layers.mapM Layer.datum
  return .object
    [("type", .text net.typeName), ("n_in", .ofNat net.inputs), ("layers", .list layers)]

/-- A count of inputs or outputs. -/
def countOf (d : Datum) (tooSmall : Failure) : Except Failure Int :=
  match d with
  | .number (.int n) => if n < 1 then .error tooSmall else .ok n
  | .number n => if n.lt (.int 1) then .error tooSmall else .error (.fault (.type none))
  | .flag b => if b then .ok 1 else .error tooSmall
  | _ => .error (.fault (.type none))

/-- Initial weights: the members of an object, or nothing. -/
def initialOf (d : Datum) : Except Failure (List (String × Datum)) :=
  match d with
  | .object ms => .ok ms
  | d => if d.isTrue then .error (.fault (.type none)) else .ok []

/-- A name by which something is looked up; lists and objects cannot be. -/
def nameOf (d : Datum) : Except Failure String :=
  match d with
  | .list _ | .object _ => .error (.fault (.type none))
  | d => .ok d.shown

def Layer.ofDense (ms : List (String × Datum)) : Except Failure Layer := do
  let outputs ← (Datum.require ms "n_out").mapError .fault
  let activation := (ms.lookup "activation").getD (.text "identity")
  let initializer := (ms.lookup "initializer").getD (.text "identity")
  let outputs ← countOf outputs .noOutputs
  if (Initializer.ofName? initializer.shown).isNone then throw (.initializer initializer.shown)
  let activation ← nameOf activation
  let initial ← initialOf ((ms.lookup "weights").getD .null)
  let d ← Dense.make outputs activation initializer.shown none initial
  return Layer.loose (.dense d)

def MapEntry.ofDatum : Datum → MapEntry
  | .text s => .text s
  | _ => .unusable

/-- What can be gone through item by item. -/
def itemsOf : Datum → Except Failure (List Datum)
  | .list items => .ok items
  | .text s => .ok (s.toList.map fun c => .text (String.singleton c))
  | .object ms => .ok (ms.map fun m => .text m.1)
  | _ => .error (.fault (.type none))

def Layer.ofMapDatum (ms : List (String × Datum)) : Except Failure Layer := do
  let entries ← (Datum.require ms "fmap").mapError .fault
  if !entries.isTrue then throw .emptyMap
  let items ← itemsOf entries
  Layer.ofMap (items.map MapEntry.ofDatum)

def Layer.ofDatum (d : Datum) : Except Failure Layer := do
  let ms ← d.members.mapError .fault
  let type ← nameOf ((ms.lookup "type").getD .null)
  match type with
  | "Layer" => Layer.ofDense ms
  | "MapLayer" => Layer.ofMapDatum ms
  | other => throw (.layerType other)

def ofDatum (fresh : Nat → Random.Stream) (d : Datum) : Except Failure Network := do
  let ms ← d.members.mapError .fault
  let type ← nameOf ((ms.lookup "type").getD (.text "Sequential"))
  if type ≠ "Sequential" then throw (.networkType type)
  let items ← itemsOf ((ms.lookup "layers").getD (.list []))
  let layers ← items.mapM Layer.ofDatum
  let count ← (Datum.require ms "n_in").mapError .fault
  let inputs ← countOf count .noInputs
  let net ← Network.empty true inputs
  net.addAll fresh layers

def ofText (fresh : Nat → Random.Stream) (s : String) : Except Failure Network := do
  let d ← (Datum.read s).mapError .fault
  ofDatum fresh d

end Gantry.Network
