import Gantry.Document.Datum
import Gantry.Network.Activation
import Gantry.Network.Failure
import Gantry.Random.Normal

/-!
Layers of a network. A dense layer applies its activation to affine functions
of its inputs, whose coefficients are its weights; a map layer computes fixed
expressions. A layer gets its weights when it is placed in a network, where it
learns its index and the number of its inputs.
-/

namespace Gantry.Network

open Gantry.Algebra

structure Weight where
  name : String
  value : Binary64
  deriving DecidableEq, Inhabited

def Weight.symbol (w : Weight) : Expr := .symbol w.name true

/-- How the matrix of a layer begins. -/
inductive Initializer where
  | identity | random
  deriving DecidableEq, Inhabited

def Initializer.name : Initializer → String
  | .identity => "identity"
  | .random => "random"

def Initializer.ofName? : String → Option Initializer
  | "identity" => some .identity
  | "random" => some .random
  | _ => none

structure Dense where
  outputs : Nat
  activation : Activation
  initializer : Initializer
  /-- Seed of a random matrix; without one the matrix is drawn afresh. -/
  seed : Option Int
  /-- Initial values of some weights. -/
  initial : List (String × Datum)
  deriving Inhabited

/-- One output of a map layer. -/
inductive MapEntry where
  | text (s : String)
  /-- A function that computes an expression from the inputs. -/
  | function (f : List Expr → Except Fault Expr)
  /-- Something that is neither text nor a function. -/
  | unusable
  deriving Inhabited

inductive LayerKind where
  | dense (d : Dense)
  | map (entries : List MapEntry)
  deriving Inhabited

/-- Where a layer stands in a network. -/
structure Placement where
  index : Nat
  inputs : Nat
  deriving DecidableEq, Inhabited

structure Layer where
  kind : LayerKind
  placement : Option Placement
  weights : List Weight
  deriving Inhabited

namespace Dense

/-- A dense layer from names and numbers given by a user. -/
def make (outputs : Int) (activation initializer : String) (seed : Option Int)
    (initial : List (String × Datum)) : Except Failure Dense :=
  if outputs < 1 then .error .noOutputs
  else
    match Initializer.ofName? initializer with
    | none => .error (.initializer initializer)
    | some i =>
      match Activation.ofName? activation with
      | none => .error (.activation activation)
      | some a => .ok ⟨outputs.toNat, a, i, seed, initial⟩

def matrixName (layer row column : Nat) : String :=
  "w" ++ toString layer ++ "r" ++ toString row ++ "c" ++ toString column

def biasName (layer row : Nat) : String := "w" ++ toString layer ++ "b" ++ toString row

def identityEntry (row column : Nat) : Binary64 :=
  if row = column then Binary64.one else Binary64.zero

/-- Random entries, scaled down by the root of the number of inputs. -/
def randomEntries (scale : Binary64) : Nat → Random.Stream → List Binary64
  | 0, _ => []
  | n + 1, s =>
    let drawn := s.nextNormal
    scale * drawn.1 :: randomEntries scale n drawn.2

/-- Names of the matrix entries, row by row. -/
def matrixNames (index rows columns : Nat) : List String :=
  (List.range rows).flatMap fun r => (List.range columns).map (matrixName index r)

def biasNames (index rows : Nat) : List String := (List.range rows).map (biasName index)

/-- What a random matrix is drawn from. -/
def stream (d : Dense) (fresh : Random.Stream) : Random.Stream :=
  d.seed.elim fresh fun seed => .ofSeed seed.toNat

def matrixEntries (d : Dense) (fresh : Random.Stream) (columns : Nat) : List Binary64 :=
  match d.initializer with
  | .identity => (List.range d.outputs).flatMap fun r => (List.range columns).map (identityEntry r)
  | .random =>
    randomEntries (Binary64.one / (Binary64.ofNat columns).sqrt) (d.outputs * columns)
      (d.stream fresh)

/-- The weights before initial values are put in. -/
def freshWeights (d : Dense) (fresh : Random.Stream) (index inputs : Nat) : List Weight :=
  List.zipWith Weight.mk (matrixNames index d.outputs inputs) (d.matrixEntries fresh inputs)
    ++ (biasNames index d.outputs).map fun name => ⟨name, Binary64.zero⟩

/-- Puts initial values into weights. -/
def fillIn (initial : List (String × Datum)) : List Weight → Except Failure (List Weight)
  | [] => .ok []
  | w :: ws =>
    match initial.lookup w.name with
    | none => (fillIn initial ws).map (w :: ·)
    | some d =>
      match d.toReal with
      | .error f => .error (.fault f)
      | .ok x => (fillIn initial ws).map ({ w with value := x } :: ·)

/-- Names in code-point order, each once. -/
def sortedNames (names : List String) : List String :=
  Formula.dedupSorted (sortBy (fun a b => decide (a ≤ b)) names)

/-- The weights of a layer at a place. -/
def weightsAt (d : Dense) (fresh : Random.Stream) (index inputs : Nat) :
    Except Failure (List Weight) :=
  if d.seed.any (· < 0) then .error (.fault (.value none))
  else
    let ws := d.freshWeights fresh index inputs
    match (d.initial.map Prod.fst).filter fun name => !(ws.map Weight.name).contains name with
    | [] => fillIn d.initial ws
    | unknown => .error (.layerWeights index (sortedNames unknown))

end Dense

/-- Some functions of the inputs. -/
inductive Builtin where
  | first | last | total | difference | double | square
  deriving DecidableEq, Inhabited

/-- The value of a function of the inputs. -/
def Builtin.apply [Engine] (f : Builtin) (inputs : List Expr) : Except Fault Expr :=
  let at? (i : Nat) : Except Fault Expr :=
    match inputs[i]? with
    | some x => .ok x
    | none => .error .index
  match f with
  | .first => at? 0
  | .last =>
    match inputs.getLast? with
    | some x => .ok x
    | none => .error .index
  | .total => .ok (Engine.sumOf inputs)
  | .difference => do
    let a ← at? 0
    let b ← at? 1
    return Engine.minus a b
  | .double => do
    let a ← at? 0
    return Engine.productOf [Expr.ofInt 2, a]
  | .square => do
    let a ← at? 0
    return Engine.powerOf a (Expr.ofInt 2)

def MapEntry.builtin [Engine] (f : Builtin) : MapEntry := .function f.apply

/-- Name of an input. -/
def inputName (i : Nat) : String := "x" ++ toString i

def MapEntry.expression [Engine] (inputs : List Expr) : MapEntry → Except Fault Expr
  | .text s =>
    let known := ((List.range inputs.length).map inputName).zip inputs
    (Engine.read known s).mapError ReadFailure.fault
  | .function f => f inputs
  | .unusable => .error (.type none)

/-- The outputs of a map layer. -/
def mapExpressions [Engine] (inputs : List Expr) : List MapEntry → Except Fault (List Expr)
  | [] => .ok []
  | m :: ms => do
    let e ← m.expression inputs
    let es ← mapExpressions inputs ms
    return e :: es

namespace Layer

/-- A layer that is not in a network yet. -/
def loose (kind : LayerKind) : Layer := ⟨kind, none, []⟩

def ofMap (entries : List MapEntry) : Except Failure Layer :=
  if entries.isEmpty then .error .emptyMap else .ok (loose (.map entries))

def typeName (l : Layer) : String :=
  match l.kind with
  | .dense _ => "Layer"
  | .map _ => "MapLayer"

def outputs (l : Layer) : Nat :=
  match l.kind with
  | .dense d => d.outputs
  | .map entries => entries.length

/-- Places a layer behind others, with a stream in case that it has no seed. -/
def connect (l : Layer) (fresh : Random.Stream) (index inputs : Nat) :
    Except Failure Unit × Layer :=
  if l.placement.isSome then (.error .alreadyPlaced, l)
  else
    match l.kind with
    | .map _ => (.ok (), { l with placement := some ⟨index, inputs⟩ })
    | .dense d =>
      if inputs < 1 then (.error .noInputs, l)
      else
        match d.weightsAt fresh index inputs with
        | .error f => (.error f, l)
        | .ok weights => (.ok (), { l with placement := some ⟨index, inputs⟩, weights })

def required (l : Layer) : Except Failure Placement :=
  match l.placement with
  | some p => .ok p
  | none => .error .unplaced

/-- A list cut into pieces of length `n`. -/
def rows (n : Nat) : Nat → List Weight → List (List Weight)
  | 0, _ => []
  | k + 1, ws => ws.take n :: rows n k (ws.drop n)

/-- The weights of the matrix, row by row. -/
def matrix (l : Layer) : Except Failure (List (List Weight)) := do
  let p ← l.required
  return rows p.inputs l.outputs l.weights

def bias (l : Layer) : Except Failure (List Weight) := do
  let p ← l.required
  return l.weights.drop (l.outputs * p.inputs)

/-- An affine function of the inputs. -/
def affine [Engine] (row : List Weight) (bias : Weight) (inputs : List Expr) : Expr :=
  Engine.sumOf (List.zipWith (fun w x => Engine.productOf [w.symbol, x]) row inputs ++ [bias.symbol])

/-- The outputs of a layer as expressions of its inputs. -/
def expressions [Engine] (l : Layer) (inputs : List Expr) : Except Failure (List Expr) :=
  match l.kind with
  | .dense d => do
    let p ← l.required
    if inputs.length ≠ p.inputs then throw (.layerInputs p.index p.inputs inputs.length)
    let matrix ← l.matrix
    let bias ← l.bias
    return List.zipWith (fun row b => d.activation.apply (affine row b inputs)) matrix bias
  | .map entries =>
    match l.placement with
    | some p =>
      if inputs.length ≠ p.inputs then .error (.layerInputs p.index p.inputs inputs.length)
      else (mapExpressions inputs entries).mapError .fault
    | none => (mapExpressions inputs entries).mapError .fault

end Layer

end Gantry.Network
