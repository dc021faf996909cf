import Gantry.Network.Layer

/-!
Networks: layers in order, each taking the outputs of the one before. A
network remembers the expressions derived from it until a layer is added.
-/

namespace Gantry

open Gantry.Algebra
open Gantry.Network (Failure Layer Weight)

/-- What has been derived from a network so far. -/
structure Network.Cache where
  prediction : Option (List Expr)
  loss : Option Expr
  /-- Gradients by weight name, in the order of the weights. -/
  gradients : Option (List (String × Expr))
  forward : Option Memo.Evaluator
  deriving Inhabited

def Network.Cache.empty : Network.Cache := ⟨none, none, none, none⟩

structure Network where
  /-- Whether the network applies its layers one after the other; otherwise
  it does not say how they are combined. -/
  sequential : Bool
  inputs : Nat
  layers : List Layer
  cache : Network.Cache
  deriving Inhabited

namespace Network

def typeName (net : Network) : String := if net.sequential then "Sequential" else "Network"

/-- A network without layers. -/
def empty (sequential : Bool) (inputs : Int) : Except Failure Network :=
  if inputs < 1 then .error .noInputs
  else .ok ⟨sequential, inputs.toNat, [], .empty⟩

def outputs (net : Network) : Nat :=
  match net.layers.getLast? with
  | some l => l.outputs
  | none => net.inputs

/-- Adds a layer at the end, with what becomes of the network and of the layer. -/
def add (net : Network) (l : Layer) (fresh : Random.Stream) :
    Except Failure Unit × Network × Layer :=
  match l.connect fresh net.layers.length net.outputs with
  | (.error f, l) => (.error f, net, l)
  | (.ok (), l) => (.ok (), { net with layers := net.layers ++ [l], cache := .empty }, l)

/-- Adds layers, with a stream for each index. -/
def addAll (net : Network) (fresh : Nat → Random.Stream) : List Layer → Except Failure Network
  | [] => .ok net
  | l :: ls =>
    match net.add l (fresh net.layers.length) with
    | (.error f, _) => .error f
    | (.ok (), net, _) => net.addAll fresh ls

def inputNames (net : Network) : List String := (List.range net.inputs).map inputName

def targetName (i : Nat) : String := "yt" ++ toString i

def targetNames (net : Network) : List String := (List.range net.outputs).map targetName

def weights (net : Network) : List Weight := net.layers.flatMap Layer.weights

def weightNames (net : Network) : List String := net.weights.map Weight.name

def weight (net : Network) (name : String) : Except Failure Weight :=
  match net.weights.find? fun w => w.name == name with
  | some w => .ok w
  | none => .error (.weight name)

/-- Gives one weight a value. -/
def setWeight (net : Network) (name : String) (value : Binary64) : Network :=
  let set (w : Weight) : Weight := if w.name = name then { w with value := value } else w
  { net with layers := net.layers.map fun l => { l with weights := l.weights.map set } }

/-- Converts and stores values one by one, up to the first that is no number. -/
def storeWeights (net : Network) : List (String × Datum) → Except Failure Unit × Network
  | [] => (.ok (), net)
  | (name, d) :: rest =>
    match d.toReal with
    | .error f => (.error (.fault f), net)
    | .ok x => (net.setWeight name x).storeWeights rest

/-- Sets weights by name. Nothing is stored if a name is unknown. -/
def setWeights (net : Network) (values : List (String × Datum)) : Except Failure Unit × Network :=
  match (values.map Prod.fst).filter fun name => !net.weightNames.contains name with
  | [] => net.storeWeights values
  | unknown => (.error (.weights (Dense.sortedNames unknown)), net)

/-- Gives all weights values, in their order. -/
def withValues (net : Network) (values : List Binary64) : Network :=
  { net with layers := go net.layers values }
where
  go : List Layer → List Binary64 → List Layer
    | [], _ => []
    | l :: ls, xs =>
      { l with weights := List.zipWith (fun w x => { w with value := x }) l.weights
                            (xs.take l.weights.length) }
        :: go ls (xs.drop l.weights.length)

end Network

end Gantry
