import Gantry.Algebra.Text
import Gantry.Network.Basic

/-!
The prediction of a network, its mean squared error against targets, and the
exact gradient of that error in every weight. Each is built at most once
between changes of the network.
-/

namespace Gantry.Network

open Gantry.Algebra

variable [Engine]

/-- A computation that may fail and may leave something in the cache. -/
abbrev Derived (α : Type) := Except Failure α × Network

def inputSymbols (net : Network) : List Expr := net.inputNames.map fun name => .symbol name true

def targetSymbols (net : Network) : List Expr := net.targetNames.map fun name => .symbol name true

/-- Threads expressions through layers. -/
def through : List Layer → List Expr → Except Failure (List Expr)
  | [], es => .ok es
  | l :: ls, es =>
    match l.expressions es with
    | .error f => .error f
    | .ok es => through ls es

/-- The outputs as expressions of given inputs. -/
def expressions (net : Network) (inputs : List Expr) : Except Failure (List Expr) :=
  if !net.sequential then .error .uncombined
  else if inputs.length ≠ net.inputs then .error (.inputs net.inputs inputs.length)
  else through net.layers inputs

/-- The outputs as expressions of the input symbols. -/
def prediction (net : Network) : Derived (List Expr) :=
  match net.cache.prediction with
  | some es => (.ok es, net)
  | none =>
    match net.expressions net.inputSymbols with
    | .error f => (.error f, net)
    | .ok es => (.ok es, { net with cache := { net.cache with prediction := some es } })

/-- The mean of squared differences. -/
def meanSquare (predicted targets : List Expr) : Expr :=
  Engine.quotientOf
    (Engine.sumOf (List.zipWith (fun p t => Engine.powerOf (Engine.minus p t) (Expr.ofInt 2))
      predicted targets))
    (Expr.ofInt targets.length)

def loss (net : Network) : Derived Expr :=
  match net.cache.loss with
  | some e => (.ok e, net)
  | none =>
    match net.prediction with
    | (.error f, net) => (.error f, net)
    | (.ok predicted, net) =>
      let e := meanSquare predicted net.targetSymbols
      (.ok e, { net with cache := { net.cache with loss := some e } })

def gradients (net : Network) : Derived (List (String × Expr)) :=
  match net.cache.gradients with
  | some gs => (.ok gs, net)
  | none =>
    match net.loss with
    | (.error f, net) => (.error f, net)
    | (.ok e, net) =>
      let gs := net.weightNames.map fun name => (name, Engine.gradient name e)
      (.ok gs, { net with cache := { net.cache with gradients := some gs } })

end Gantry.Network
