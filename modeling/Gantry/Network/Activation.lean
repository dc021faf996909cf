import Gantry.Algebra.Engine

/-!
The nonlinearities of layers, as functions of expressions.
-/

namespace Gantry.Network

open Gantry.Algebra

inductive Activation where
  | identity | softRelu | relu | tanh | sigmoid
  deriving DecidableEq, Inhabited

namespace Activation

def name : Activation → String
  | .identity => "identity"
  | .softRelu => "soft_relu"
  | .relu => "relu"
  | .tanh => "tanh"
  | .sigmoid => "sigmoid"

def all : List Activation := [.identity, .softRelu, .relu, .tanh, .sigmoid]

def ofName? (s : String) : Option Activation := all.find? fun a => a.name == s

def apply [Engine] : Activation → Expr → Expr
  | .identity, z => z
  | .softRelu, z => Engine.applied .log [Engine.sumOf [Expr.one, Engine.applied .exp [z]]]
  | .relu, z => Engine.applied .larger [Expr.zero, z]
  | .tanh, z => Engine.applied .tanh [z]
  | .sigmoid, z =>
    Engine.quotientOf Expr.one (Engine.sumOf [Expr.one, Engine.applied .exp [Engine.negated z]])

@[simp] theorem ofName?_name (a : Activation) : ofName? a.name = some a := by
  cases a <;> rfl

end Activation

end Gantry.Network
