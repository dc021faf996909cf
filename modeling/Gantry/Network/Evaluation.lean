import Gantry.Formula.Value
import Gantry.Network.Loss

/-!
Evaluators of a network: one for its prediction, and one for its loss and all
gradients, in which common parts are computed once.
-/

namespace Gantry.Network

open Gantry.Algebra

variable [Memo.Stack] [Engine]

/-- Optimizes formula texts together and compiles an evaluator of them all. -/
def compileTexts (texts : List String) : Except Failure Memo.Evaluator :=
  match (Memo.Table.empty "f").optimize (texts.map .text) with
  | (.error f, _) => .error (.fault f.fault)
  | (.ok names, t) => (t.compile (.many names)).mapError fun f => .fault f.fault

/-- The evaluator of the prediction. -/
def forward (net : Network) : Derived Memo.Evaluator :=
  match net.cache.forward with
  | some ev => (.ok ev, net)
  | none =>
    match net.prediction with
    | (.error f, net) => (.error f, net)
    | (.ok es, net) =>
      match compileTexts (es.map Expr.text) with
      | .error f => (.error f, net)
      | .ok ev => (.ok ev, { net with cache := { net.cache with forward := some ev } })

/-- Adds named values to a scope. -/
def bindAll (names : List String) (values : List Operand) (s : Scope) : Scope :=
  (names.zip values).foldl (fun s (name, v) => s.insert name v) s

/-- The scope in which the expressions of a network are evaluated. -/
def scopeAt (net : Network) (weights : List Binary64) (inputs targets : List Value) : Scope :=
  bindAll net.targetNames (targets.map Value.operand) <|
    bindAll net.inputNames (inputs.map Value.operand) <|
    bindAll net.weightNames (weights.map fun w => some (.real w)) {}

def weightValues (net : Network) : List Binary64 := net.weights.map Weight.value

/-- The prediction by an evaluator at the current weights. -/
def predictWith (net : Network) (forward : Except Failure Memo.Evaluator) (inputs : List Value) :
    Except Failure (List Binary64) :=
  if inputs.length ≠ net.inputs then .error (.inputs net.inputs inputs.length)
  else
    match forward with
    | .error f => .error f
    | .ok ev =>
      match (ev.run (net.scopeAt net.weightValues inputs [])).1 with
      | .error f => .error (.fault f.fault)
      | .ok answer => (Value.ofOperands answer.values).mapError .fault

def predict (net : Network) (inputs : List Value) : Derived (List Binary64) :=
  let (forward, after) := net.forward
  (net.predictWith forward inputs, after)

/-- The texts of the loss and of its gradients. -/
def trainingTexts (net : Network) : Derived (List String) :=
  match net.gradients with
  | (.error f, net) => (.error f, net)
  | (.ok gs, net) =>
    match net.loss with
    | (.error f, net) => (.error f, net)
    | (.ok e, net) => (.ok (e.text :: gs.map fun g => g.2.text), net)

/-- The evaluator of the loss and its gradients, in the order of the weights. -/
def training (net : Network) : Derived Memo.Evaluator :=
  match net.trainingTexts with
  | (.error f, net) => (.error f, net)
  | (.ok texts, net) => (compileTexts texts, net)

/-- The loss and its gradients at the current weights. -/
def evaluateTraining (net : Network) (inputs targets : List Value) : Derived (List Binary64) :=
  match net.training with
  | (.error f, net) => (.error f, net)
  | (.ok ev, net) =>
    match (ev.run (net.scopeAt net.weightValues inputs targets)).1 with
    | .error f => (.error (.fault f.fault), net)
    | .ok answer => ((Value.ofOperands answer.values).mapError .fault, net)

end Gantry.Network
