import Gantry.Network.Evaluation
import Gantry.Training.Descent
import Gantry.Training.Options

/-!
Training the weights of a network on examples. The loss and its gradient are
compiled once; nothing changes unless settings, examples and network are sound.
-/

namespace Gantry.Training

open Gantry.Network (Failure)

/-- Changes of some settings. -/
structure Changes where
  maxEpochs : Option Datum
  tolerance : Option Datum
  rate : Option Rate
  update : Option Datum
  deriving Inhabited

def Changes.none : Changes := ⟨.none, .none, .none, .none⟩

def Settings.change (s : Settings) (c : Changes) : Settings where
  maxEpochs := c.maxEpochs.getD s.maxEpochs
  tolerance := c.tolerance.getD s.tolerance
  rate := c.rate.getD s.rate
  update := c.update.getD s.update

/-- What watches training, and when it stops it. -/
structure Observer where
  interruptsAfter : Nat → Bool
  interruptsAtEnd : Bool

def Observer.silent : Observer := ⟨fun _ => false, false⟩

inductive FitFailure where
  | options (f : OptionFailure)
  | noExamples
  | inputs (sample given expected : Nat)
  | targets (sample given expected : Nat)
  | noWeights
  | network (f : Failure)
  /-- The gradient is not that of the weights, in their order. -/
  | gradientOrder
  /-- Training stopped short; the names are those of the weights. -/
  | stopped (names : List String) (s : Stop Binary64)
  deriving Inhabited

def Divergence.text : Divergence → String
  | .measure => "non-finite loss or gradient"
  | .update => "non-finite weight update"

def placeText (epoch : Nat) : Option Nat → String
  | none => "epoch " ++ toString epoch
  | some i => "epoch " ++ toString epoch ++ ", example " ++ toString i

def sampleMessage (sample given expected : Nat) (what : String) : String :=
  "example " ++ toString sample ++ " has " ++ toString given ++ " " ++ what ++
    ", network expects " ++ toString expected

def FitFailure.asFault : FitFailure → Fault
  | .options f => f.asFault
  | .noExamples => .input "calibrate needs at least one example"
  | .inputs sample given expected => .shape (sampleMessage sample given expected "inputs")
  | .targets sample given expected => .shape (sampleMessage sample given expected "targets")
  | .noWeights => .input "network has no weights to train"
  | .network f => f.asFault
  | .gradientOrder => .shape "gradient order does not match network weights"
  | .stopped names (.diverged what epoch sample weights) =>
    .diverged ("training diverged: " ++ what.text ++ " at " ++ placeText epoch sample) epoch sample
      (names.zip weights)
  | .stopped _ .interrupted => .interrupted
  | .stopped _ (.fault f) => f

def checkShapes (inputs outputs : Nat) : Nat → List (Example Binary64) → Except FitFailure Unit
  | _, [] => .ok ()
  | i, e :: es =>
    if e.input.length ≠ inputs then .error (.inputs i e.input.length inputs)
    else if e.target.length ≠ outputs then .error (.targets i e.target.length outputs)
    else checkShapes inputs outputs (i + 1) es

/-- The double a loss stands for. -/
def lossOf (v : Value) : Except Fault Binary64 :=
  match v with
  | none => .error (.type none)
  | some n => wordReal (.number n)

/-- Measures examples with an evaluator of the loss and its gradient. -/
def gaugeWith (ev : Memo.Evaluator) (net : Network) : Gauge Binary64 := fun weights e =>
  let given (xs : List Binary64) : List Value := xs.map fun x => some (.real x)
  match (ev.run (net.scopeAt weights (given e.input) (given e.target))).1 with
  | .error f => .error f.fault
  | .ok answer => do
    let gradient ← Value.ofOperands answer.values.tail
    let loss ← lossOf (Operand.value (answer.values.headD none))
    return (loss, gradient)

def Options.plan (o : Options) : Plan Binary64 where
  maxEpochs := o.maxEpochs
  rate epoch := (o.rateAt epoch).mapError OptionFailure.asFault
  eachExample := o.update == .example
  settled gain := (Number.real gain).lt o.tolerance

/-- What training did to a network. -/
structure Fit where
  network : Network
  reports : List (Report Binary64)
  /-- The result of training that came to its end, even if an observer then
  objected. -/
  finished : Option (Result Binary64)
  outcome : Except FitFailure (Result Binary64)
  deriving Inhabited

def Fit.refused (net : Network) (f : FitFailure) : Fit := ⟨net, [], none, .error f⟩

def Fit.ofRun (net : Network) (observer : Observer) (run : Run Binary64) : Fit :=
  let net := net.withValues run.weights
  match run.outcome with
  | .error s => ⟨net, run.reports, none, .error (.stopped net.weightNames s)⟩
  | .ok r =>
    ⟨net, run.reports, some r,
      if observer.interruptsAtEnd then .error (.stopped net.weightNames .interrupted) else .ok r⟩

/-- What has to hold before training begins. -/
def checked (net : Network) (s : Settings) (examples : List (Example Binary64)) :
    Except FitFailure Options := do
  let options ← s.check.mapError .options
  if examples.isEmpty then throw .noExamples
  checkShapes net.inputs net.outputs 0 examples
  if net.weights.isEmpty then throw .noWeights
  return options

/-- Derives a measure of the weights of a network, and the names of the weights
in the order of its gradients. -/
abbrev Compile : Type := Network → Network.Derived (Gauge Binary64 × List String)

/-- Trains a network by the measure that its compilation gives. -/
def fitWith (compile : Compile) (net : Network) (s : Settings) (examples : List (Example Binary64))
    (observer : Observer) : Fit :=
  match checked net s examples with
  | .error f => .refused net f
  | .ok options =>
    match compile net with
    | (.error f, net) => .refused net (.network f)
    | (.ok (gauge, names), net) =>
      if names ≠ net.weightNames then .refused net .gradientOrder
      else
        .ofRun net observer <|
          descend options.plan gauge examples observer.interruptsAfter net.weightValues

/-- The measure by the loss of a network and its gradient. -/
def compileTraining [Memo.Stack] [Algebra.Engine] : Compile := fun net =>
  match net.training with
  | (.error f, net) => (.error f, net)
  | (.ok ev, net) =>
    match net.gradients with
    | (.error f, net) => (.error f, net)
    | (.ok gs, net) => (.ok (gaugeWith ev net, gs.map Prod.fst), net)

def fit [Memo.Stack] [Algebra.Engine] :
    Network → Settings → List (Example Binary64) → Observer → Fit := fitWith compileTraining

/-- An example from numbers given by a user. -/
def Example.ofData (input target : List Datum) : Except Fault (Example Binary64) := do
  let input ← input.mapM Datum.toReal
  let target ← target.mapM Datum.toReal
  return ⟨input, target⟩

end Gantry.Training
