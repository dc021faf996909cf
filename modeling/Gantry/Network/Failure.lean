import Gantry.Algebra.Reader
import Gantry.Memo.Evaluator

/-!
What can go wrong with networks and their layers.
-/

namespace Gantry.Network

inductive Failure where
  | noInputs
  | noOutputs
  | initializer (name : String)
  | activation (name : String)
  | emptyMap
  | alreadyPlaced
  | unplaced
  /-- Initial values for weights that a layer does not have. -/
  | layerWeights (layer : Nat) (names : List String)
  | weights (names : List String)
  | weight (name : String)
  | layerInputs (layer expected given : Nat)
  | inputs (expected given : Nat)
  /-- A layer holds a map that is not given as text. -/
  | notWritable
  | networkType (name : String)
  | layerType (name : String)
  /-- The network does not say how its layers are combined. -/
  | uncombined
  | fault (f : Fault)
  deriving DecidableEq, Inhabited

def Failure.asFault : Failure → Fault
  | .noInputs => .value (some "n_in must be a positive integer")
  | .noOutputs => .value (some "n_out must be a positive integer")
  | .initializer s => .value (some ("Unsupported initializer '" ++ s ++ "'."))
  | .activation s => .value (some ("Unsupported activation '" ++ s ++ "'."))
  | .emptyMap => .value (some "fmap must not be empty")
  | .alreadyPlaced => .value (some "layer already belongs to a network")
  | .unplaced => .value (some "layer is not connected to a network")
  | .layerWeights layer names =>
    .value (some ("unknown weight(s) for layer " ++ toString layer ++ ": " ++ ", ".intercalate names))
  | .weights names => .value (some ("unknown weight(s): " ++ ", ".intercalate names))
  | .weight name => .key (some (Text.quoted name))
  | .layerInputs layer expected given =>
    .shape ("layer " ++ toString layer ++ " expects " ++ toString expected ++ " inputs, got " ++
      toString given)
  | .inputs expected given =>
    .shape ("expected " ++ toString expected ++ " inputs, got " ++ toString given)
  | .notWritable => .value (some "only MapLayer formulas given as text can be serialized")
  | .networkType s => .value (some ("Unsupported network type '" ++ s ++ "'."))
  | .layerType s => .value (some ("Unsupported layer type '" ++ s ++ "'."))
  | .uncombined => .unsupported
  | .fault f => f

end Gantry.Network
