import Gantry.Fault
import Gantry.Formula.Operation

/-!
Values outside of formulas, where one that is missing or runs out of range is a
fault.
-/

namespace Gantry.Value

/-- The double that a value is converted to. -/
def toReal : Value → Except Fault Binary64
  | some n =>
    match n.toBinary64? with
    | some x => .ok x
    | none => .error .overflow
  | none => .error (.type none)

def toReals (vs : List Value) : Except Fault (List Binary64) := vs.mapM toReal

/-- The doubles that results of formulas are converted to. -/
def ofOperands (vs : List Operand) : Except Fault (List Binary64) := toReals (vs.map Operand.value)

/-- The whole number that a value is. -/
def toInt : Value → Except Fault Int
  | some (.int n) => .ok n
  | _ => .error (.type none)

/-- Arithmetic on values. -/
def combine (op : Number → Number → Option Number) (a b : Value) : Except Fault Number :=
  match a, b with
  | some x, some y =>
    match op x y with
    | some z => .ok z
    | none => .error .overflow
  | _, _ => .error (.type none)

end Gantry.Value
