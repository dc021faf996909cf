import Gantry.Formula.Evaluation
import Gantry.Formula.Listing

/-!
Generated code: nested calls over literals, names and the items of a scope.
What its names stand for is laid down in one table, and a name that is not in
it is undefined. The callee of a call is looked up before its arguments are
evaluated, left to right.
-/

namespace Gantry

/-- An expression of generated code. -/
inductive Code where
  | literal (n : Number)
  | name (x : String)
  | minus (operand : Code)
  /-- What the scope holds under a key. -/
  | item (key : String)
  | call (callee : String) (args : List Code)
  deriving Inhabited

/-- What a name of generated code stands for. -/
inductive Global where
  | unary (op : UnaryOp)
  | binary (op : BinaryOp)
  | function (f : Function)
  | constant (x : Binary64)
  deriving Inhabited

namespace Global

/-- The names that generated code has at its disposal. -/
def byName : List (String × Global) :=
  [BinaryOp.add, .sub, .mul, .div, .pow].map (fun op => (op.callName, binary op)) ++
    [UnaryOp.neg, .pos].map (fun op => (op.callName, unary op)) ++
    Function.byName.map (fun entry => (functionName entry.1, function entry.2)) ++
    ["pi", "E"].filterMap fun c => (constant? c).map fun x => (constantName c, constant x)

def ofName? (x : String) : Option Global := byName.lookup x

/-- Calls what a name stands for. A constant is called in vain. -/
def apply : Global → List Operand → Except OperandFailure Operand
  | .unary op, [a] => op.apply a
  | .binary op, [a, b] => op.apply a b
  | .function f, args => f.apply args
  | _, _ => .error .operandCount

/-- The value of a name that is not called. An operation is none. -/
def value : Global → Except OperandFailure Operand
  | .constant x => .ok (some (.real x))
  | _ => .error .absent

end Global

/-- A value behind a minus sign. A number as it was given stays one. -/
def Operand.minus : Operand → Except OperandFailure Operand
  | some (.given (.int n)) => .ok (some (.given (.int (-n))))
  | some (.given (.real x)) => .ok (some (.real x.neg))
  | a => UnaryOp.neg.apply a

namespace Code

mutual

/-- The value of an expression in a scope. -/
def evaluate (scope : Scope) : Code → Except EvalFailure Operand
  | .literal n => .ok (some (.given n))
  | .name x =>
    match Global.ofName? x with
    | some g => g.value.mapError .operand
    | none => .error (.undefined x)
  | .minus c => do
    let a ← c.evaluate scope
    a.minus.mapError .operand
  | .item key =>
    match scope[key]? with
    | some v => .ok v
    | none => .error (.absent key)
  | .call callee args =>
    match Global.ofName? callee with
    | none => .error (.undefined callee)
    | some g => do
      let values ← evaluateAll scope args
      (g.apply values).mapError .operand

def evaluateAll (scope : Scope) : List Code → Except EvalFailure (List Operand)
  | [] => .ok []
  | c :: cs => do
    let v ← c.evaluate scope
    let vs ← evaluateAll scope cs
    return v :: vs

end

end Code

end Gantry
