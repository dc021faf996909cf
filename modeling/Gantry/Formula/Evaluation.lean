import Gantry.Formula.Basic
import Gantry.Fault
import Std.Data.HashMap

/-!
Evaluation of formulas in a scope of named values. Operands are evaluated left
to right and the first failure ends it; the function of a call is looked up
before its arguments. Direct evaluation and compiled evaluators differ in what
they know by name and share everything else.
-/

namespace Gantry

abbrev Scope := Std.HashMap String Operand

inductive EvalFailure where
  | unbound (names : List String)
  | operand (cause : OperandFailure)
  | unknownOperator (symbol : String)
  | unknownFunction (name : String)
  | unknownConstant (name : String)
  /-- A compiled evaluator refers to a name that nothing defines. -/
  | undefined (name : String)
  /-- A compiled evaluator asks the scope for a name that it does not hold. -/
  | absent (name : String)
  deriving DecidableEq, Inhabited

def unboundMessage (names : List String) : String :=
  "unbound variable(s): " ++ ", ".intercalate names

def EvalFailure.fault : EvalFailure → Fault
  | .unbound names => .unbound (unboundMessage names) names
  | .operand .overflow => .overflow
  | .operand _ => .type none
  | .unknownOperator _ | .unknownFunction _ | .unknownConstant _ | .absent _ => .key none
  | .undefined _ => .undefinedName

/-- How the names and literals of a formula are understood. -/
structure Meaning where
  literal : Number → Except EvalFailure Operand
  constant : String → Except EvalFailure Operand
  function : String → Except EvalFailure Function
  /-- What a variable comes to that the scope does not hold. -/
  unbound : String → EvalFailure

/-- Literals stand for themselves, and unknown names are looked up in vain. -/
def Meaning.direct : Meaning where
  literal n := .ok (some (.given n))
  constant c :=
    match constant? c with
    | some x => .ok (some (.real x))
    | none => .error (.unknownConstant c)
  function f :=
    match Function.ofName? f with
    | some g => .ok g
    | none => .error (.unknownFunction f)
  unbound x := .unbound [x]

/-- In a compiled evaluator a literal without digits is a name like any
other, and unknown names are undefined. -/
def Meaning.compiled : Meaning where
  literal
    | .int n => .ok (some (.given (.int n)))
    | .real x =>
      if x.isFinite then .ok (some (.real x))
      else .error (.undefined (Decimal.literalText x.abs))
  constant c :=
    match constant? c with
    | some x => .ok (some (.real x))
    | none => .error (.undefined ("_const_" ++ c))
  function f :=
    match Function.ofName? f with
    | some g => .ok g
    | none => .error (.undefined ("_fn_" ++ f))
  unbound := .absent

namespace Formula

mutual

def evaluateIn (meaning : Meaning) (scope : Scope) : Formula → Except EvalFailure Operand
  | .number n => meaning.literal n
  | .constant c => meaning.constant c
  | .variable x =>
    match scope[x]? with
    | some v => .ok v
    | none => .error (meaning.unbound x)
  | .group e => e.evaluateIn meaning scope
  | .unary op e =>
    match UnaryOp.ofSymbol? op with
    | none => .error (.unknownOperator op)
    | some o => do
      let a ← e.evaluateIn meaning scope
      (o.apply a).mapError .operand
  | .binary op l r =>
    match BinaryOp.ofSymbol? op with
    | none => .error (.unknownOperator op)
    | some o => do
      let a ← l.evaluateIn meaning scope
      let b ← r.evaluateIn meaning scope
      (o.apply a b).mapError .operand
  | .call f args => do
    let g ← meaning.function f
    let values ← evaluateAllIn meaning scope args
    (g.apply values).mapError .operand

def evaluateAllIn (meaning : Meaning) (scope : Scope) :
    List Formula → Except EvalFailure (List Operand)
  | [] => .ok []
  | e :: es => do
    let v ← e.evaluateIn meaning scope
    let vs ← evaluateAllIn meaning scope es
    return v :: vs

end

/-- The value of a formula in a scope. -/
def evaluate (e : Formula) (scope : Scope) : Except EvalFailure Operand :=
  e.evaluateIn Meaning.direct scope

end Formula

end Gantry
