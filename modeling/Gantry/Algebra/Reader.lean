import Gantry.Algebra.Function
import Gantry.Formula.Reader

/-!
Symbolic expressions from text. The text is read with the grammar of formulas
and any functions; names stand for given expressions, for constants, or for
symbols about which nothing is known. Whole numbers are exact.
-/

namespace Gantry.Algebra

inductive ReadFailure where
  | malformed
  | argumentCount
  /-- An extremum of something that has no place on the number line. -/
  | incomparable
  deriving DecidableEq, Inhabited

def ReadFailure.fault : ReadFailure → Fault
  | .argumentCount => .type none
  | _ => .value none

namespace Expr

def ofNumber : Number → Expr
  | .int n => ofInt n
  | .real x => .number (if x.isZero then .approx x else .ofApprox x)

/-- The expression a name stands for. -/
def ofName (known : List (String × Expr)) (name : String) : Expr :=
  match known.lookup name with
  | some e => e
  | none =>
    match name with
    | "pi" => .constant .pi
    | "E" => .constant .e
    | "I" => .constant .imaginary
    | "oo" => .number (.infinite false)
    | "zoo" => .number .unsignedInfinite
    | "nan" => .number .undefined
    | _ => .symbol name false

/-- Names of functions that take one operand. -/
def unaryHeads : List (String × Head) :=
  [("exp", .exp), ("log", .log), ("ln", .log), ("sin", .sin), ("cos", .cos), ("tan", .tan),
   ("asin", .asin), ("acos", .acos), ("atan", .atan), ("sinh", .sinh), ("cosh", .cosh),
   ("tanh", .tanh), ("abs", .abs), ("Abs", .abs), ("floor", .floor), ("ceil", .ceiling),
   ("ceiling", .ceiling), ("sign", .sign), ("Heaviside", .step)]

/-- Whether an expression can be compared with others. -/
def isComparable : Expr → Bool
  | .number .unsignedInfinite | .number .undefined | .constant .imaginary => false
  | _ => true

def extremum? (isLarger : Bool) (args : List Expr) : Except ReadFailure Expr :=
  if args.all isComparable then .ok (extremumOf isLarger args) else .error .incomparable

/-- A named function applied to operands. -/
def called (name : String) (args : List Expr) : Except ReadFailure Expr :=
  match unaryHeads.lookup name, args with
  | some f, [a] => .ok (applied f [a])
  | some .log, [a, b] => .ok (quotientOf (applied .log [a]) (applied .log [b]))
  | some _, _ => .error .argumentCount
  | none, args =>
    match name, args with
    | "Max", es | "max", es => extremum? true es
    | "Min", es | "min", es => extremum? false es
    | "atan2", [y, x] => .ok (applied .atan2 [y, x])
    | "atan2", _ => .error .argumentCount
    | "sqrt", [a] => .ok (sqrtOf a)
    | "sqrt", _ => .error .argumentCount
    | "cbrt", [a] => .ok (powerOf a (rational (1 / 3)))
    | "cbrt", _ => .error .argumentCount
    | "pow", [a, b] => .ok (powerOf a b)
    | "pow", _ => .error .argumentCount
    | name, es => .ok (.apply (.other name) es)

/-- The expression an operator makes of its operands. -/
def combined (op : String) (a b : Expr) : Expr :=
  match op with
  | "+" => sumOf [a, b]
  | "-" => minus a b
  | "*" => productOf [a, b]
  | "/" => quotientOf a b
  | _ => powerOf a b

mutual

/-- The expression that a formula denotes, with names for expressions. -/
def ofFormula (known : List (String × Expr)) : Formula → Except ReadFailure Expr
  | .number n => .ok (ofNumber n)
  | .constant c => .ok (ofName known c)
  | .variable x => .ok (ofName known x)
  | .group e => ofFormula known e
  | .unary op e => do
    let a ← ofFormula known e
    return if op == "-" then negated a else a
  | .binary op l r => do
    let a ← ofFormula known l
    let b ← ofFormula known r
    return combined op a b
  | .call f args => do
    let es ← ofFormulas known args
    called f es

def ofFormulas (known : List (String × Expr)) : List Formula → Except ReadFailure (List Expr)
  | [] => .ok []
  | e :: es => do
    let a ← ofFormula known e
    let as ← ofFormulas known es
    return a :: as

end

/-- Words that cannot stand for anything. -/
def reserved : List String :=
  ["and", "as", "assert", "async", "await", "break", "class", "continue", "def", "del", "elif",
   "else", "except", "finally", "for", "from", "global", "if", "import", "in", "is", "lambda",
   "nonlocal", "not", "or", "pass", "raise", "return", "try", "while", "with", "yield"]

/-- Reads an expression from text. -/
def read (known : List (String × Expr)) (s : String) : Except ReadFailure Expr :=
  match Formula.parseWith .any s with
  | .ok e =>
    if e.variableNames.any fun name => reserved.contains name then .error .malformed
    else ofFormula known e
  | .error _ => .error .malformed

end Expr

end Gantry.Algebra
