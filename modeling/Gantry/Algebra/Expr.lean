import Gantry.Algebra.Coefficient
import Gantry.Sorting

/-!
Symbolic expressions. Sums and products hold their parts in a canonical order,
with a numeric part first; the order compares kinds of expressions, then the
number of parts, then the parts one by one.
-/

namespace Gantry.Algebra

inductive NamedConstant where
  | pi | e | imaginary
  deriving DecidableEq, Inhabited

/-- What is applied in an expression. -/
inductive Head where
  | exp | log | sin | cos | tan | asin | acos | atan | sinh | cosh | tanh
  | abs | floor | ceiling | sign | step
  | atan2 | larger | smaller
  /-- The slope of a function that jumps: zero almost everywhere. -/
  | impulse
  /-- A function known only by its name. -/
  | other (name : String)
  deriving DecidableEq, Inhabited

def Head.name : Head → String
  | .exp => "exp"
  | .log => "log"
  | .sin => "sin"
  | .cos => "cos"
  | .tan => "tan"
  | .asin => "asin"
  | .acos => "acos"
  | .atan => "atan"
  | .sinh => "sinh"
  | .cosh => "cosh"
  | .tanh => "tanh"
  | .abs => "Abs"
  | .floor => "floor"
  | .ceiling => "ceiling"
  | .sign => "sign"
  | .step => "Heaviside"
  | .atan2 => "atan2"
  | .larger => "Max"
  | .smaller => "Min"
  | .impulse => "impulse"
  | .other name => name

inductive Expr where
  | number (c : Coefficient)
  | constant (c : NamedConstant)
  | symbol (name : String) (isReal : Bool)
  | sum (terms : List Expr)
  | product (factors : List Expr)
  | power (base exponent : Expr)
  | apply (head : Head) (args : List Expr)
  deriving Inhabited

namespace Expr

mutual

def beq : Expr → Expr → Bool
  | .number a, .number b => a == b
  | .constant a, .constant b => a == b
  | .symbol a r, .symbol b s => a == b && r == s
  | .sum as, .sum bs => beqAll as bs
  | .product as, .product bs => beqAll as bs
  | .power a x, .power b y => beq a b && beq x y
  | .apply f as, .apply g bs => f == g && beqAll as bs
  | _, _ => false

def beqAll : List Expr → List Expr → Bool
  | [], [] => true
  | a :: as, b :: bs => beq a b && beqAll as bs
  | _, _ => false

end

instance : BEq Expr := ⟨beq⟩

def ofInt (n : Int) : Expr := .number (.ofInt n)
def zero : Expr := ofInt 0
def one : Expr := ofInt 1
def minusOne : Expr := ofInt (-1)
def half : Expr := .number (.exact (1 / 2))

def isZero : Expr → Bool
  | .number c => c.isZero
  | _ => false

def isOne : Expr → Bool
  | .number c => c.isOne
  | _ => false

def isSum : Expr → Bool
  | .sum _ => true
  | _ => false

def isProduct : Expr → Bool
  | .product _ => true
  | _ => false

def number? : Expr → Option Coefficient
  | .number c => if c.isNumber then some c else none
  | _ => none

def integer? : Expr → Option Int
  | .number c => c.integer?
  | _ => none

def ratio? : Expr → Option Rat
  | .number (.exact q) => some q
  | _ => none

/-- The terms of a sum; anything else is its own only term. -/
def terms : Expr → List Expr
  | .sum ts => ts
  | e => [e]

/-- The factors of a product; anything else is its own only factor. -/
def factors : Expr → List Expr
  | .product fs => fs
  | e => [e]

def ofFactors : List Expr → Expr
  | [] => one
  | [f] => f
  | fs => .product fs

def ofTerms : List Expr → Expr
  | [] => zero
  | [t] => t
  | ts => .sum ts

/-- Splits off a numeric factor. -/
def splitCoefficient (e : Expr) : Coefficient × Expr :=
  match e with
  | .number c => if c.isNumber then (c, one) else (.one, e)
  | .product (.number c :: fs) => if c.isNumber then (c, ofFactors fs) else (.one, e)
  | _ => (.one, e)

/-- Puts a numeric factor before an expression that has none. -/
def withCoefficient (c : Coefficient) (e : Expr) : Expr :=
  if c.isOne then e
  else
    match e with
    | .number d => if d.isOne then .number c else .number (c.mul d)
    | .product fs => .product (.number c :: fs)
    | e => .product [.number c, e]

mutual

/-- Whether an expression depends on the symbol `x`. -/
def mentions (x : String) : Expr → Bool
  | .number _ | .constant _ => false
  | .symbol name _ => name == x
  | .sum ts => mentionsAny x ts
  | .product fs => mentionsAny x fs
  | .power b e => b.mentions x || e.mentions x
  | .apply _ args => mentionsAny x args

def mentionsAny (x : String) : List Expr → Bool
  | [] => false
  | e :: es => e.mentions x || mentionsAny x es

end

mutual

/-- Whether an expression has no symbols. -/
def isConstant : Expr → Bool
  | .number _ | .constant _ => true
  | .symbol _ _ => false
  | .sum ts => allConstant ts
  | .product fs => allConstant fs
  | .power b e => b.isConstant && e.isConstant
  | .apply _ args => allConstant args

def allConstant : List Expr → Bool
  | [] => true
  | e :: es => e.isConstant && allConstant es

end

mutual

/-- Number of nodes of an expression; a step counts its value at the jump. -/
def nodeCount : Expr → Nat
  | .number _ | .constant _ | .symbol _ _ => 1
  | .sum ts => 1 + nodeCountAll ts
  | .product fs => 1 + nodeCountAll fs
  | .power b e => 1 + b.nodeCount + e.nodeCount
  | .apply f args => 1 + nodeCountAll args + (if f = .step then 1 else 0)

def nodeCountAll : List Expr → Nat
  | [] => 0
  | e :: es => e.nodeCount + nodeCountAll es

end

/-- Kinds that have a place in the order before all named functions. -/
def rank : Expr → Nat
  | .number (.exact q) =>
    if q = 0 then 0 else if q = 1 then 1 else if q = 1 / 2 then 2
    else if q = -1 then 5 else if q.den = 1 then 7 else 8
  | .number (.infinite negative) => if negative then 6 else 3
  | .number .undefined => 4
  | .number (.approx _) => 9
  | .number .unsignedInfinite => 21
  | .constant .e => 10
  | .constant .pi => 11
  | .constant .imaginary => 12
  | .symbol _ _ => 13
  | .power _ _ => 15
  | .product _ => 16
  | .sum _ => 17
  | .apply .abs _ => 20
  | .apply _ _ => 21

/-- The name by which kinds of the last rank are told apart. -/
def kindName : Expr → String
  | .apply f _ => f.name
  | .number .unsignedInfinite => "ComplexInfinity"
  | _ => ""

mutual

/-- The canonical order of parts. -/
def order (a b : Expr) : Ordering :=
  match Ord.compare a.rank b.rank with
  | .eq =>
    match a, b with
    | .number c, .number d => c.compare d
    | .symbol x r, .symbol y s => (Ord.compare r s).then (Ord.compare x y)
    | .sum as, .sum bs => (Ord.compare as.length bs.length).then (orderAll as bs)
    | .product as, .product bs => (Ord.compare as.length bs.length).then (orderAll as bs)
    | .power b x, .power c y => (order b c).then (order x y)
    | .apply f as, .apply g bs =>
      ((Ord.compare f.name g.name).then (Ord.compare as.length bs.length)).then (orderAll as bs)
    | a, b => Ord.compare a.kindName b.kindName
  | other => other

def orderAll : List Expr → List Expr → Ordering
  | a :: as, b :: bs => (order a b).then (orderAll as bs)
  | _, _ => .eq

end

def sortParts (es : List Expr) : List Expr := sortBy (fun a b => order a b != .gt) es

end Expr

end Gantry.Algebra
