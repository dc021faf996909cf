import Gantry.Number

/-!
The operations of formulas on values. A value is a number or absent. Whole
numbers stay whole where they can: an operation puts them into 64-bit words,
signed if they fit, in which it wraps. Division, powers and elementary functions
give doubles. There is one meaning per operation, shared by every way of
evaluating a formula.
-/

namespace Gantry

/-- What formulas compute with: a number as it was given, or a whole number that
an operation has put into a machine word. -/
inductive Quantity where
  | given (n : Number)
  | signed (w : Int64)
  | unsigned (w : UInt64)
  deriving DecidableEq, Inhabited

/-- The number that a quantity is, however it is held. -/
def Quantity.number : Quantity → Number
  | .given n => n
  | .signed w => .int w.toInt
  | .unsigned w => .int w.toNat

/-- A value outside of formulas: a number, or nothing. -/
abbrev Value := Option Number

/-- A value of a formula; absent values are rejected by every operation. -/
abbrev Operand := Option Quantity

def Value.operand (v : Value) : Operand := v.map .given

def Operand.value (a : Operand) : Value := a.map Quantity.number

inductive OperandFailure where
  /-- An operand is absent. -/
  | absent
  /-- An elementary function was given a whole number beyond all words. -/
  | beyondWords
  /-- A whole number does not fit the signed words an operation works in. -/
  | overflow
  /-- A function was given the wrong number of operands. -/
  | operandCount
  deriving DecidableEq, Inhabited

inductive UnaryOp where
  | neg | pos
  deriving DecidableEq, Inhabited

inductive BinaryOp where
  | add | sub | mul | div | pow
  deriving DecidableEq, Inhabited

inductive Elementary where
  | sin | cos | tan | asin | acos | atan | sinh | cosh | tanh | exp | log | sqrt
  deriving DecidableEq, Inhabited

inductive Function where
  | elementary (e : Elementary)
  | abs | floor | ceiling | sign | step
  | atan2 | larger | smaller
  deriving DecidableEq, Inhabited

def UnaryOp.ofSymbol? : String → Option UnaryOp
  | "-" => some .neg
  | "+" => some .pos
  | _ => none

def BinaryOp.ofSymbol? : String → Option BinaryOp
  | "+" => some .add
  | "-" => some .sub
  | "*" => some .mul
  | "/" => some .div
  | "^" => some .pow
  | _ => none

/-- The functions by the names formulas use for them. -/
def Function.byName : List (String × Function) :=
  [("sin", .elementary .sin), ("cos", .elementary .cos), ("tan", .elementary .tan),
   ("asin", .elementary .asin), ("acos", .elementary .acos), ("atan", .elementary .atan),
   ("sinh", .elementary .sinh), ("cosh", .elementary .cosh), ("tanh", .elementary .tanh),
   ("exp", .elementary .exp), ("log", .elementary .log), ("sqrt", .elementary .sqrt),
   ("abs", .abs), ("Abs", .abs), ("floor", .floor), ("ceil", .ceiling), ("ceiling", .ceiling),
   ("sign", .sign), ("Heaviside", .step), ("atan2", .atan2), ("Max", .larger), ("Min", .smaller)]

def Function.ofName? (name : String) : Option Function := Function.byName.lookup name

def Function.arity : Function → Nat
  | .atan2 | .larger | .smaller => 2
  | _ => 1

/-- The named constants. -/
def constant? : String → Option Binary64
  | "pi" => some ⟨0x400921fb54442d18⟩
  | "E" => some ⟨0x4005bf0a8b145769⟩
  | _ => none

namespace Whole

/-- Where signed words end: `2 ^ 63`. -/
def signedEnd : Int := 0x8000000000000000

/-- Where unsigned words end: `2 ^ 64`. -/
def unsignedEnd : Nat := 0x10000000000000000

def isSigned (n : Int) : Bool := decide (-signedEnd ≤ n) && decide (n < signedEnd)
def isUnsigned (n : Int) : Bool := decide (signedEnd ≤ n) && decide (n < unsignedEnd)

def signed? (n : Int) : Option Int64 := if isSigned n then some (.ofInt n) else none

def unsigned? (n : Int) : Option UInt64 :=
  if 0 ≤ n ∧ n < unsignedEnd then some (.ofNat n.toNat) else none

/-- The double that elementary functions see for a whole number. -/
def toReal? (n : Int) : Option Binary64 :=
  if isSigned n || isUnsigned n then some (Binary64.ofInt n) else none

end Whole

def Elementary.apply : Elementary → Binary64 → Binary64
  | .sin => .sin
  | .cos => .cos
  | .tan => .tan
  | .asin => .asin
  | .acos => .acos
  | .atan => .atan
  | .sinh => .sinh
  | .cosh => .cosh
  | .tanh => .tanh
  | .exp => .exp
  | .log => .log
  | .sqrt => .sqrt

namespace Quantity

abbrev real (x : Binary64) : Quantity := .given (.real x)

/-- Applies an operation to a whole number in a word or to a double. A whole number
as it was given is put into the word it fits, and computed exactly if it fits none. -/
def map (signed : Int64 → Int64) (unsigned : UInt64 → UInt64) (whole : Int → Int)
    (fractional : Binary64 → Binary64) : Quantity → Quantity
  | .signed w => .signed (signed w)
  | .unsigned w => .unsigned (unsigned w)
  | .given (.real x) => real (fractional x)
  | .given (.int n) =>
    if Whole.isSigned n then .signed (signed (.ofInt n))
    else if Whole.isUnsigned n then .unsigned (unsigned (.ofNat n.toNat))
    else .given (.int (whole n))

/-- Combines two quantities as doubles, whatever they are. -/
def combineReals (fractional : Binary64 → Binary64 → Binary64) (a b : Quantity) :
    Except OperandFailure Quantity :=
  match a.number.toBinary64?, b.number.toBinary64? with
  | some x, some y => .ok (real (fractional x y))
  | _, _ => .error .overflow

def combineSigned (f : Int64 → Int64 → Int64) : Option Int64 → Option Int64 →
    Except OperandFailure Quantity
  | some a, some b => .ok (.signed (f a b))
  | _, _ => .error .overflow

def combineUnsigned (f : UInt64 → UInt64 → UInt64) : Option UInt64 → Option UInt64 →
    Except OperandFailure Quantity
  | some a, some b => .ok (.unsigned (f a b))
  | _, _ => .error .overflow

/-- Combines whole numbers in words and all else as doubles. A whole number as it
was given has to fit the word it meets, or a signed word if it meets none; words of
both kinds meet as doubles. -/
def combine (signed : Int64 → Int64 → Int64) (unsigned : UInt64 → UInt64 → UInt64)
    (fractional : Binary64 → Binary64 → Binary64) :
    Quantity → Quantity → Except OperandFailure Quantity
  | .given (.int m), .given (.int n) =>
    combineSigned signed (Whole.signed? m) (Whole.signed? n)
  | .given (.int m), .signed b => combineSigned signed (Whole.signed? m) (some b)
  | .signed a, .given (.int n) => combineSigned signed (some a) (Whole.signed? n)
  | .signed a, .signed b => combineSigned signed (some a) (some b)
  | .given (.int m), .unsigned b => combineUnsigned unsigned (Whole.unsigned? m) (some b)
  | .unsigned a, .given (.int n) => combineUnsigned unsigned (some a) (Whole.unsigned? n)
  | .unsigned a, .unsigned b => combineUnsigned unsigned (some a) (some b)
  | a, b => combineReals fractional a b

end Quantity

open Quantity (real combine combineReals)

def UnaryOp.onQuantity : UnaryOp → Quantity → Quantity
  | .neg => Quantity.map (- ·) (- ·) (- ·) Binary64.neg
  | .pos => Quantity.map id id id id

def BinaryOp.onQuantities : BinaryOp → Quantity → Quantity → Except OperandFailure Quantity
  | .add => combine (· + ·) (· + ·) Binary64.add
  | .sub => combine (· - ·) (· - ·) Binary64.sub
  | .mul => combine (· * ·) (· * ·) Binary64.mul
  | .div => combineReals Binary64.div
  | .pow => combineReals Binary64.pow

/-- The sign of an unsigned word. -/
def unsignedSign (w : UInt64) : UInt64 := if w = 0 then 0 else 1

def Function.onQuantity : Function → Quantity → Except OperandFailure Quantity
  | .elementary e, .given (.int n) =>
    match Whole.toReal? n with
    | some x => .ok (real (e.apply x))
    | none => .error .beyondWords
  | .elementary e, a => .ok (real (e.apply a.number.toBinary64))
  | .abs, a => .ok (a.map Int64.abs id (fun n => n.natAbs) Binary64.abs)
  | .floor, a => .ok (a.map id id id Binary64.floor)
  | .ceiling, a => .ok (a.map id id id Binary64.ceil)
  | .sign, a => .ok (a.map (fun w => .ofInt w.toInt.sign) unsignedSign Int.sign Binary64.sign)
  | .step, a =>
    match a.number.toBinary64? with
    | some x => .ok (real x.step)
    | none => .error .overflow
  | _, _ => .error .operandCount

def Function.onQuantities : Function → Quantity → Quantity → Except OperandFailure Quantity
  | .atan2 => combineReals Binary64.atan2
  | .larger => combine Max.max Max.max Binary64.maximum
  | .smaller => combine Min.min Min.min Binary64.minimum
  | _ => fun _ _ => .error .operandCount

def UnaryOp.apply (op : UnaryOp) : Operand → Except OperandFailure Operand
  | none => .error .absent
  | some a => .ok (some (op.onQuantity a))

def BinaryOp.apply (op : BinaryOp) : Operand → Operand → Except OperandFailure Operand
  | some a, some b => (op.onQuantities a b).map some
  | _, _ => .error .absent

def Function.apply (f : Function) (args : List Operand) : Except OperandFailure Operand :=
  if args.length ≠ f.arity then .error .operandCount
  else
    match args with
    | [some a] => (f.onQuantity a).map some
    | [some a, some b] => (f.onQuantities a b).map some
    | _ => .error .absent

end Gantry
