import Gantry.Decimal.Layout
import Gantry.Decimal.Reader

/-!
Numbers as formulas and machine settings hold them: whole numbers of any size,
or doubles. Comparison is by exact value, so a whole number and a double are
equal just when they denote the same point; arithmetic stays whole as long as
both operands are, and otherwise goes through doubles.
-/

namespace Gantry

inductive Number where
  | int (n : Int)
  | real (x : Binary64)
  deriving DecidableEq, Inhabited

/-- Points of the number line, with its two ends. -/
inductive Place where
  | bottom
  | at (units : Int)
  | top
  deriving DecidableEq, Inhabited

def Place.lt : Place → Place → Bool
  | .bottom, .bottom => false
  | .bottom, _ => true
  | .at m, .at n => decide (m < n)
  | .at _, .top => true
  | _, _ => false

/-- Whole numbers are converted from and to decimal digits up to this many. -/
def wholeDigitLimit : Nat := 4300

namespace Number

/-- Where a number stands, in units of `2 ^ -1074`; nowhere if it is not a
number. -/
def place? : Number → Option Place
  | .int n => some (.at (n * (1 <<< 1074 : Nat)))
  | .real x =>
    if x.isNaN then none
    else if x.isInfinite then some (if x.signBit then .bottom else .top)
    else some (.at x.units)

def lt (a b : Number) : Bool :=
  match a, b with
  | .int m, .int n => decide (m < n)
  | _, _ =>
    match a.place?, b.place? with
    | some p, some q => p.lt q
    | _, _ => false

/-- Equality by value. -/
def same (a b : Number) : Bool :=
  match a, b with
  | .int m, .int n => decide (m = n)
  | .real x, .real y => x.eqv y
  | _, _ =>
    match a.place?, b.place? with
    | some p, some q => decide (p = q)
    | _, _ => false

def le (a b : Number) : Bool := a.lt b || a.same b

/-- Whether two literals count as one. A literal counts as itself before its
value is asked for, so one that is not a number, and equals nothing by value, is
found again; its bits tell it from others of its kind. -/
def agrees (a b : Number) : Bool := decide (a = b) || a.same b

/-- The nearest double; infinite for whole numbers beyond the range. -/
def toBinary64 : Number → Binary64
  | .int n => Binary64.ofInt n
  | .real x => x

/-- The nearest double, unless a whole number is beyond the range. -/
def toBinary64? : Number → Option Binary64
  | .int n =>
    let x := Binary64.ofInt n
    if x.isFinite then some x else none
  | .real x => some x

def isNegative (a : Number) : Bool := a.lt (.int 0)

/-- A number as it appears in a message. -/
def text : Number → String
  | .int n => toString n
  | .real x => Decimal.literalText x

/-- A number as a literal. A whole one with too many digits is not written. -/
def text? : Number → Option String
  | .int n =>
    if (toString n.natAbs).length ≤ wholeDigitLimit then some (toString n) else none
  | .real x => some (Decimal.literalText x)

/-- Combines two numbers: exactly when both are whole, else as doubles.
Nothing comes of a whole number beyond the range of doubles. -/
def combine (whole : Int → Int → Int) (fractional : Binary64 → Binary64 → Binary64)
    (a b : Number) : Option Number :=
  match a, b with
  | .int m, .int n => some (.int (whole m n))
  | _, _ =>
    match a.toBinary64?, b.toBinary64? with
    | some x, some y => some (.real (fractional x y))
    | _, _ => none

def add : Number → Number → Option Number := combine (· + ·) (· + ·)
def sub : Number → Number → Option Number := combine (· - ·) (· - ·)
def mul : Number → Number → Option Number := combine (· * ·) (· * ·)

def abs : Number → Number
  | .int n => .int n.natAbs
  | .real x => .real x.abs

/-- The greater of two numbers; the first of two equal ones. -/
def larger (a b : Number) : Number := if a.lt b then b else a

/-- The lesser of two numbers; the first of two equal ones. -/
def smaller (a b : Number) : Number := if b.lt a then b else a

/-- Reads a numeral: whole if it consists of an optional sign and digits. -/
def ofNumeral? (s : String) : Option Number :=
  let (_, cs) := Decimal.signRun s.toList
  if !cs.isEmpty && cs.all Text.isDigit then (Decimal.readInt? s).map .int
  else (Decimal.readReal? s).map .real

end Number

end Gantry
