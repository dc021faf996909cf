import Gantry.Decimal.Layout

/-!
Numbers in symbolic expressions: exact rationals, decimal approximations, and
the infinities. Arithmetic is exact as long as no approximation takes part;
an approximate result of zero counts as exact.
-/

namespace Gantry.Algebra

inductive Coefficient where
  | exact (q : Rat)
  | approx (x : Binary64)
  | infinite (negative : Bool)
  /-- Infinite in no particular direction. -/
  | unsignedInfinite
  | undefined
  deriving DecidableEq, Inhabited

namespace Coefficient

def ofInt (n : Int) : Coefficient := .exact n
def zero : Coefficient := .exact 0
def one : Coefficient := .exact 1

def ofRat (q : Rat) : Binary64 := Binary64.ofRatio (q.num < 0) q.num.natAbs q.den

def ofApprox (x : Binary64) : Coefficient :=
  if x.isNaN then .undefined
  else if x.isInfinite then .infinite x.signBit
  else if x.isZero then zero
  else .approx x

/-- The nearest double. -/
def toBinary64 : Coefficient → Binary64
  | .exact q => ofRat q
  | .approx x => x
  | .infinite negative => if negative then Binary64.negInfinity else Binary64.infinity
  | _ => Binary64.nan

def isZero : Coefficient → Bool
  | .exact q => q == 0
  | .approx x => x.isZero
  | _ => false

def isOne : Coefficient → Bool
  | .exact q => q == 1
  | _ => false

def isApprox : Coefficient → Bool
  | .approx _ => true
  | _ => false

def isFinite : Coefficient → Bool
  | .exact _ | .approx _ => true
  | _ => false

/-- The infinity without a direction does not count as a number. -/
def isNumber : Coefficient → Bool
  | .unsignedInfinite => false
  | _ => true

def isNegative : Coefficient → Bool
  | .exact q => decide (q < 0)
  | .approx x => x.lt Binary64.zero
  | .infinite negative => negative
  | _ => false

def isPositive : Coefficient → Bool
  | .exact q => decide (0 < q)
  | .approx x => Binary64.zero.lt x
  | .infinite negative => !negative
  | _ => false

def integer? : Coefficient → Option Int
  | .exact q => if q.den = 1 then some q.num else none
  | _ => none

def neg : Coefficient → Coefficient
  | .exact q => .exact (-q)
  | .approx x => .approx x.neg
  | .infinite negative => .infinite (!negative)
  | c => c

def add (a b : Coefficient) : Coefficient :=
  match a, b with
  | .exact p, .exact q => .exact (p + q)
  | .undefined, _ | _, .undefined => .undefined
  | .unsignedInfinite, c | c, .unsignedInfinite =>
    if c.isFinite then .unsignedInfinite else .undefined
  | .infinite s, .infinite t => if s = t then .infinite s else .undefined
  | .infinite s, _ | _, .infinite s => .infinite s
  | a, b => ofApprox (a.toBinary64 + b.toBinary64)

def mul (a b : Coefficient) : Coefficient :=
  match a, b with
  | .exact p, .exact q => .exact (p * q)
  | .undefined, _ | _, .undefined => .undefined
  | .unsignedInfinite, c | c, .unsignedInfinite =>
    if c.isZero then .undefined else .unsignedInfinite
  | .infinite s, c | c, .infinite s =>
    if c.isZero then .undefined else .infinite (s != c.isNegative)
  | a, b => ofApprox (a.toBinary64 * b.toBinary64)

/-- The absolute value. -/
def abs (c : Coefficient) : Coefficient := if c.isNegative then c.neg else c

def compare : Coefficient → Coefficient → Ordering
  | .exact p, .exact q => if p < q then .lt else if q < p then .gt else .eq
  | a, b =>
    let x := a.toBinary64
    let y := b.toBinary64
    if x.lt y then .lt else if y.lt x then .gt else .eq

/-- Decimal digits of approximations in texts. -/
def digitsShown : Nat := 15

/-- Text of a positive approximation: the digits are cut off three places
further on and rounded half up from there. Within an expression trailing
zeros are left out. -/
def approxText (alone : Bool) (x : Binary64) : String :=
  let (n, d) := Decimal.ratioOf x
  let p := Decimal.leadingExponent n d
  let (a, b) := Decimal.shift n d (p - (digitsShown + 3 : Nat))
  let cut := a / b
  let kept := cut / 1000 + (if 5 ≤ cut / 100 % 10 then 1 else 0)
  let r : Decimal.Positive := ⟨kept, p - digitsShown⟩
  if alone then
    Decimal.Layout.coefficient.write
      (if kept = Nat.pow 10 digitsShown then ⟨kept / 10, r.scale + 1⟩ else r)
  else Decimal.Layout.coefficient.write (r.trim 20)

def text (alone : Bool) : Coefficient → String
  | .exact q => if q.den = 1 then toString q.num else toString q.num ++ "/" ++ toString q.den
  | .approx x =>
    if x.isZero then "0.0"
    else if x.signBit then "-" ++ approxText alone x.abs else approxText alone x
  | .infinite negative => if negative then "-oo" else "oo"
  | .unsignedInfinite => "zoo"
  | .undefined => "nan"

end Coefficient

end Gantry.Algebra
