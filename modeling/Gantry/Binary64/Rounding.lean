import Gantry.Binary64

/-!
Rounding an exact ratio to the nearest double, ties to the even significand.
The significand and its exponent step make up the magnitude word together, so
a significand that rounds up to `2 ^ 53` carries into the exponent by itself.
-/

namespace Gantry

/-- Nearest natural number to `n / d`, an exact half going to the even one. -/
def roundHalfEven (n d : Nat) : Nat :=
  let q := n / d
  let twice := 2 * (n % d)
  if twice < d then q
  else if d < twice then q + 1
  else if q % 2 = 0 then q else q + 1

namespace Binary64

/-- Scales `n / d` by `2 ^ (-e)`, as a numerator and a denominator. -/
def scaleRatio (n d : Nat) (e : Int) : Nat × Nat :=
  if 0 ≤ e then (n, d <<< e.toNat) else (n <<< (-e).toNat, d)

/-- Exponent at which the significand of `n / d` has 53 bits, or the least
exponent there is. -/
def ratioExponent (n d : Nat) : Int :=
  let guess : Int := (Nat.log2 n : Int) - (Nat.log2 d : Int) - 53
  let (a, b) := scaleRatio n d guess
  let fitted := if 2 * hiddenBit ≤ a / b then guess + 1 else guess
  if fitted < -1074 then -1074 else fitted

/-- Magnitude word of the double nearest to `n / d`. -/
def ratioMagnitude (n d : Nat) : Nat :=
  if n = 0 then 0
  else
    let e := ratioExponent n d
    if 1100 < e then infinityWord
    else
      let (a, b) := scaleRatio n d e
      Nat.min infinityWord ((e + 1074).toNat * hiddenBit + roundHalfEven a b)

def ofRatio (negative : Bool) (n d : Nat) : Binary64 := ofMagnitude negative (ratioMagnitude n d)

def ofNat (n : Nat) : Binary64 := ofRatio false n 1

def ofInt (n : Int) : Binary64 := ofRatio (n < 0) n.natAbs 1

/-- Nearest double to `±m · 10 ^ e`. Exponents beyond the range of doubles
are settled before any power is formed. -/
def ofDecimal (negative : Bool) (m : Nat) (e : Int) : Binary64 :=
  if m = 0 then ofMagnitude negative 0
  else
    let top : Int := e + (Nat.log2 m : Int) / 3 + 1
    if 400 < e then ofMagnitude negative infinityWord
    else if top < -400 then ofMagnitude negative 0
    else if 0 ≤ e then ofRatio negative (m * Nat.pow 10 e.toNat) 1
    else ofRatio negative m (Nat.pow 10 (-e).toNat)

/-- The whole part of a finite number, towards zero. -/
def truncate (x : Binary64) : Int :=
  let size : Nat :=
    if 0 ≤ x.exponent then x.significand <<< x.exponent.toNat
    else x.significand >>> (-x.exponent).toNat
  if x.signBit then -(size : Int) else size

end Binary64

end Gantry
