import Gantry.Binary64.Rounding

/-!
Decimal digits of positive ratios. A ratio `n / d` has a leading exponent `p`
with `10 ^ (p - 1) ≤ n / d < 10 ^ p`; the grid with `k` digits consists of the
multiples of `10 ^ (p - k)`.
-/

namespace Gantry.Decimal

/-- `digits · 10 ^ scale`. -/
structure Positive where
  digits : Nat
  scale : Int
  deriving DecidableEq, Inhabited

/-- The digits of a natural number, most significant first. -/
def digitChars (n : Nat) : List Char := Nat.toDigits 10 n

/-- `n / d · 10 ^ (-e)` as a numerator and a denominator. -/
def shift (n d : Nat) (e : Int) : Nat × Nat :=
  if 0 ≤ e then (n, d * Nat.pow 10 e.toNat) else (n * Nat.pow 10 (-e).toNat, d)

/-- Moves a guess at the leading exponent to where the ratio lies. -/
def settle (n d : Nat) : Nat → Int → Int
  | 0, p => p
  | fuel + 1, p =>
    let (a, b) := shift n d p
    if b ≤ a then settle n d fuel (p + 1)
    else if 10 * a < b then settle n d fuel (p - 1)
    else p

/-- The leading exponent of `n / d`. The guess from the binary lengths is off
by a few steps at most, and the settling allows for more. -/
def leadingExponent (n d : Nat) : Int :=
  let gap : Int := (Nat.log2 n : Int) - (Nat.log2 d : Int)
  settle n d 40 (gap * 30103 / 100000)

/-- Drops trailing zeros of a positive number of digits. -/
def Positive.trim : Nat → Positive → Positive
  | 0, x => x
  | fuel + 1, x => if x.digits % 10 = 0 then trim fuel ⟨x.digits / 10, x.scale + 1⟩ else x

/-- `n / d` to `k` significant digits, an exact half going to the even digit. -/
def rounded (n d k : Nat) : Positive :=
  let e := leadingExponent n d - k
  let (a, b) := shift n d e
  let q := roundHalfEven a b
  if q = Nat.pow 10 k then ⟨Nat.pow 10 (k - 1), e + 1⟩ else ⟨q, e⟩

/-- Numerator and denominator of the magnitude of a finite double. -/
def ratioOf (x : Binary64) : Nat × Nat :=
  if 0 ≤ x.exponent then (x.significand <<< x.exponent.toNat, 1)
  else (x.significand, 1 <<< (-x.exponent).toNat)

end Gantry.Decimal
