import Gantry.Decimal.Shortest

/-!
How decimal digits are laid out as text: positionally, or with an exponent.
A layout says for which exponents the positional form is used and how an
exponent is written; the digits themselves come from the rounding modules.
-/

namespace Gantry.Decimal

/-- The choices a number format makes. -/
structure Layout where
  /-- Exponents of the first digit from here on are written positionally. -/
  positionalFrom : Int
  /-- Exponents of the first digit below this one are written positionally. -/
  positionalBelow : Int
  /-- Whether a whole number keeps a final zero place. -/
  wholeMark : Bool
  /-- Whether the fraction before an exponent is kept when it is empty. -/
  fractionBeforeExponent : Bool
  /-- Least number of digits of an exponent. -/
  exponentWidth : Nat

/-- Numbers in formulas and documents: positional from 0.0001 up to sixteen
places, and always recognisable as a fraction. -/
def Layout.literal : Layout := ⟨-4, 16, true, false, 2⟩

/-- Coefficients in symbolic expressions: positional from 0.00001 up to
fifteen places. -/
def Layout.coefficient : Layout := ⟨-4, 15, true, true, 1⟩

def padLeft (width : Nat) (cs : List Char) : List Char :=
  List.replicate (width - cs.length) '0' ++ cs

def exponentText (width : Nat) (e : Int) : String :=
  (if e < 0 then "e-" else "e+") ++ String.ofList (padLeft width (digitChars e.natAbs))

/-- Digits with the point behind the first `whole` of them. -/
def positional (wholeMark : Bool) (ds : List Char) (whole : Int) : String :=
  if whole ≤ 0 then
    "0." ++ String.ofList (List.replicate (-whole).toNat '0' ++ ds)
  else
    let n := whole.toNat
    if ds.length ≤ n then
      String.ofList (ds ++ List.replicate (n - ds.length) '0') ++ (if wholeMark then ".0" else "")
    else
      String.ofList (ds.take n) ++ "." ++ String.ofList (ds.drop n)

/-- Writes a positive decimal. -/
def Layout.write (layout : Layout) (x : Positive) : String :=
  let ds := digitChars x.digits
  let first : Int := x.scale + ds.length - 1
  if layout.positionalFrom ≤ first ∧ first < layout.positionalBelow then
    positional layout.wholeMark ds (first + 1)
  else
    let fraction := ds.drop 1
    String.ofList (ds.take 1)
      ++ (if fraction.isEmpty then (if layout.fractionBeforeExponent then ".0" else "")
          else "." ++ String.ofList fraction)
      ++ exponentText layout.exponentWidth first

/-- Text of a double in its shortest digits. -/
def literalText (x : Binary64) : String :=
  if x.isNaN then "nan"
  else
    let size := if x.isInfinite then "inf" else if x.isZero then "0.0"
      else Layout.literal.write (shortest x)
    if x.signBit then "-" ++ size else size

/-- Text of a double with `places` digits after the point and an exponent of
at least two digits. -/
def scientificText (places : Nat) (x : Binary64) : String :=
  if x.isNaN then "nan"
  else if x.isInfinite then (if x.signBit then "-inf" else "inf")
  else
    let (digits, first) : List Char × Int :=
      if x.isZero then (List.replicate (places + 1) '0', 0)
      else
        let (n, d) := ratioOf x
        let r := rounded n d (places + 1)
        (digitChars r.digits, r.scale + places)
    (if x.signBit then "-" else "") ++ String.ofList (digits.take 1)
      ++ (if places = 0 then "" else "." ++ String.ofList (digits.drop 1))
      ++ exponentText 2 first

end Gantry.Decimal
