import Gantry.Binary64.Rounding
import Gantry.Text.Blank
import Gantry.Text.Digit

/-!
Reading numbers from text. Digits of every script are accepted, single
underscores may stand between digits, and blanks around a number are ignored.
A number without point or exponent can also be read as a whole number.
-/

namespace Gantry.Decimal

open Gantry.Text

/-- The leading digits of a text, with single underscores between them left
out, and what follows. The flag says whether a digit stands before. -/
def digitRun : Bool → List Char → List Char × List Char
  | after, c :: cs =>
    if isDigit c then
      let (ds, rest) := digitRun true cs
      (c :: ds, rest)
    else if c = '_' ∧ after ∧ (cs.head?.map isDigit).getD false then digitRun false cs
    else ([], c :: cs)
  | _, [] => ([], [])

/-- An optional sign; true is negative. -/
def signRun : List Char → Bool × List Char
  | '-' :: cs => (true, cs)
  | '+' :: cs => (false, cs)
  | cs => (false, cs)

/-- An exponent part, if there is a complete one. -/
def exponentRun (cs : List Char) : Int × List Char :=
  match cs with
  | c :: rest =>
    if c = 'e' ∨ c = 'E' then
      let (negative, unsigned) := signRun rest
      match digitRun false unsigned with
      | ([], _) => (0, cs)
      | (ds, after) =>
        let n : Int := digitsValue ds
        (if negative then -n else n, after)
    else (0, cs)
  | [] => (0, [])

def fractionRun : List Char → List Char × List Char
  | '.' :: cs => digitRun false cs
  | cs => ([], cs)

/-- An unsigned decimal, with the sign it is to have. -/
def unsigned? (negative : Bool) (cs : List Char) : Option Binary64 :=
  let (whole, afterWhole) := digitRun false cs
  let (fraction, afterFraction) := fractionRun afterWhole
  if whole.isEmpty && fraction.isEmpty then none
  else
    match exponentRun afterFraction with
    | (e, []) =>
      some (Binary64.ofDecimal negative (digitsValue (whole ++ fraction)) (e - fraction.length))
    | _ => none

/-- A double from text; the words for infinity and not-a-number are read in
any case. -/
def readReal? (s : String) : Option Binary64 :=
  let (negative, cs) := signRun (trimBlank s.toList)
  let word := String.ofList (cs.map Char.toLower)
  if word = "inf" ∨ word = "infinity" then
    some (if negative then Binary64.negInfinity else Binary64.infinity)
  else if word = "nan" then some Binary64.nan
  else unsigned? negative cs

/-- A whole number from text. -/
def readInt? (s : String) : Option Int :=
  let (negative, cs) := signRun (trimBlank s.toList)
  match digitRun false cs with
  | ([], _) => none
  | (ds, []) => some (if negative then -(digitsValue ds : Int) else digitsValue ds)
  | _ => none

end Gantry.Decimal
