import Gantry.Algebra.SortKey

/-!
The text of an expression. Terms and factors are shown in the order of their
keys; powers with negative numbers in their exponents go below a fraction
line, and parentheses stand where a part binds no tighter than its place.
-/

namespace Gantry.Algebra.Expr

/-- Binding strengths of texts. -/
def sumStrength : Nat := 40
def productStrength : Nat := 50
def powerStrength : Nat := 60
def atomStrength : Nat := 1000

def strength : Expr → Nat
  | .number c =>
    if c.isNegative then sumStrength
    else
      match c with
      | .exact q => if q.den = 1 then atomStrength else productStrength
      | _ => atomStrength
  | .sum _ => sumStrength
  | .product fs => if (Expr.product fs).leadsWithMinus then sumStrength else productStrength
  | .power _ _ => powerStrength
  | _ => atomStrength

def parenthesized (s : String) : String := "(" ++ s ++ ")"

/-- Encloses a text that does not bind tighter than its place. -/
def within (place : Nat) (part : Nat) (s : String) : String :=
  if part ≤ place then parenthesized s else s

/-- Joins the signed texts of terms. -/
def joinTerms : List (Bool × String) → String
  | [] => ""
  | (negative, first) :: rest =>
    rest.foldl (fun acc (negative, t) => acc ++ (if negative then " - " else " + ") ++ t)
      ((if negative then "-" else "") ++ first)

/-- The text of a term, with its sign split off. -/
def signedTerm (t : Expr) (s : String) : Bool × String :=
  if s.startsWith "-" && !t.isSum then
    let rest := (s.drop 1).toString
    (true, if t.strength < sumStrength then parenthesized rest else rest)
  else (false, if t.isSum then parenthesized s else s)

/-- Whether a factor goes below the fraction line. -/
def isBelow : Expr → Bool
  | .power _ e => e.splitCoefficient.1.isNegative
  | _ => false

/-- Above and below the fraction line. -/
def fraction (above below : List String) : String :=
  let top := if above.isEmpty then "1" else "*".intercalate above
  match below with
  | [] => top
  | [b] => top ++ "/" ++ b
  | bs => top ++ "/" ++ parenthesized ("*".intercalate bs)

def isHalf : Expr → Bool
  | .number (.exact q) => q == 1 / 2
  | _ => false

def isMinusHalf : Expr → Bool
  | .number (.exact q) => q == -1 / 2
  | _ => false

def isMinusOne (e : Expr) : Bool := e == minusOne

/-- A numeric factor above and below the line. -/
def numberParts (place : Nat) : Coefficient → List String × List String
  | .exact q =>
    (if q.num = 1 then [] else [toString q.num], if q.den = 1 then [] else [toString q.den])
  | c => ([within place (Expr.number c).strength (c.text false)], [])

/-- The text of an expression within another one; `fuel` bounds the depth. -/
def inner : Nat → Expr → String
  | 0, _ => ""
  | fuel + 1, e =>
    let place (p : Nat) (part : Expr) : String := within p part.strength (inner fuel part)
    match e with
    | .number c => c.text false
    | .constant c => (NamedConstant.kindAndText c).2
    | .symbol name _ => name
    | .sum ts => joinTerms ((orderedTerms ts).map fun t => signedTerm t (inner fuel t))
    | .product fs =>
      let p := e.strength
      let (c, _) := e.splitCoefficient
      let rest := match fs with
        | .number d :: rest => if d.isNumber then rest else fs
        | fs => fs
      let (numberAbove, numberBelow) :=
        if c.isOne then ([], []) else numberParts p (if c.isNegative then c.neg else c)
      let ordered := orderedByKey rest
      let above := (ordered.filter (!·.isBelow)).map (place p)
      let below := (ordered.filter isBelow).map fun f =>
        match f with
        | .power b x =>
          if x.isMinusOne then place p b else place p (.power b (scaleTerm (.ofInt (-1)) x))
        | f => inner fuel f
      (if c.isNegative then "-" else "") ++
        fraction (numberAbove ++ above) (numberBelow ++ below)
    | .power b x =>
      if x.isHalf then "sqrt(" ++ inner fuel b ++ ")"
      else if x.isMinusHalf then "1/sqrt(" ++ inner fuel b ++ ")"
      else if x.isMinusOne then "1/" ++ place powerStrength b
      else place powerStrength b ++ "**" ++ place powerStrength x
    | .apply f args =>
      let shown := match f with
        | .larger | .smaller => orderedByKey args
        | _ => args
      f.name ++ parenthesized (", ".intercalate (shown.map (inner fuel)))

/-- The text of an expression. -/
def text (e : Expr) : String :=
  match e with
  | .number c => c.text true
  | e => inner (2 * e.nodeCount + 2) e

end Gantry.Algebra.Expr
