import Gantry.Algebra.Function

/-!
Derivatives. Where a function jumps its slope is an impulse, which vanishes
almost everywhere; impulses are carried through differentiation.
-/

namespace Gantry.Algebra.Expr

def square (e : Expr) : Expr := powerOf e (ofInt 2)

/-- The product of factors, multiplied one after the other. -/
def chain (es : List Expr) : Expr := es.foldl (fun acc e => productOf [acc, e]) one

/-- The slope of a function of one operand; `whole` is the function applied
to the operand. -/
def slope (f : Head) (whole a : Expr) : Expr :=
  match f with
  | .exp => whole
  | .log => quotientOf one a
  | .sin => applied .cos [a]
  | .cos => negated (applied .sin [a])
  | .tan => sumOf [one, square whole]
  | .asin => quotientOf one (coSine a)
  | .acos => quotientOf minusOne (coSine a)
  | .atan => quotientOf one (sumOf [one, square a])
  | .sinh => applied .cosh [a]
  | .cosh => applied .sinh [a]
  | .tanh => minus one (square (applied .tanh [a]))
  | _ => applied .impulse [a]

/-- The slope of an extremum in its operand `a`, given the others. -/
def extremumSlope (isLarger : Bool) (a : Expr) (others : List Expr) : Expr :=
  let rest := extremumOf isLarger others
  applied .step [if isLarger then minus a rest else minus rest a]

/-- Every element of a list with those before and after it. -/
def splits {α : Type} : List α → List α → List (List α × α × List α)
  | _, [] => []
  | before, a :: after => (before, a, after) :: splits (before ++ [a]) after

/-- Derivative of a product from those of its factors. -/
def productRule (fs ds : List Expr) : Expr :=
  sumOf (((splits [] fs).zip ds).filterMap fun ((before, _, after), d) =>
    if d.isZero then none else some (chain (before ++ d :: after)))

/-- Derivative of a power from those of base and exponent. -/
def powerRule (b e db de : Expr) : Expr :=
  let grown := productOf [de, applied .log [b]]
  let scaled := quotientOf (productOf [db, e]) b
  productOf [.power b e, sumOf [grown, scaled]]

/-- Derivative of a function from those of its operands. -/
def functionRule (f : Head) (args ds : List Expr) : Expr :=
  let partials : List Expr :=
    match f, args with
    | .atan2, [y, x] =>
      let r := sumOf [square x, square y]
      [quotientOf x r, quotientOf (negated y) r]
    | .larger, args => (splits [] args).map fun (before, a, after) =>
      extremumSlope true a (before ++ after)
    | .smaller, args => (splits [] args).map fun (before, a, after) =>
      extremumSlope false a (before ++ after)
    | f, [a] => [slope f (.apply f [a]) a]
    | _, args => args.map fun a => applied .impulse [a]
  sumOf ((partials.zip ds).filterMap fun (p, d) => if d.isZero then none else some (productOf [p, d]))

mutual

/-- The derivative by the symbol `x`, impulses included. -/
def derivative (x : String) : Expr → Expr
  | .number _ | .constant _ => zero
  | .symbol name _ => if name = x then one else zero
  | .sum ts => sumOf (derivatives x ts)
  | .product fs => if mentionsAny x fs then productRule fs (derivatives x fs) else zero
  | .power b e =>
    if b.mentions x || e.mentions x then powerRule b e (b.derivative x) (e.derivative x) else zero
  | .apply .abs [a] =>
    if a.mentions x then productOf [a.derivative x, applied .sign [a]] else zero
  | .apply f args => if mentionsAny x args then functionRule f args (derivatives x args) else zero

def derivatives (x : String) : List Expr → List Expr
  | [] => []
  | e :: es => e.derivative x :: derivatives x es

end

end Gantry.Algebra.Expr
