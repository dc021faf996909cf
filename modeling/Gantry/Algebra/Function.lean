import Gantry.Algebra.Product

/-!
Functions of expressions in canonical form. Values known exactly are put in,
functions of approximations are evaluated, odd and even functions take a
leading minus sign out of their operand, and functions that compare or round
are resolved where signs allow it.
-/

namespace Gantry.Algebra.Expr

def pi : Expr := .constant .pi

def rational (q : Rat) : Expr := .number (.exact q)

/-- Square root of one minus a square. -/
def coSine (x : Expr) : Expr := sqrtOf (minus one (powerOf x (ofInt 2)))

def rootOnePlusSquare (x : Expr) : Expr := sqrtOf (sumOf [one, powerOf x (ofInt 2)])

/-- The multiple of pi that an expression is. -/
def halfTurns? : Expr → Option Rat
  | .constant .pi => some 1
  | .product [.number (.exact q), .constant .pi] => some q
  | _ => none

/-- Sine at multiples of pi that have a closed form. -/
def sineAt? (q : Rat) : Option Expr :=
  let r := q - 2 * (q / 2).floor
  let (negative, r) := if 1 ≤ r then (true, r - 1) else (false, r)
  let r := if 1 / 2 < r then 1 - r else r
  let size? :=
    if r = 0 then some zero
    else if r = 1 / 6 then some half
    else if r = 1 / 4 then some (productOf [half, sqrtOf (ofInt 2)])
    else if r = 1 / 3 then some (productOf [half, sqrtOf (ofInt 3)])
    else if r = 1 / 2 then some one
    else none
  size?.map fun v => if negative then negated v else v

def cosineAt? (q : Rat) : Option Expr := sineAt? (q + 1 / 2)

/-- Splits quarter turns off a sum. -/
def quarterTurns? (ts : List Expr) : Option (Rat × Expr) :=
  match ts.filterMap fun t => (halfTurns? t).map fun q => (q, t) with
  | [(q, t)] =>
    let m := ((2 * q).floor : Rat) / 2
    if m = 0 then none
    else some (m, sumOf (rational (q - m) |> fun r => productOf [r, pi] :: ts.filter (!· == t)))
  | _ => none

/-- Makes an odd function of its values where no minus sign leads. -/
def oddly (f : Expr → Expr) (a : Expr) : Expr :=
  if a.leadsWithMinus then negated (f (negated a)) else f a

def evenly (f : Expr → Expr) (a : Expr) : Expr :=
  if a.leadsWithMinus then f (negated a) else f a

def sine (a : Expr) : Expr :=
  match a with
  | .apply .asin [x] => x
  | .apply .acos [x] => coSine x
  | .apply .atan [x] => quotientOf x (rootOnePlusSquare x)
  | .sum ts =>
    match quarterTurns? ts with
    | some (m, rest) =>
      match sineAt? m, cosineAt? m with
      | some s, some c =>
        sumOf [productOf [s, evenly (.apply .cos [·]) rest], productOf [c, oddly (.apply .sin [·]) rest]]
      | _, _ => .apply .sin [a]
    | none => .apply .sin [a]
  | a => if a.isZero then zero else ((halfTurns? a).bind sineAt?).getD (.apply .sin [a])

def cosine (a : Expr) : Expr :=
  match a with
  | .apply .acos [x] => x
  | .apply .asin [x] => coSine x
  | .apply .atan [x] => quotientOf one (rootOnePlusSquare x)
  | .sum ts =>
    match quarterTurns? ts with
    | some (m, rest) =>
      match sineAt? m, cosineAt? m with
      | some s, some c =>
        minus (productOf [c, evenly (.apply .cos [·]) rest]) (productOf [s, oddly (.apply .sin [·]) rest])
      | _, _ => .apply .cos [a]
    | none => .apply .cos [a]
  | a => if a.isZero then one else ((halfTurns? a).bind cosineAt?).getD (.apply .cos [a])

def tangent (a : Expr) : Expr :=
  match a with
  | .apply .atan [x] => x
  | .apply .asin [x] => quotientOf x (coSine x)
  | .apply .acos [x] => quotientOf (coSine x) x
  | a =>
    if a.isZero then zero
    else
      match (halfTurns? a).bind sineAt?, (halfTurns? a).bind cosineAt? with
      | some s, some c => quotientOf s c
      | _, _ => .apply .tan [a]

def arcSine (a : Expr) : Expr :=
  match a.ratio? with
  | some q =>
    if q = 0 then zero else if q = 1 then productOf [half, pi]
    else if q = 1 / 2 then productOf [rational (1 / 6), pi] else .apply .asin [a]
  | none => .apply .asin [a]

def arcCosine (a : Expr) : Expr :=
  match a.ratio? with
  | some q =>
    if q = 0 then productOf [half, pi] else if q = 1 then zero else if q = -1 then pi
    else if q = 1 / 2 then productOf [rational (1 / 3), pi]
    else if q = -1 / 2 then productOf [rational (2 / 3), pi] else .apply .acos [a]
  | none => .apply .acos [a]

def arcTangent (a : Expr) : Expr :=
  match a with
  | .number (.infinite _) => productOf [half, pi]
  | a =>
    match a.ratio? with
    | some q =>
      if q = 0 then zero else if q = 1 then productOf [rational (1 / 4), pi] else .apply .atan [a]
    | none => .apply .atan [a]

/-- A hyperbolic function with known values at zero and at infinity. -/
def hyperbolic (f : Head) (atZero atInfinity : Expr) (a : Expr) : Expr :=
  if a.isZero then atZero
  else
    match a with
    | .number (.infinite _) => atInfinity
    | a => .apply f [a]

/-- The logarithm of a positive fraction. -/
def logRatio (q : Rat) : Expr :=
  if q = 1 then zero
  else if q.num = 1 then negated (.apply .log [ofInt q.den])
  else .apply .log [rational q]

def logarithm (a : Expr) : Expr :=
  let turned (size : Expr) := sumOf [size, productOf [.constant .imaginary, pi]]
  match a with
  | .number c =>
    match c with
    | .exact q =>
      if q = 0 then .number .unsignedInfinite
      else if q < 0 then turned (logRatio (-q)) else logRatio q
    | .approx x =>
      if x.isZero then .number .unsignedInfinite else turned (.number (.ofApprox x.abs.log))
    | .infinite _ => .number (.infinite false)
    | c => .number c
  | .constant .e => one
  | .apply .exp [x] => if x.isReal then x else .apply .log [a]
  | a => .apply .log [a]

/-- The sign of an expression, with what does not change it left out. -/
def signOf (a : Expr) : Expr :=
  if a.isPositive then one
  else if a.isNegative then minusOne
  else if a.vanishes then zero
  else
    match a with
    | .product fs =>
      let unknown := fs.filter fun f => !f.isPositive && !f.isNegative
      let negative := (fs.filter isNegative).length % 2 = 1
      let rest := Expr.apply .sign [ofFactors unknown]
      if negative then negated rest else rest
    | .apply .sign _ => a
    | a => .apply .sign [a]

def stepOf (a : Expr) : Expr :=
  if a.isNegative then zero
  else if a.isPositive then one
  else if a.vanishes then half
  else .apply .step [a]

/-- The whole number that an expression is known to be. -/
def wholeValue? : Expr → Option Expr
  | .number (.approx x) =>
    if x.floor.eqv x then some (ofInt x.truncate) else none
  | e => if e.isWhole then some e else none

/-- Rounding to a whole number: whole terms are taken out, and numbers are
rounded when nothing else is left. -/
def roundOf (f : Head) (toward : Binary64 → Binary64) (a : Expr) : Expr :=
  match a with
  | .number (.infinite _) | .number .unsignedInfinite | .number .undefined => a
  | a =>
    let whole := a.terms.filterMap wholeValue?
    let rest := a.terms.filter fun t => (wholeValue? t).isNone
    let numbers := rest.filter isConstant
    let outside := sumOf whole
    if rest.isEmpty then outside
    else if rest.length = numbers.length then
      match (sumOf numbers).approximate? with
      | some x => sumOf [outside, ofInt (toward x).truncate]
      | none => sumOf [outside, .apply f [sumOf rest]]
    else sumOf [outside, .apply f [sumOf rest]]

def arcTangent2 (y x : Expr) : Expr :=
  if x.isReal && y.isReal then
    if x.isPositive then oddly arcTangent (quotientOf y x)
    else if x.isNegative && y.isNegative then minus (oddly arcTangent (quotientOf y x)) pi
    else if x.isNegative && y.isNonnegative then sumOf [oddly arcTangent (quotientOf y x), pi]
    else if x.vanishes && y.isPositive then productOf [half, pi]
    else if x.vanishes && y.isNegative then productOf [rational (-1 / 2), pi]
    else if x.vanishes && y.vanishes then .number .undefined
    else .apply .atan2 [y, x]
  else .apply .atan2 [y, x]

/-- Operands of an extremum in the order in which it holds them. -/
def orderedOperands (es : List Expr) : List Expr :=
  (sortBy (fun a b : Expr × Nat × SortKey =>
    ((Ord.compare a.2.1 b.2.1).then (SortKey.compare a.2.2 b.2.2)) != .gt)
    (es.map fun e => (e, e.nodeCount, e.sortKey))).map Prod.fst

def dedup : List Expr → List Expr
  | [] => []
  | e :: es => if es.any (· == e) then dedup es else e :: dedup es

/-- Adds an operand to those of which none is known to exceed another. -/
def addOperand (isLarger : Bool) (v : Expr) : List Expr → List Expr
  | [] => [v]
  | z :: zs =>
    let d := minus v z
    if if isLarger then d.isNonnegative else d.isNonpositive then
      addOperand isLarger v zs
    else if if isLarger then d.isNonpositive else d.isNonnegative then z :: zs
    else z :: addOperand isLarger v zs

/-- An operand of the opposite extremum that a number or another operand
makes useless is left out. -/
def isUseless (isLarger : Bool) (numbers others : List Expr) : Expr → Bool
  | .apply f args =>
    if f == (if isLarger then .smaller else .larger) then
      args.any (fun a => others.any (· == a)) ||
        args.any fun a => numbers.any fun n =>
          a.isConstant && (if isLarger then (minus a n).isNegative else (minus a n).isPositive)
    else false
  | _ => false

/-- The greatest or the least of expressions. -/
def extremumOf (isLarger : Bool) (es : List Expr) : Expr :=
  let head : Head := if isLarger then .larger else .smaller
  let flat := es.flatMap fun e => match e with
    | .apply f args => if f == head then args else [e]
    | e => [e]
  let top : Expr := .number (.infinite (!isLarger))
  let bottom : Expr := .number (.infinite isLarger)
  if flat.any (· == top) then top
  else
    let kept := orderedOperands (dedup (flat.filter (!· == bottom)))
    let numbers := kept.filter isConstant
    let useful := kept.filter fun e => !isUseless isLarger numbers kept e
    match orderedOperands (useful.foldl (fun acc v => addOperand isLarger v acc) []) with
    | [] => bottom
    | [e] => e
    | es => .apply head es

/-- A function of an approximation, evaluated. -/
def evaluated? (f : Head) (args : List Expr) : Option Expr :=
  match f, args with
  | .atan2, [a, b] =>
    match a.number?, b.number? with
    | some c, some d =>
      if c.isApprox || d.isApprox then some (.number (.ofApprox (c.toBinary64.atan2 d.toBinary64)))
      else none
    | _, _ => none
  | .floor, _ | .ceiling, _ | .sign, _ | .step, _ | .abs, _ => none
  | f, [.number (.approx x)] =>
    match f.onReal? with
    | some g => let y := g x; if !y.isFinite then none else some (.number (.ofApprox y))
    | none => none
  | _, _ => none

/-- A function applied to operands. -/
def applied (f : Head) (args : List Expr) : Expr :=
  match evaluated? f args with
  | some e => e
  | none =>
    match f, args with
    | .larger, es => extremumOf true es
    | .smaller, es => extremumOf false es
    | .atan2, [y, x] => arcTangent2 y x
    | f, [a] =>
      if a == .number .undefined then a
      else
        match f with
        | .exp => expOf a
        | .log => logarithm a
        | .sin => oddly sine a
        | .cos => evenly cosine a
        | .tan => oddly tangent a
        | .asin => oddly arcSine a
        | .acos => arcCosine a
        | .atan => oddly arcTangent a
        | .sinh => oddly (hyperbolic .sinh zero (.number (.infinite false))) a
        | .cosh => evenly (hyperbolic .cosh one (.number (.infinite false))) a
        | .tanh => oddly (hyperbolic .tanh zero one) a
        | .abs => absOf a
        | .floor => roundOf .floor .floor a
        | .ceiling => roundOf .ceiling .ceil a
        | .sign => signOf a
        | .step => stepOf a
        | .impulse => if a.isNonzero then zero else .apply .impulse [a]
        | f => .apply f [a]
    | f, args => .apply f args

end Gantry.Algebra.Expr
