import Gantry.Algebra.SortKey
import Gantry.Algebra.Radical

/-!
Products, powers, exponentials and absolute values in canonical form. They
are defined together: a product gathers powers of equal bases, a power of a
product is a product of powers, a power of the number `e` is an exponential,
and an even root of an even power is an absolute value. The recursion is
bounded by an allowance that expressions of ordinary depth do not exhaust.
-/

namespace Gantry.Algebra

namespace Expr

/-- A number written as an expression, kept away from one. -/
def numberUnlessOne (c : Coefficient) : List Expr := if c.isOne then [] else [.number c]

/-- A power of minus one: a sign and what is left of a turn. -/
def turn (exponent : Rat) : Bool × List Expr :=
  let whole := exponent.floor
  let rest := exponent - whole
  (whole % 2 = 1,
    if rest = 0 then []
    else if rest = 1 / 2 then [.constant .imaginary]
    else [.power minusOne (.number (.exact rest))])

def signed (negative : Bool) (c : Coefficient) : Coefficient := if negative then c.neg else c

/-- The factors of a power of numbers; the power itself where it is left as
it is. -/
def numericPower (b e : Coefficient) : List Expr :=
  match b, e with
  | .undefined, _ | _, .undefined | _, .unsignedInfinite => [.number .undefined]
  | b, .infinite negative =>
    match (b.abs).compare .one with
    | .gt => [.number (if negative then .zero else if b.isNegative then .unsignedInfinite else .infinite false)]
    | .lt => [.number (if negative then .unsignedInfinite else .zero)]
    | .eq => [.number .undefined]
  | .unsignedInfinite, e => [.number (if e.isNegative then .zero else .unsignedInfinite)]
  | .infinite s, e =>
    if e.isNegative then [zero]
    else if s then
      match e.integer? with
      | some n => [.number (.infinite (n % 2 = 1))]
      | none => [.power (.number b) (.number e)]
    else [.number b]
  | .exact p, .exact q =>
    if p = 0 then [.number (if q < 0 then .unsignedInfinite else .zero)]
    else if q.den = 1 then
      let power := p ^ q.num.natAbs
      [.number (.exact (if q < 0 then 1 / power else power))]
    else
      let r := rationalPower p q
      let (negative, rest) := turn r.turns
      .number (signed negative (.exact r.coefficient)) :: rest ++ r.radicals.map Radical.expr
  | b, e =>
    let x := b.toBinary64.pow e.toBinary64
    if x.isNaN then [.power (.number b) (.number e)] else [.number (.ofApprox x)]

/-- Splits a factor into base and exponent. -/
def basePower : Expr → Expr × Expr
  | .power b e => (b, e)
  | .apply .exp [a] => (.constant .e, a)
  | e => (e, one)

/-- What the factors of a product come down to. -/
structure Factors where
  number : Coefficient
  /-- Exponent of minus one. -/
  turns : Rat
  radicals : List Radical
  powers : List (Expr × Expr)
  deriving Inhabited

def Factors.none : Factors := ⟨.one, 0, [], []⟩

def Factors.add (known : Factors) : Expr → Factors
  | .number c => { known with number := known.number.mul c }
  | .constant .imaginary => { known with turns := known.turns + 1 / 2 }
  | .power (.number (.exact b)) (.number (.exact e)) =>
    { known with
      turns := known.turns + (if b < 0 then e else 0)
      radicals := if b.num.natAbs = 1 then known.radicals else ⟨b.num.natAbs, e⟩ :: known.radicals }
  | e => { known with powers := e.basePower :: known.powers }

def Factors.ofList (es : List Expr) : Factors :=
  let found := es.foldl Factors.add .none
  { found with radicals := found.radicals.reverse, powers := found.powers.reverse }

/-- Adds an exponent to those gathered for a base. -/
def addExponent (b e : Expr) : List (Expr × List (Expr × Coefficient)) →
    List (Expr × List (Expr × Coefficient))
  | [] => let (c, t) := e.splitCoefficient; [(b, [(t, c)])]
  | (d, es) :: rest =>
    if d == b then
      let (c, t) := e.splitCoefficient
      (d, addTerm t c es) :: rest
    else (d, es) :: addExponent b e rest

/-- Powers of equal bases whose exponents are multiples of each other become
one. -/
def gatherPowers (ps : List (Expr × Expr)) : List (Expr × Expr) :=
  (ps.foldl (fun acc (b, e) => addExponent b e acc) []).flatMap fun (b, es) =>
    es.filterMap fun (t, c) => if c.isZero then none else some (b, scale c t)

/-- Whether a base occurs twice. -/
def hasRepeatedBase : List Expr → Bool
  | [] => false
  | e :: es => es.any (fun f => f.basePower.1 == e.basePower.1) || hasRepeatedBase es

/-- The product of a number and factors that need no more gathering. -/
def finishProduct (c : Coefficient) (fs : List Expr) : Expr :=
  let (c, fs) : Coefficient × List Expr :=
    match c with
    | .infinite s =>
      let left := fs.filter fun f => !f.isPositive
      (.infinite (xor s ((left.filter isNegative).length % 2 = 1)), left.filter (!·.isNegative))
    | .unsignedInfinite => (c, fs.filter (!·.isNonzero))
    | c => (c, fs)
  if c == .undefined then .number .undefined
  else if c.isZero then zero
  else
    match sortParts fs with
    | [.sum ts] => if c.isOne then .sum ts else if c.isFinite then distribute c ts
        else .product [.number c, .sum ts]
    | fs => ofFactors (numberUnlessOne c ++ fs)

/-- Whether a leading minus sign can be taken out of a number or a numeric
product. -/
def hasNumericMinus : Expr → Bool
  | .number c => c.isNegative
  | .product (.number c :: fs) => c.isNegative && allConstant fs
  | _ => false

/-- The largest size among the coefficients of terms. -/
def largestCoefficient : Coefficient → List Coefficient → Coefficient
  | big, [] => big
  | big, c :: cs =>
    largestCoefficient (if c.abs.compare big != .lt then c.abs else big) cs

/-- A coefficient as a fraction of the largest. -/
def relativeTo (big c : Coefficient) : Coefficient :=
  if c == big then .one
  else if c == big.neg then .ofInt (-1)
  else
    match c, big with
    | .exact p, .exact q => .exact (p / q)
    | c, big => .ofApprox (c.toBinary64 / big.toBinary64)

/-- An approximate sum under an exponent is divided by its largest
coefficient. -/
def balanced? (ts : List Expr) (e : Coefficient) : Option (Coefficient × Expr) :=
  let parts := ts.map splitCoefficient
  if e.abs.isOne || !(parts.any (·.1.isApprox)) then none
  else
    let big := largestCoefficient (.ofInt (-1)) (parts.map Prod.fst)
    if big.compare .one == .eq || !big.isFinite then none
    else some (big, sumOf (parts.map fun (c, t) => scaleTerm (relativeTo big c) t))

mutual

/-- The product of expressions. -/
def times (fuel : Nat) (es : List Expr) : Expr :=
  match fuel with
  | 0 => ofFactors es
  | fuel + 1 =>
    match es.filter (!·.isOne) with
    | [] => one
    | [e] => e
    | [a, b] =>
      let (a, b) := if b.ratio?.isSome then (b, a) else (a, b)
      match a.ratio?, b.splitCoefficient with
      | some q, (r, .sum ts) =>
        if q = 0 then zero
        else if r.isOne then distribute (.exact q) ts
        else withCoefficient (r.mul (.exact q)) (.sum ts)
      | _, _ => multiply fuel [a, b]
    | es => multiply fuel es

/-- Gathers the factors of a product. -/
def multiply (fuel : Nat) (es : List Expr) : Expr :=
  match fuel with
  | 0 => ofFactors es
  | fuel + 1 =>
    let found := Factors.ofList (es.flatMap factors)
    let (n, radicals) := if found.radicals.isEmpty then (1, []) else Radical.combine found.radicals
    let (negative, turned) := turn found.turns
    let c := (signed negative found.number).mul (.exact (n : Rat))
    let fixed := turned ++ radicals.map Radical.expr
    let before := gatherPowers found.powers
    let after := before.map fun (b, e) => raise fuel b e
    let moved := (before.zip after).any fun ((b, _), p) => p.basePower.1 != b
    if after.any isProduct || moved && hasRepeatedBase after then
      multiply fuel (.number c :: fixed ++ after)
    else
      let numbers := after.filterMap fun p => match p with
        | .number d => some d
        | _ => none
      finishProduct (numbers.foldl Coefficient.mul c)
        (fixed ++ after.filter fun p => match p with
          | .number _ => false
          | _ => true)

/-- A power of an expression. -/
def raise (fuel : Nat) (b e : Expr) : Expr :=
  match fuel with
  | 0 => .power b e
  | fuel + 1 =>
    if e.isZero then one
    else if e.isOne then b
    else
      match e.integer?, b.hasNumericMinus with
      | some n, true =>
        let p := raise fuel (negated b) e
        if n % 2 = 0 then p else negated p
      | _, _ =>
        match b, e with
        | .number c, .number d =>
          match numericPower c d with
          | [p] => p
          | ps => multiply fuel ps
        | .number c, e =>
          if c.isOne then one else if c == .undefined then b else .power b e
        | .constant .e, e => exponential fuel e
        | .constant .imaginary, .number (.exact q) =>
          let (negative, rest) := turn (q / 2)
          multiply fuel (.number (signed negative .one) :: rest)
        | .sum ts, .number d =>
          match balanced? ts d with
          | some (big, s) => times fuel [raise fuel (.number big) e, .power s e]
          | none => .power b e
        | .product fs, .number d =>
          if d.integer?.isSome then times fuel (fs.map fun f => raise fuel f e)
          else raiseProduct fuel fs e
        | .power base inner, e => raisePower fuel base inner e
        | .apply .exp [a], e =>
          if e.isWhole || a.isReal then exponential fuel (times fuel [a, e]) else .power b e
        | .apply .abs [a], e =>
          match e.integer? with
          | some n =>
            if !a.isReal || n = -1 then .power b e
            else if n % 2 = 0 then raise fuel a e
            else times fuel [raise fuel a (ofInt (n - 1)), b]
          | none => .power b e
        | .apply .sign [a], e =>
          match e.integer? with
          | some n => if n % 2 = 0 && a.isNonzero then one else .power b e
          | none => .power b e
        | b, e => .power b e

/-- A power of a product with an exponent that is not whole: factors that are
not negative are taken out. -/
def raiseProduct (fuel : Nat) (fs : List Expr) (e : Expr) : Expr :=
  match fuel with
  | 0 => .power (ofFactors fs) e
  | fuel + 1 =>
    let nonnegative := fs.filter isNonnegative
    let negative := fs.filter isNegative
    let other := fs.filter fun f => !f.isNonnegative && !f.isNegative
    let (outside, inside) : List Expr × List Expr :=
      match negative with
      | [] => (nonnegative, other)
      | [n] =>
        if !other.isEmpty && n.number?.isSome && !(n == minusOne) then
          (nonnegative ++ [negated n], other ++ [minusOne])
        else (nonnegative, other ++ [n])
      | n :: ns =>
        let kept := other.isEmpty && n.number?.isSome
        let rest := if kept then ns else n :: ns
        let sign := if kept then n else one
        let sign := if rest.length % 2 = 1 then negated sign else sign
        (nonnegative ++ rest.map negated, if sign.isOne then other else other ++ [sign])
    if outside.isEmpty then .power (ofFactors fs) e
    else
      let roots := outside.map fun f => raise fuel f e
      if inside.isEmpty then multiply fuel roots
      else
        match times fuel inside with
        | .number c => multiply fuel (raise fuel (.number c) e :: roots)
        | rest => multiply fuel (roots ++ [.power rest e])

/-- A power of a power: exponents are multiplied where that is right for all
values of the base. -/
def raisePower (fuel : Nat) (b inner e : Expr) : Expr :=
  match fuel with
  | 0 => .power (.power b inner) e
  | fuel + 1 =>
    let halves := match e.ratio? with
      | some q => q.den == 2
      | none => false
    let isEven := match inner.integer? with
      | some n => n % 2 == 0
      | none => false
    let isSmall := match inner.number? with
      | some c => c.abs.compare .one == .lt
      | none => false
    if e.isWhole then raise fuel b (times fuel [inner, e])
    else if !inner.isReal then .power (.power b inner) e
    else if inner == minusOne && halves && b.isNonnegative then raise fuel b (negated e)
    else
      let b' := if isEven && b.isReal then absolute fuel b else b
      if isSmall || b'.isNonnegative then raise fuel b' (times fuel [inner, e])
      else .power (.power b inner) e

/-- The exponential of an expression. -/
def exponential (fuel : Nat) (a : Expr) : Expr :=
  match fuel with
  | 0 => .apply .exp [a]
  | fuel + 1 =>
    match a with
    | .number c =>
      match c with
      | .approx x => .number (.ofApprox x.exp)
      | .infinite negative => if negative then zero else .number (.infinite false)
      | .unsignedInfinite | .undefined => .number .undefined
      | c => if c.isZero then one else if c.isOne then .constant .e else .apply .exp [a]
    | .apply .log [x] => x
    | .product fs =>
      let logs := fs.filterMap fun f => match f with
        | .apply .log [x] => some x
        | _ => none
      let others := fs.filter fun f => match f with
        | .apply .log [_] => false
        | _ => true
      match logs with
      | [x] => if allConstant others then raise fuel x (times fuel others) else .apply .exp [a]
      | _ => .apply .exp [a]
    | .sum ts =>
      let parts := ts.map fun t => if t.isOne then .apply .exp [t] else exponential fuel t
      let inside := parts.filterMap fun p => match p with
        | .apply .exp [t] => some t
        | _ => none
      let outside := parts.filter fun p => match p with
        | .apply .exp [_] => false
        | _ => true
      if outside.isEmpty then .apply .exp [a]
      else
        match sumOf inside with
        | .number c => if c.isZero then times fuel outside else
            times fuel [times fuel outside, .apply .exp [.number c]]
        | rest => times fuel [times fuel outside, .apply .exp [rest]]
    | a => .apply .exp [a]

/-- The absolute value of an expression. -/
def absolute (fuel : Nat) (a : Expr) : Expr :=
  match fuel with
  | 0 => .apply .abs [a]
  | fuel + 1 =>
    match a with
    | .number c =>
      match c with
      | .unsignedInfinite => .number (.infinite false)
      | c => .number c.abs
    | .constant .imaginary => one
    | .product fs =>
      let known := fs.filterMap fun f => match absolute fuel f with
        | .apply .abs _ => none
        | .power (.apply .abs _) _ => none
        | p => some p
      let unknown := fs.filter fun f => match absolute fuel f with
        | .apply .abs _ => true
        | .power (.apply .abs _) _ => true
        | _ => false
      if unknown.isEmpty then times fuel known
      else times fuel [times fuel known, .apply .abs [times fuel unknown]]
    | a =>
      if a.vanishes then zero
      else if a.isNonnegative then a
      else if a.isNonpositive then negated a
      else
        match a with
        | .power b (.number c) =>
          if !b.isReal then .apply .abs [a]
          else
            match c.integer? with
            | some n => if n % 2 = 0 then a else raise fuel (absolute fuel b) (.number c)
            | none => if b.isNonnegative then a else .apply .abs [a]
        | .sum _ => if a.leadsWithMinus then .apply .abs [negated a] else .apply .abs [a]
        | a => .apply .abs [a]

end

/-- Allowance for the depth of mutual calls. -/
def productFuel : Nat := 100

def productOf (es : List Expr) : Expr := times productFuel es
def powerOf (b e : Expr) : Expr := raise productFuel b e
def expOf (a : Expr) : Expr := exponential productFuel a
def absOf (a : Expr) : Expr := absolute productFuel a

def quotientOf (a b : Expr) : Expr :=
  if a.isOne then powerOf b minusOne else productOf [a, powerOf b minusOne]

def sqrtOf (a : Expr) : Expr := powerOf a half

end Expr

end Gantry.Algebra
