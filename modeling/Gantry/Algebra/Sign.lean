import Gantry.Algebra.Expr

/-!
What is known about the sign of an expression. Real expressions have a set of
possible signs, found from their parts; expressions without symbols are
evaluated instead. Everything that is not certain to be real has none.
-/

namespace Gantry.Algebra

/-- The signs that a real expression may have. -/
structure Signs where
  negative : Bool
  zero : Bool
  positive : Bool
  deriving DecidableEq, Inhabited

namespace Signs

def any : Signs := ⟨true, true, true⟩
def plus : Signs := ⟨false, false, true⟩

def isPositive (s : Signs) : Bool := s.positive && !s.zero && !s.negative
def isNegative (s : Signs) : Bool := s.negative && !s.zero && !s.positive
def isZero (s : Signs) : Bool := s.zero && !s.negative && !s.positive
def isNonnegative (s : Signs) : Bool := !s.negative
def isNonpositive (s : Signs) : Bool := !s.positive
def isNonzero (s : Signs) : Bool := !s.zero

def neg (s : Signs) : Signs := ⟨s.positive, s.zero, s.negative⟩

def add (s t : Signs) : Signs where
  negative := s.negative || t.negative
  positive := s.positive || t.positive
  zero := s.zero && t.zero || s.positive && t.negative || s.negative && t.positive

def mul (s t : Signs) : Signs where
  negative := s.negative && t.positive || s.positive && t.negative
  positive := s.positive && t.positive || s.negative && t.negative
  zero := s.zero || t.zero

/-- The greater of two numbers. -/
def larger (s t : Signs) : Signs where
  negative := s.negative && t.negative
  zero := s.zero && (t.zero || t.negative) || t.zero && s.negative
  positive := s.positive || t.positive

def smaller (s t : Signs) : Signs := (larger s.neg t.neg).neg

/-- An even power. -/
def even (s : Signs) : Signs := ⟨false, s.zero, s.negative || s.positive⟩

end Signs

namespace Coefficient

def signs? : Coefficient → Option Signs
  | .unsignedInfinite | .undefined => none
  | c =>
    some (if c.isNegative then ⟨true, false, false⟩
      else if c.isZero then ⟨false, true, false⟩ else .plus)

end Coefficient

namespace NamedConstant

def value? : NamedConstant → Option Binary64
  | .pi => some ⟨0x400921fb54442d18⟩
  | .e => some ⟨0x4005bf0a8b145769⟩
  | .imaginary => none

end NamedConstant

/-- The function of doubles that a head stands for, where it is one of a
single operand. -/
def Head.onReal? : Head → Option (Binary64 → Binary64)
  | .exp => some .exp
  | .log => some .log
  | .sin => some .sin
  | .cos => some .cos
  | .tan => some .tan
  | .asin => some .asin
  | .acos => some .acos
  | .atan => some .atan
  | .sinh => some .sinh
  | .cosh => some .cosh
  | .tanh => some .tanh
  | .abs => some .abs
  | .floor => some .floor
  | .ceiling => some .ceil
  | .sign => some .sign
  | .step => some .step
  | _ => none

namespace Expr

mutual

/-- The approximate value of an expression without symbols; none where it is
not real or not known. -/
def approximate? : Expr → Option Binary64
  | .number c => if c.isNumber then some c.toBinary64 else none
  | .constant c => c.value?
  | .symbol _ _ => none
  | .sum ts => (approximateAll? ts).map (·.foldl (· + ·) Binary64.zero)
  | .product fs => (approximateAll? fs).map (·.foldl (· * ·) Binary64.one)
  | .power b e => do
    let x ← b.approximate?
    let y ← e.approximate?
    return x.pow y
  | .apply f args => do
    let xs ← approximateAll? args
    match f, xs with
    | .atan2, [y, x] => return y.atan2 x
    | .larger, x :: xs => return xs.foldl Binary64.maximum x
    | .smaller, x :: xs => return xs.foldl Binary64.minimum x
    | f, [x] => do
      let g ← f.onReal?
      return g x
    | _, _ => none

def approximateAll? : List Expr → Option (List Binary64)
  | [] => some []
  | e :: es => do
    let x ← e.approximate?
    let xs ← approximateAll? es
    return x :: xs

end

/-- The sign of the approximate value. -/
def approximateSigns? (e : Expr) : Option Signs := do
  let x ← e.approximate?
  if x.isNaN then none
  else return ⟨x.lt Binary64.zero, x.isZero, Binary64.zero.lt x⟩

def addSigns? : Option Signs → Option Signs → Option Signs
  | some s, some t => some (s.add t)
  | _, _ => none

/-- The signs of a power with a numeric exponent. -/
def powerSigns? (base : Signs) (exponent : Coefficient) : Option Signs :=
  let defined := !exponent.isNegative || base.isNonzero
  match exponent.integer? with
  | some n => if defined then some (if n % 2 = 0 then base.even else base) else none
  | none =>
    if defined && base.isNonnegative && exponent.isFinite then some base else none

mutual

/-- The possible signs of an expression that is certain to be real. -/
def signs? : Expr → Option Signs
  | .number c => c.signs?
  | .constant .imaginary => none
  | .constant _ => some .plus
  | .symbol _ isReal => if isReal then some .any else none
  | .sum ts => if allConstant ts then approximateSigns? (.sum ts) else sumSigns? ts
  | .product fs => if allConstant fs then approximateSigns? (.product fs) else productSigns? fs
  | .power b e => do
    let s ← b.signs?
    match e with
    | .number c => powerSigns? s c
    | e => if s.isPositive && e.signs?.isSome then some .plus else none
  | .apply .log [a] =>
    match a.signs? with
    | some s => if s.isPositive then some ((signsLessOne? a).getD .any) else none
    | none => none
  | .apply .larger (a :: as) => (a.signs?).bind (largerSigns? as)
  | .apply .smaller (a :: as) => (a.signs?).bind (smallerSigns? as)
  | .apply .atan2 [a, b] => if a.signs?.isSome && b.signs?.isSome then some .any else none
  | .apply .step _ => some .any
  | .apply .abs [a] => some ((a.signs?).getD .any).even
  | .apply f [a] =>
    match a.signs? with
    | none => none
    | some s =>
      match f with
      | .exp | .cosh => some .plus
      | .sin | .cos | .tan => some .any
      | .atan | .sinh | .tanh | .sign => some s
      | .floor => some ⟨s.negative, s.zero || s.positive, s.positive⟩
      | .ceiling => some ⟨s.negative, s.zero || s.negative, s.positive⟩
      | _ => none
  | .apply _ _ => none

/-- The signs of a sum of terms. -/
def sumSigns? : List Expr → Option Signs
  | [] => some ⟨false, true, false⟩
  | t :: ts => addSigns? t.signs? (sumSigns? ts)

def productSigns? : List Expr → Option Signs
  | [] => some .plus
  | f :: fs =>
    match f.signs?, productSigns? fs with
    | some s, some t => some (s.mul t)
    | _, _ => none

def largerSigns? (es : List Expr) (s : Signs) : Option Signs :=
  match es with
  | [] => some s
  | e :: es => (e.signs?).bind fun t => largerSigns? es (s.larger t)

def smallerSigns? (es : List Expr) (s : Signs) : Option Signs :=
  match es with
  | [] => some s
  | e :: es => (e.signs?).bind fun t => smallerSigns? es (s.smaller t)

/-- The signs of an expression less one. -/
def signsLessOne? : Expr → Option Signs
  | .number c => (c.add (.ofInt (-1))).signs?
  | .sum (.number c :: ts) => addSigns? (c.add (.ofInt (-1))).signs? (sumSigns? ts)
  | _ => none

end

def isReal (e : Expr) : Bool := e.signs?.isSome

def hasSigns (p : Signs → Bool) (e : Expr) : Bool := (e.signs?.map p).getD false

def isPositive : Expr → Bool := hasSigns Signs.isPositive
def isNegative : Expr → Bool := hasSigns Signs.isNegative
def isNonnegative : Expr → Bool := hasSigns Signs.isNonnegative
def isNonpositive : Expr → Bool := hasSigns Signs.isNonpositive
def isNonzero : Expr → Bool := hasSigns Signs.isNonzero
def vanishes : Expr → Bool := hasSigns Signs.isZero

mutual

/-- Whether an expression is certain to be a whole number. -/
def isWhole : Expr → Bool
  | .number c => c.integer?.isSome
  | .constant _ | .symbol _ _ => false
  | .sum ts => allWhole ts
  | .product fs => allWhole fs
  | .power b e =>
    b.isWhole && (match e with
      | .number c => c.integer?.isSome && !c.isNegative
      | _ => false)
  | .apply .floor [a] | .apply .ceiling [a] | .apply .sign [a] => a.isReal
  | .apply .abs args | .apply .larger args | .apply .smaller args => allWhole args
  | .apply _ _ => false

def allWhole : List Expr → Bool
  | [] => true
  | e :: es => e.isWhole && allWhole es

end

end Expr

end Gantry.Algebra
