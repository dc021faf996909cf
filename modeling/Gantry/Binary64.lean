/-!
Double-precision numbers, held as their 64-bit words. Sign, order and
equality are read off the word, so they can be reasoned about; sums, products
and elementary functions go to the machine. The rank of a word places the
numbers on a line on which both zeros stand at the same point.
-/

namespace Gantry

structure Binary64 where
  bits : UInt64
  deriving DecidableEq, Inhabited

namespace Binary64

def ofFloat (x : Float) : Binary64 := ⟨x.toBits⟩

def toFloat (x : Binary64) : Float := Float.ofBits x.bits

/-- Mask of the sign bit. -/
def signMask : UInt64 := 0x8000000000000000

/-- Magnitude word of the infinities; larger magnitudes are not numbers. -/
def infinityWord : Nat := 0x7ff0000000000000

/-- The leading bit of a normal significand, which the word leaves out:
`2 ^ 52`. -/
def hiddenBit : Nat := 0x10000000000000

def magnitude (x : Binary64) : Nat := (x.bits &&& 0x7fffffffffffffff).toNat

/-- Whether the sign bit is set; true of negative zero too. -/
def signBit (x : Binary64) : Bool := x.bits &&& signMask != 0

def ofMagnitude (negative : Bool) (magnitude : Nat) : Binary64 :=
  ⟨if negative then UInt64.ofNat magnitude ||| signMask else UInt64.ofNat magnitude⟩

def zero : Binary64 := ⟨0⟩
def one : Binary64 := ⟨0x3ff0000000000000⟩
def half : Binary64 := ⟨0x3fe0000000000000⟩
def nan : Binary64 := ⟨0x7ff8000000000000⟩
def infinity : Binary64 := ⟨0x7ff0000000000000⟩
def negInfinity : Binary64 := ⟨0xfff0000000000000⟩

def isNaN (x : Binary64) : Bool := infinityWord < x.magnitude
def isFinite (x : Binary64) : Bool := x.magnitude < infinityWord
def isInfinite (x : Binary64) : Bool := x.magnitude == infinityWord
def isZero (x : Binary64) : Bool := x.magnitude == 0

/-- Place of a number on the line of all doubles. -/
def rank (x : Binary64) : Int :=
  if x.signBit then -(x.magnitude : Int) else x.magnitude

def lt (x y : Binary64) : Bool := !x.isNaN && !y.isNaN && decide (x.rank < y.rank)
def le (x y : Binary64) : Bool := !x.isNaN && !y.isNaN && decide (x.rank ≤ y.rank)

/-- Numerical equality: both zeros are equal, and not-a-number equals nothing. -/
def eqv (x y : Binary64) : Bool := !x.isNaN && !y.isNaN && decide (x.rank = y.rank)

def neg (x : Binary64) : Binary64 := ⟨x.bits ^^^ signMask⟩
def abs (x : Binary64) : Binary64 := ⟨x.bits &&& 0x7fffffffffffffff⟩

/-- Significand and exponent of the magnitude: a finite number is
`±significand · 2 ^ exponent`. -/
def significand (x : Binary64) : Nat :=
  if x.magnitude / hiddenBit = 0 then x.magnitude
  else hiddenBit + x.magnitude % hiddenBit

def exponent (x : Binary64) : Int :=
  if x.magnitude / hiddenBit = 0 then -1074 else (x.magnitude / hiddenBit : Nat) - 1075

/-- Value of a finite number in units of `2 ^ -1074`, which is always whole. -/
def units (x : Binary64) : Int :=
  let size : Int := (x.significand <<< (x.exponent + 1074).toNat : Nat)
  if x.signBit then -size else size

private def lift1 (f : Float → Float) (x : Binary64) : Binary64 := ofFloat (f x.toFloat)

private def lift2 (f : Float → Float → Float) (x y : Binary64) : Binary64 :=
  ofFloat (f x.toFloat y.toFloat)

def add : Binary64 → Binary64 → Binary64 := lift2 (· + ·)
def sub : Binary64 → Binary64 → Binary64 := lift2 (· - ·)
def mul : Binary64 → Binary64 → Binary64 := lift2 (· * ·)
def div : Binary64 → Binary64 → Binary64 := lift2 (· / ·)
def pow : Binary64 → Binary64 → Binary64 := lift2 Float.pow
def atan2 : Binary64 → Binary64 → Binary64 := lift2 Float.atan2
def sin : Binary64 → Binary64 := lift1 Float.sin
def cos : Binary64 → Binary64 := lift1 Float.cos
def tan : Binary64 → Binary64 := lift1 Float.tan
def asin : Binary64 → Binary64 := lift1 Float.asin
def acos : Binary64 → Binary64 := lift1 Float.acos
def atan : Binary64 → Binary64 := lift1 Float.atan
def sinh : Binary64 → Binary64 := lift1 Float.sinh
def cosh : Binary64 → Binary64 := lift1 Float.cosh
def tanh : Binary64 → Binary64 := lift1 Float.tanh
def exp : Binary64 → Binary64 := lift1 Float.exp
def log : Binary64 → Binary64 := lift1 Float.log
def sqrt : Binary64 → Binary64 := lift1 Float.sqrt
def floor : Binary64 → Binary64 := lift1 Float.floor
def ceil : Binary64 → Binary64 := lift1 Float.ceil

instance : Add Binary64 := ⟨add⟩
instance : Sub Binary64 := ⟨sub⟩
instance : Mul Binary64 := ⟨mul⟩
instance : Div Binary64 := ⟨div⟩
instance : Neg Binary64 := ⟨neg⟩

/-- The sign as a number: zero of either sign gives zero, and not-a-number
stays what it is. -/
def sign (x : Binary64) : Binary64 :=
  if x.isNaN then x else if x.rank < 0 then ⟨0xbff0000000000000⟩
  else if 0 < x.rank then one else zero

/-- The unit step, one half at zero. -/
def step (x : Binary64) : Binary64 :=
  if x.isNaN then x else if x.rank < 0 then zero else if 0 < x.rank then one else half

/-- The larger operand; the second of two equal ones, and not-a-number if
either is. -/
def maximum (x y : Binary64) : Binary64 := if x.isNaN || y.lt x then x else y

/-- The smaller operand; the second of two equal ones, and not-a-number if
either is. -/
def minimum (x y : Binary64) : Binary64 := if x.isNaN || x.lt y then x else y

theorem lt_irrefl (x : Binary64) : x.lt x = false := by simp [lt]

theorem lt_trans {x y z : Binary64} (h₁ : x.lt y) (h₂ : y.lt z) : x.lt z := by
  simp only [lt, Bool.and_eq_true, Bool.not_eq_true', decide_eq_true_eq] at h₁ h₂ ⊢
  exact ⟨⟨h₁.1.1, h₂.1.2⟩, Int.lt_trans h₁.2 h₂.2⟩

@[simp] theorem neg_neg (x : Binary64) : x.neg.neg = x := by
  rw [neg, neg, UInt64.xor_assoc, UInt64.xor_self, UInt64.xor_zero]

end Binary64

end Gantry
