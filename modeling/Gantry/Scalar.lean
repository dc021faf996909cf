import Gantry.Binary64.Rounding

/-!
Numbers that training and calibration calculate with. Doubles are what machines
use; fractions give the same algorithms their exact meaning.
-/

namespace Gantry

class Scalar (α : Type) extends Add α, Sub α, Mul α, Div α where
  ofNat : Nat → α
  abs : α → α
  lt : α → α → Bool
  /-- The larger operand; not-a-number if either is. -/
  larger : α → α → α
  isFinite : α → Bool

namespace Scalar

variable {α : Type} [Scalar α]

def zero : α := ofNat 0
def one : α := ofNat 1

def allFinite (xs : List α) : Bool := xs.all isFinite

/-- The largest magnitude in a list. -/
def largest (xs : List α) : α := xs.foldl (fun m x => larger m (abs x)) zero

end Scalar

instance : Scalar Binary64 where
  ofNat := Binary64.ofNat
  abs := Binary64.abs
  lt := Binary64.lt
  larger := Binary64.maximum
  isFinite := Binary64.isFinite

instance : Scalar Rat where
  ofNat n := (n : Rat)
  abs x := if x < 0 then -x else x
  lt x y := decide (x < y)
  larger x y := if y < x then x else y
  isFinite _ := true

@[simp] theorem Scalar.allFinite_rat (xs : List Rat) : Scalar.allFinite xs = true := by
  simp [Scalar.allFinite, Scalar.isFinite]

/-- Combines two lists entry by entry. A single entry goes with every entry of
the other list; lists of other lengths do not fit together. -/
def entrywise {α β γ : Type} (f : α → β → γ) (xs : List α) (ys : List β) : Option (List γ) :=
  if xs.length = ys.length then some (List.zipWith f xs ys)
  else
    match xs, ys with
    | [x], ys => some (ys.map (f x))
    | xs, [y] => some (xs.map fun x => f x y)
    | _, _ => none

theorem entrywise_of_length {α β γ : Type} (f : α → β → γ) {xs : List α} {ys : List β}
    (h : xs.length = ys.length) : entrywise f xs ys = some (List.zipWith f xs ys) := by
  simp [entrywise, h]

end Gantry
