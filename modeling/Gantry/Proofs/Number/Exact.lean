import Gantry.Scalar
import Mathlib.Algebra.Field.Rat
import Mathlib.Algebra.Order.Ring.Unbundled.Rat

/-!
Exact arithmetic. The numbers of an ordered field are calculated with as the field says: nothing
is rounded, and nothing runs out of range.
-/

namespace Gantry.Scalar

/-- Numbers of an ordered field, as training and calibration calculate with them. -/
@[reducible] def ofField (K : Type) [Field K] [LinearOrder K] : Scalar K where
  ofNat n := n
  abs x := if x < 0 then -x else x
  lt x y := decide (x < y)
  larger x y := if y < x then x else y
  isFinite _ := true

theorem allFinite_ofField {K : Type} [Field K] [LinearOrder K] (xs : List K) :
    @allFinite K (ofField K) xs = true :=
  List.all_eq_true.2 fun _ _ => rfl

end Gantry.Scalar
