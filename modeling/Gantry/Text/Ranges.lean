/-!
Sets of code points as sorted closed ranges.
-/

namespace Gantry.Text

def inRanges (ranges : List (Nat × Nat)) (n : Nat) : Bool :=
  ranges.any fun (low, high) => decide (low ≤ n) && decide (n ≤ high)

end Gantry.Text
