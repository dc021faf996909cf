import Gantry.Decimal.Digits

/-!
The shortest decimal that reads back as a given double. The reals that round
to a double form an interval around it, with its ends if the significand is
even. The first grid with a point in the interval decides the number of
digits; of two neighbours in it the nearer is taken, and the even one on a tie.
-/

namespace Gantry.Decimal

/-- The interval of reals that round to a double, as multiples of a quarter of
its last place: lower end, the value itself, upper end. -/
def interval (x : Binary64) : Nat × Nat × Nat :=
  let m := x.significand
  let lower := if m = Binary64.hiddenBit ∧ -1074 < x.exponent then 4 * m - 1 else 4 * m - 2
  (lower, 4 * m, 4 * m + 2)

/-- A grid point `c`, measured in units in which the grid has step `b`, lies
in the interval from `lo` to `hi`. -/
def covers (closed : Bool) (lo hi c b : Nat) : Bool :=
  if closed then decide (lo ≤ c * b) && decide (c * b ≤ hi)
  else decide (lo < c * b) && decide (c * b < hi)

/-- The point of a grid of step `b` that reads back as the value `v`. -/
def gridPoint (closed : Bool) (lo v hi b : Nat) : Option Nat :=
  let below := v / b
  match covers closed lo hi below b, covers closed lo hi (below + 1) b with
  | true, true =>
    let r := 2 * (v % b)
    some (if r < b ∨ (r = b ∧ below % 2 = 0) then below else below + 1)
  | true, false => some below
  | false, true => some (below + 1)
  | false, false => none

/-- Searches the grids with `k`, `k + 1`, … digits. -/
def search (x : Binary64) (p : Int) : Nat → Nat → Positive
  | 0, _ => ⟨x.significand, 0⟩
  | fuel + 1, k =>
    let (lower, value, upper) := interval x
    let e := p - k
    let unit := x.exponent - 2
    let up := fun (n : Nat) => if 0 ≤ unit then n <<< unit.toNat else n
    let tens := fun (n : Nat) => if 0 ≤ e then n else n * Nat.pow 10 (-e).toNat
    let step :=
      (if 0 ≤ e then Nat.pow 10 e.toNat else 1) * (if 0 ≤ unit then 1 else 1 <<< (-unit).toNat)
    match gridPoint (x.significand % 2 == 0) (tens (up lower)) (tens (up value))
        (tens (up upper)) step with
    | some c => ⟨c, e⟩
    | none => search x p fuel (k + 1)

/-- The shortest digits of a positive finite double; seventeen always do. -/
def shortest (x : Binary64) : Positive :=
  let (n, d) := ratioOf x
  (search x (leadingExponent n d) 17 1).trim 20

end Gantry.Decimal
