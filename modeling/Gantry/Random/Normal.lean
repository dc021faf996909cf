import Gantry.Random.Stream

/-!
Normally distributed numbers by rejection: the bell curve is covered by 256
layers of equal area, and most draws fall into the part of a layer that lies
under the curve.
-/

namespace Gantry.Random

/-- Where the tail begins. -/
def tailStart : Binary64 := Binary64.ofDecimal false 36541528853610087963519472518 (-28)

/-- Area of a layer. -/
def layerArea : Binary64 := Binary64.ofDecimal false 4928673233974658 (-18)

/-- The number of places on the grid. -/
def gridSize : Binary64 := Binary64.ofNat Binary64.hiddenBit

def two : Binary64 := Binary64.ofNat 2

/-- The bell curve. -/
def bell (x : Binary64) : Binary64 := (-(Binary64.half * x * x)).exp

/-- Limits, widths and heights of the layers. -/
structure Layers where
  limits : Array Nat
  widths : Array Binary64
  heights : Array Binary64
  deriving Inhabited

def setLayer (ls : Layers) (i : Nat) (x : Binary64) : Layers :=
  { ls with widths := ls.widths.setIfInBounds i (x / gridSize)
            heights := ls.heights.setIfInBounds i (bell x) }

def setLimit (ls : Layers) (i : Nat) (ratio : Binary64) : Layers :=
  { ls with limits := ls.limits.setIfInBounds i (ratio * gridSize).truncate.toNat }

/-- Lays the layers from `i` down to the first one; `x` is the edge of the
layer above. -/
def layDown : Nat → Binary64 → Layers → Layers
  | 0, _, ls => ls
  | i + 1, x, ls =>
    let y := (-two * (layerArea / x + bell x).log).sqrt
    layDown i y (setLayer (setLimit ls (i + 2) (y / x)) (i + 1) y)

def layers : Layers :=
  let bottom := layerArea / bell tailStart
  let empty : Layers :=
    ⟨Array.replicate 256 0, Array.replicate 256 Binary64.zero, Array.replicate 256 Binary64.zero⟩
  let ls := setLimit empty 0 (tailStart / bottom)
  let ls := { ls with widths := ls.widths.setIfInBounds 0 (bottom / gridSize)
                      heights := ls.heights.setIfInBounds 0 Binary64.one }
  layDown 254 tailStart (setLayer ls 255 tailStart)

/-- The logarithm of `1 + x` for small `x`. -/
def logOnePlus (x : Binary64) : Binary64 :=
  let u := Binary64.one + x
  if u.eqv Binary64.one then x else u.log * x / (u - Binary64.one)

/-- A draw from the tail. -/
def tail (negative : Bool) : Nat → Stream → Binary64 × Stream
  | 0, s => (tailStart, s)
  | fuel + 1, s =>
    let (u, s) := s.nextUnit
    let (w, s) := s.nextUnit
    let x := -(logOnePlus (-u)) / tailStart
    let y := -(logOnePlus (-w))
    if (x * x).lt (y + y) then
      let size := tailStart + x
      (if negative then -size else size, s)
    else tail negative fuel s

/-- A draw is repeated this often at most. -/
def attempts : Nat := 10000

def drawNormal : Nat → Stream → Binary64 × Stream
  | 0, s => (Binary64.zero, s)
  | fuel + 1, s =>
    let (a, s) := s.next
    let i := a % 256
    let negative := a >>> 8 % 2 = 1
    let place := a >>> 9 % Binary64.hiddenBit
    let size := Binary64.ofNat place * layers.widths.getD i Binary64.zero
    let x := if negative then -size else size
    if place < layers.limits.getD i 0 then (x, s)
    else if i = 0 then tail (place >>> 8 % 2 = 1) attempts s
    else
      let (u, s) := s.nextUnit
      let low := layers.heights.getD i Binary64.zero
      let high := layers.heights.getD (i - 1) Binary64.zero
      if ((high - low) * u + low).lt (bell x) then (x, s) else drawNormal fuel s

/-- The next normally distributed number. -/
def Stream.nextNormal (s : Stream) : Binary64 × Stream := drawNormal attempts s

end Gantry.Random
