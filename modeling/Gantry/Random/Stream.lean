import Gantry.Binary64.Rounding
import Gantry.Random.Generator

/-!
Streams of random words. The words of a seeded stream are those of its
generator; a stream without a seed may be of any words. Doubles are drawn
evenly below one with 53 bits each.
-/

namespace Gantry.Random

/-- Random words, and how many of them have been drawn. -/
structure Stream where
  word : Nat → UInt64
  place : Nat
  deriving Inhabited

namespace Stream

def ofSeed (seed : Nat) : Stream :=
  let g := Generator.ofSeed seed
  ⟨g.word, 0⟩

/-- The next word of 64 bits. -/
def next (s : Stream) : Nat × Stream :=
  ((s.word s.place).toNat, { s with place := s.place + 1 })

/-- A double from zero up to one. -/
def nextUnit (s : Stream) : Binary64 × Stream :=
  let (w, s) := s.next
  (Binary64.ofRatio false (w >>> 11) (1 <<< 53), s)

/-- A double between bounds. -/
def nextBetween (s : Stream) (low high : Binary64) : Binary64 × Stream :=
  let (u, s) := s.nextUnit
  (low + (high - low) * u, s)

end Stream

end Gantry.Random
