/-!
Spreading a seed over the words that start a random stream. The words of the
seed are hashed into a pool of four, which are mixed with each other and then
drawn out as long words.
-/

namespace Gantry.Random

/-- A hash of words whose constant moves on with every use. -/
def hashMix (constant value : UInt32) : UInt32 × UInt32 :=
  let v := value ^^^ constant
  let next := constant * 0x931e8875
  let v := v * next
  (v ^^^ (v >>> 16), next)

def mix (x y : UInt32) : UInt32 :=
  let r := 0xca01f9dd * x - 0x4973f715 * y
  r ^^^ (r >>> 16)

/-- The words of a seed, least significant first. -/
def seedWords (seed : Nat) : List UInt32 :=
  let count := Nat.log2 seed / 32 + 1
  (List.range count).map fun i => UInt32.ofNat (seed >>> (32 * i))

structure Pool where
  words : Array UInt32
  constant : UInt32
  deriving Inhabited

namespace Pool

def get (p : Pool) (i : Nat) : UInt32 := p.words.getD i 0

/-- Adds the hash of a word to the pool. -/
def push (p : Pool) (w : UInt32) : Pool :=
  let (v, constant) := hashMix p.constant w
  ⟨p.words.push v, constant⟩

/-- Mixes the hash of a word into one place. -/
def stir (p : Pool) (w : UInt32) (place : Nat) : Pool :=
  let (v, constant) := hashMix p.constant w
  ⟨p.words.setIfInBounds place (mix (p.get place) v), constant⟩

def ofSeed (seed : Nat) : Pool :=
  let words := seedWords seed
  let filled := (List.range 4).foldl (fun p i => p.push (words.getD i 0)) ⟨#[], 0x43b0d7e5⟩
  let crossed := (List.range 4).foldl (fun p source =>
    ((List.range 4).filter (· ≠ source)).foldl (fun p place => p.stir (p.get source) place) p) filled
  (words.drop 4).foldl (fun p w => (List.range 4).foldl (fun p place => p.stir w place) p) crossed

/-- Draws eight words out of the pool. -/
def draw (p : Pool) : List UInt32 :=
  ((List.range 8).foldl (fun (acc : List UInt32 × UInt32) i =>
    let v := p.get (i % 4) ^^^ acc.2
    let constant := acc.2 * 0x58f38ded
    let v := v * constant
    (acc.1 ++ [v ^^^ (v >>> 16)], constant)) ([], 0x8b51f9dd)).1

end Pool

/-- Joins words in pairs, the low one first. -/
def joinPairs : List UInt32 → List Nat
  | low :: high :: rest => (high.toNat <<< 32 ||| low.toNat) :: joinPairs rest
  | _ => []

/-- The four long words that a seed spreads to. -/
def spread (seed : Nat) : List Nat := joinPairs (Pool.ofSeed seed).draw

end Gantry.Random
