import Gantry.Random.Seed

/-!
The generator of a seed: a linear congruential state of 128 bits, whose halves
are folded together and rotated into words. Words are numbered; the state of a
word is reached by squaring the step, so that late words cost little more than
early ones.
-/

namespace Gantry.Random

/-- The number of words: `2 ^ 64`. -/
def wordRange : Nat := 1 <<< 64

/-- The number of states: `2 ^ 128`. -/
def stateRange : Nat := 1 <<< 128

def multiplier : Nat := 0x2360ED051FC65DA44385DF649FCCF645

/-- A step from state to state, or several of them taken at once. -/
structure Leap where
  factor : Nat
  shift : Nat
  deriving Inhabited

namespace Leap

def apply (l : Leap) (state : Nat) : Nat := (state * l.factor + l.shift) % stateRange

/-- A leap and the same leap again. -/
def twice (l : Leap) : Leap := ⟨l.factor * l.factor % stateRange, l.apply l.shift⟩

/-- A leap taken `k` times, for a `k` of at most so many bits. -/
def repeated (l : Leap) : Nat → Nat → Nat → Nat
  | 0, _, state => state
  | bits + 1, k, state =>
    l.twice.repeated bits (k / 2) (if k % 2 = 1 then l.apply state else state)

end Leap

structure Generator where
  state : Nat
  step : Leap
  deriving Inhabited

namespace Generator

def ofSeed (seed : Nat) : Generator :=
  match spread seed with
  | [a, b, c, d] =>
    let step : Leap := ⟨multiplier, (((c <<< 64 ||| d) <<< 1) ||| 1) % stateRange⟩
    ⟨step.apply ((step.apply 0 + (a <<< 64 ||| b)) % stateRange), step⟩
  | _ => default

def rotateRight (w n : Nat) : Nat := (w >>> n ||| w <<< (64 - n)) % wordRange

/-- The word of a state. -/
def wordOf (state : Nat) : UInt64 :=
  UInt64.ofNat (rotateRight ((state >>> 64) ^^^ (state % wordRange)) (state >>> 122))

/-- The word after `k` others. -/
def word (g : Generator) (k : Nat) : UInt64 :=
  wordOf (g.step.repeated ((k + 1).log2 + 1) (k + 1) g.state)

end Generator

end Gantry.Random
