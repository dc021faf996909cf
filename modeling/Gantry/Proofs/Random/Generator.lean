import Gantry.Random.Stream
import Mathlib.Data.Nat.ModEq
import Mathlib.Logic.Function.Iterate
import Mathlib.Tactic.Ring

/-!
The words of a seed. Words are reached in leaps, but are those of the states
that the generator steps through one by one.
-/

namespace Gantry.Random

namespace Leap

theorem apply_twice (l : Leap) (state : Nat) : l.twice.apply state = l.apply (l.apply state) := by
  have hleap : state * (l.factor * l.factor % stateRange) +
      (l.shift * l.factor + l.shift) % stateRange ≡
        (state * l.factor + l.shift) * l.factor + l.shift [MOD stateRange] := by
    calc state * (l.factor * l.factor % stateRange) +
            (l.shift * l.factor + l.shift) % stateRange
        ≡ state * (l.factor * l.factor) + (l.shift * l.factor + l.shift) [MOD stateRange] :=
          ((Nat.mod_modEq ..).mul_left state).add (Nat.mod_modEq ..)
      _ = (state * l.factor + l.shift) * l.factor + l.shift := by ring
  have hsteps : (state * l.factor + l.shift) % stateRange * l.factor + l.shift ≡
      (state * l.factor + l.shift) * l.factor + l.shift [MOD stateRange] :=
    ((Nat.mod_modEq ..).mul_right l.factor).add_right l.shift
  exact hleap.trans hsteps.symm

/-- Squaring takes a leap as often as it is asked for. -/
theorem repeated_eq_iterate (l : Leap) {bits k : Nat} (hk : k < 2 ^ bits) (state : Nat) :
    l.repeated bits k state = l.apply^[k] state := by
  induction bits generalizing l k state with
  | zero =>
      obtain rfl : k = 0 := by omega
      rfl
  | succ bits ih =>
      have hhalf : k / 2 < 2 ^ bits := by omega
      have htwice : l.twice.apply = l.apply^[2] := funext l.apply_twice
      rw [repeated, ih l.twice hhalf, htwice, ← Function.iterate_mul]
      rcases Nat.mod_two_eq_zero_or_one k with heven | hodd
      · rw [if_neg (by omega), show 2 * (k / 2) = k by omega]
      · rw [if_pos hodd, ← Function.iterate_succ_apply, show (2 * (k / 2)).succ = k by omega]

end Leap

/-- A word is that of the state which the generator has stepped to. -/
theorem Generator.word_eq (g : Generator) (k : Nat) :
    g.word k = wordOf (g.step.apply^[k + 1] g.state) := by
  rw [word, Leap.repeated_eq_iterate _ Nat.lt_log2_self]

namespace Stream

theorem iterate_next (s : Stream) (n : Nat) :
    (fun s => s.next.2)^[n] s = { s with place := s.place + n } := by
  induction n with
  | zero => rfl
  | succ n ih =>
      rw [Function.iterate_succ_apply', ih]
      rfl

/-- Every draw from a seed steps its generator once. -/
theorem next_iterate_ofSeed (seed n : Nat) :
    ((fun s => s.next.2)^[n] (ofSeed seed)).next.1 =
      (Generator.wordOf ((Generator.ofSeed seed).step.apply^[n + 1]
        (Generator.ofSeed seed).state)).toNat := by
  have hplace : (ofSeed seed).place + n = n := Nat.zero_add n
  rw [iterate_next, ← Generator.word_eq, hplace]
  rfl

end Stream

end Gantry.Random
