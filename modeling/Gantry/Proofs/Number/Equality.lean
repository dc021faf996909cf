import Gantry.Number
import Mathlib.Order.Monotone.Basic
import Mathlib.Tactic.Ring

/-!
Equality of numbers by value. Two numbers are the same just when they stand
at the same place of the number line. The work is in the doubles, which are
compared by the rank of their words and placed by their exact value: the value
grows strictly with the magnitude word, so both tell apart the same doubles.
-/

namespace Gantry

namespace Binary64

/-- Value of a magnitude word in units of `2 ^ -1074`. -/
def wordSize (m : Nat) : Nat :=
  if m / hiddenBit = 0 then m
  else (hiddenBit + m % hiddenBit) * 2 ^ (m / hiddenBit - 1)

theorem wordSize_lt_succ (m : Nat) : wordSize m < wordSize (m + 1) := by
  have hsplit := Nat.div_add_mod m hiddenBit
  have hrest : m % hiddenBit < hiddenBit := Nat.mod_lt _ (by decide)
  have hstep : (m + 1) / hiddenBit = m / hiddenBit ∧ (m + 1) % hiddenBit = m % hiddenBit + 1 ∨
      (m + 1) / hiddenBit = m / hiddenBit + 1 ∧ (m + 1) % hiddenBit = 0 ∧
        m % hiddenBit + 1 = hiddenBit := by
    simp only [hiddenBit] at *
    omega
  unfold wordSize
  rcases hstep with ⟨hq, hr⟩ | ⟨hq, hr, hfull⟩
  · rw [hq, hr]
    split
    · omega
    · exact Nat.mul_lt_mul_of_pos_right (by omega) (Nat.two_pow_pos _)
  · rw [hq, hr]
    rcases Nat.eq_zero_or_pos (m / hiddenBit) with hz | hp
    · simp only [hz, if_true]
      simp only [hz, Nat.mul_zero, Nat.zero_add] at hsplit
      simp
      omega
    · obtain ⟨q, hq'⟩ : ∃ q, m / hiddenBit = q + 1 := ⟨m / hiddenBit - 1, by omega⟩
      simp only [hq', Nat.add_sub_cancel, Nat.succ_ne_zero, if_false, Nat.add_zero]
      calc (hiddenBit + m % hiddenBit) * 2 ^ q
          < (hiddenBit + hiddenBit) * 2 ^ q :=
            Nat.mul_lt_mul_of_pos_right (by omega) (Nat.two_pow_pos _)
        _ = hiddenBit * 2 ^ (q + 1) := by ring

theorem wordSize_strictMono : StrictMono wordSize := strictMono_nat_of_lt_succ wordSize_lt_succ

theorem wordSize_inj {m n : Nat} : wordSize m = wordSize n ↔ m = n :=
  wordSize_strictMono.injective.eq_iff

theorem units_eq (x : Binary64) :
    x.units = if x.signBit then -(wordSize x.magnitude : Int) else wordSize x.magnitude := by
  have hsize : x.significand <<< (x.exponent + 1074).toNat = wordSize x.magnitude := by
    unfold significand exponent wordSize
    by_cases hz : x.magnitude / hiddenBit = 0
    · simp [hz]
    · simp only [hz, if_false, Nat.shiftLeft_eq]
      congr 2
      omega
  simp only [units, hsize]

/-- Finite doubles have one value just when they have one rank. -/
theorem units_eq_units_iff (x y : Binary64) : x.units = y.units ↔ x.rank = y.rank := by
  have hzero (m : Nat) : wordSize m = 0 ↔ m = 0 := wordSize_inj (n := 0)
  have hinj := wordSize_inj (m := x.magnitude) (n := y.magnitude)
  have hx := hzero x.magnitude
  have hy := hzero y.magnitude
  rw [units_eq, units_eq, rank, rank]
  generalize wordSize x.magnitude = a at *
  generalize wordSize y.magnitude = b at *
  split <;> split <;> omega

end Binary64

namespace Number

/-- Whether a number is not a number, which only a double can be. -/
def isNaN : Number → Bool
  | .int _ => false
  | .real x => x.isNaN

theorem place?_eq_none_iff (n : Number) : n.place? = none ↔ n.isNaN = true := by
  cases n with
  | int k => simp [place?, isNaN]
  | real x =>
      simp only [place?, isNaN]
      split
      · simp [*]
      · split <;> simp [*]

theorem place?_real_eq_iff {x y : Binary64} (hx : x.isNaN = false) (hy : y.isNaN = false) :
    (Number.real x).place? = (Number.real y).place? ↔ x.rank = y.rank := by
  simp only [Binary64.isNaN, decide_eq_false_iff_not, Nat.not_lt] at hx hy
  have hnan (z : Binary64) (hz : z.magnitude ≤ Binary64.infinityWord) : z.isNaN = false := by
    simp [Binary64.isNaN, hz]
  simp only [place?, hnan x hx, hnan y hy, Bool.false_eq_true, if_false, Binary64.isInfinite,
    beq_iff_eq]
  -- An infinity is told from all else by its magnitude alone.
  by_cases hxi : x.magnitude = Binary64.infinityWord
  · by_cases hyi : y.magnitude = Binary64.infinityWord
    · simp only [hxi, hyi, if_true, Binary64.rank]
      cases x.signBit <;> cases y.signBit <;> simp [Binary64.infinityWord]
    · simp only [hxi, hyi, if_true, if_false, Binary64.rank]
      have : y.magnitude < Binary64.infinityWord := by omega
      cases x.signBit <;> cases y.signBit <;> simp <;> omega
  · by_cases hyi : y.magnitude = Binary64.infinityWord
    · simp only [hxi, hyi, if_true, if_false, Binary64.rank]
      have : x.magnitude < Binary64.infinityWord := by omega
      cases x.signBit <;> cases y.signBit <;> simp <;> omega
    · simp only [hxi, hyi, if_false, Option.some.injEq, Place.at.injEq,
        Binary64.units_eq_units_iff]

theorem same_eq_places (a b : Number) (h : ¬∃ x y, a = .real x ∧ b = .real y) :
    a.same b = true ↔ ∃ p, a.place? = some p ∧ b.place? = some p := by
  have hunit : ((1 <<< 1074 : Nat) : Int) ≠ 0 :=
    Int.natCast_ne_zero.2 fun h => Nat.one_ne_zero (Nat.shiftLeft_eq_zero_iff.1 h)
  cases a with
  | int m =>
      cases b with
      | int n =>
          simp only [same, decide_eq_true_eq, place?, Option.some.injEq, exists_eq_left',
            Place.at.injEq, eq_comm (a := m)]
          exact (Int.mul_eq_mul_right_iff hunit).symm
      | real y =>
          simp only [same]
          cases (Number.int m).place? <;> cases (Number.real y).place? <;> simp [eq_comm]
  | real x =>
      cases b with
      | int n =>
          simp only [same]
          cases (Number.real x).place? <;> cases (Number.int n).place? <;> simp [eq_comm]
      | real y => exact absurd ⟨x, y, rfl, rfl⟩ h

/-- Numbers are the same just when they stand at one place. -/
theorem same_iff (a b : Number) :
    a.same b = true ↔ ∃ p, a.place? = some p ∧ b.place? = some p := by
  by_cases hreal : ∃ x y, a = .real x ∧ b = .real y
  · obtain ⟨x, y, rfl, rfl⟩ := hreal
    have hnowhere (z : Binary64) (hz : z.isNaN = true) : (Number.real z).place? = none :=
      (place?_eq_none_iff _).2 hz
    cases hx : x.isNaN with
    | true => simp [same, Binary64.eqv, hx, hnowhere x hx]
    | false =>
        cases hy : y.isNaN with
        | true => simp [same, Binary64.eqv, hy, hnowhere y hy]
        | false =>
            have hsome : ∃ p, (Number.real x).place? = some p := by
              rw [← Option.ne_none_iff_exists', Ne, place?_eq_none_iff]
              simp [isNaN, hx]
            obtain ⟨p, hp⟩ := hsome
            have hplace := place?_real_eq_iff hx hy
            rw [hp] at hplace
            simp [same, Binary64.eqv, hx, hy, hp, ← hplace, eq_comm]
  · exact same_eq_places a b hreal

theorem same_self {a : Number} (h : a.isNaN = false) : a.same a = true := by
  rw [same_iff]
  cases hp : a.place? with
  | none => simp [(place?_eq_none_iff a).1 hp] at h
  | some p => exact ⟨p, rfl, rfl⟩

theorem same_symm {a b : Number} (h : a.same b = true) : b.same a = true := by
  rw [same_iff] at h ⊢
  obtain ⟨p, ha, hb⟩ := h
  exact ⟨p, hb, ha⟩

theorem same_trans {a b c : Number} (hab : a.same b = true) (hbc : b.same c = true) :
    a.same c = true := by
  rw [same_iff] at hab hbc ⊢
  obtain ⟨p, ha, hb⟩ := hab
  obtain ⟨q, hb', hc⟩ := hbc
  rw [hb, Option.some.injEq] at hb'
  exact ⟨p, ha, hb' ▸ hc⟩

theorem agrees_iff {a b : Number} : a.agrees b = true ↔ a = b ∨ a.same b = true := by
  simp [agrees]

theorem agrees_self (a : Number) : a.agrees a = true := agrees_iff.2 (.inl rfl)

theorem agrees_symm {a b : Number} (h : a.agrees b = true) : b.agrees a = true :=
  agrees_iff.2 ((agrees_iff.1 h).imp Eq.symm same_symm)

theorem agrees_trans {a b c : Number} (hab : a.agrees b = true) (hbc : b.agrees c = true) :
    a.agrees c = true := by
  rw [agrees_iff] at hab hbc ⊢
  rcases hab with rfl | hab
  · exact hbc
  · rcases hbc with rfl | hbc
    · exact .inr hab
    · exact .inr (same_trans hab hbc)

end Number

end Gantry
