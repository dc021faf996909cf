import Gantry.Proofs.Number.Equality
import Mathlib.Data.Nat.Bitwise

/-!
Words of doubles: a sign and a magnitude, and a magnitude as a significand and
an exponent.
-/

namespace Gantry.Binary64

variable {x y : Binary64}

theorem magnitude_eq (x : Binary64) : x.magnitude = x.bits.toNat % 2 ^ 63 := by
  rw [magnitude, UInt64.toNat_and]
  exact Nat.and_two_pow_sub_one_eq_mod x.bits.toNat 63

theorem signBit_eq (x : Binary64) : x.signBit = decide (2 ^ 63 ≤ x.bits.toNat) := by
  have hlt := x.bits.toNat_lt
  rw [Bool.eq_iff_iff, signBit, bne_iff_ne, ne_eq, ← UInt64.toNat_inj, UInt64.toNat_and,
    decide_eq_true_iff]
  change ¬(x.bits.toNat &&& 2 ^ 63 = 0) ↔ _
  rw [Nat.and_two_pow, Nat.testBit_eq_decide_div_mod_eq]
  simp
  omega

/-! ### Sign and magnitude -/

theorem eq_of_signBit_of_magnitude (hs : x.signBit = y.signBit) (hm : x.magnitude = y.magnitude) :
    x = y := by
  have hx := x.bits.toNat_lt
  have hy := y.bits.toNat_lt
  rw [signBit_eq, signBit_eq, decide_eq_decide] at hs
  rw [magnitude_eq, magnitude_eq] at hm
  have : x.bits = y.bits := UInt64.toNat_inj.1 (by omega)
  cases x
  cases y
  simp_all

theorem toNat_ofMagnitude {negative : Bool} {m : Nat} (h : m < 2 ^ 63) :
    (ofMagnitude negative m).bits.toNat = (if negative then 2 ^ 63 else 0) + m := by
  have hsmall : (UInt64.ofNat m).toNat = m := UInt64.toNat_ofNat_of_lt (h.trans (by decide))
  have hor : m ||| 2 ^ 63 = 2 ^ 63 + m := by
    have := Nat.shiftLeft_add_eq_or_of_lt h 1
    rw [Nat.or_comm]
    simpa [Nat.shiftLeft_eq] using this.symm
  cases negative
  · simp [ofMagnitude, hsmall]
  · simp only [ofMagnitude, if_true, UInt64.toNat_or, hsmall]
    exact hor

theorem magnitude_ofMagnitude {negative : Bool} {m : Nat} (h : m < 2 ^ 63) :
    (ofMagnitude negative m).magnitude = m := by
  rw [magnitude_eq, toNat_ofMagnitude h]
  split <;> omega

theorem signBit_ofMagnitude {negative : Bool} {m : Nat} (h : m < 2 ^ 63) :
    (ofMagnitude negative m).signBit = negative := by
  rw [signBit_eq, toNat_ofMagnitude h]
  cases negative
  · simpa using h
  · simp

/-! ### Significand and exponent -/

theorem significand_pos (h : x.magnitude ≠ 0) : 0 < x.significand := by
  have := Nat.div_add_mod x.magnitude hiddenBit
  unfold significand
  split
  · omega
  · simp [hiddenBit]

theorem magnitude_lt (x : Binary64) : x.magnitude < 2 ^ 63 := by
  rw [magnitude_eq]
  exact Nat.mod_lt _ (by decide)

theorem isNaN_iff : x.isNaN = true ↔ infinityWord < x.magnitude := decide_eq_true_iff

theorem isInfinite_iff : x.isInfinite = true ↔ x.magnitude = infinityWord := beq_iff_eq

theorem isFinite_iff : x.isFinite = true ↔ x.magnitude < infinityWord := decide_eq_true_iff

theorem isNaN_eq_false_of_isFinite (h : x.isFinite = true) : x.isNaN = false := by
  rw [isFinite_iff] at h
  rw [← Bool.not_eq_true, isNaN_iff]
  omega

theorem isInfinite_eq_false_of_isFinite (h : x.isFinite = true) : x.isInfinite = false := by
  rw [isFinite_iff] at h
  rw [← Bool.not_eq_true, isInfinite_iff]
  omega

theorem significand_lt (x : Binary64) : x.significand < 2 * hiddenBit := by
  have := Nat.mod_lt x.magnitude (show 0 < hiddenBit by decide)
  have := Nat.div_add_mod x.magnitude hiddenBit
  unfold significand
  split <;> simp_all <;> omega

theorem exponent_ge (x : Binary64) : -1074 ≤ x.exponent := by
  unfold exponent
  generalize x.magnitude / hiddenBit = q
  split <;> omega

theorem hiddenBit_le_significand_or (x : Binary64) :
    hiddenBit ≤ x.significand ∨ x.exponent = -1074 := by
  unfold significand exponent
  split
  · exact .inr rfl
  · exact .inl (Nat.le_add_right _ _)

/-- Significand and exponent make up the word. -/
theorem magnitude_eq_fields (x : Binary64) :
    x.magnitude = (x.exponent + 1074).toNat * hiddenBit + x.significand := by
  have hsplit := Nat.div_add_mod' x.magnitude hiddenBit
  unfold significand exponent
  generalize x.magnitude / hiddenBit = q at *
  split
  · simp
  · obtain ⟨q, rfl⟩ := Nat.exists_eq_succ_of_ne_zero ‹q ≠ 0›
    rw [show ((q.succ : Nat) - 1075 + 1074 : Int).toNat = q by omega]
    rw [Nat.succ_mul] at hsplit
    omega

theorem exponent_lt_of_isFinite (h : x.isFinite = true) : x.exponent < 972 := by
  rw [isFinite_iff, infinityWord] at h
  unfold exponent hiddenBit
  split <;> omega

end Gantry.Binary64
