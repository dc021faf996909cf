import Gantry.Proofs.Number.Arithmetic
import Gantry.Proofs.Number.Rounding

/-!
Means of doubles. A number over a whole number other than zero is finite just
when it was finite before: from two on the quotient is at most half as large,
so rounding it up stays in the range, and over one nothing is rounded at all.
-/

namespace Gantry.Binary64

open Float.Model (UnpackedFloat Format)
open Float.Model.UnpackedFloat

variable {x y : Binary64} {s : Sign} {m : Nat} {e : Int} {acc : Accuracy}

/-! ### Rounding within the range -/

theorem isFinite_ofUnpacked_zero (s : Sign) : (ofUnpacked (.zero s)).isFinite = true := by
  rw [isFinite_iff, ofUnpacked_zero, magnitude_ofFields]
  decide

theorem isFinite_ofUnpacked_finite {h : 0 < m} (he : e < 972) :
    (ofUnpacked (.finite s m e h)).isFinite = true := by
  rw [isFinite_iff, ofUnpacked_finite, if_neg (by omega)]
  split
  · rw [magnitude_ofFields, BitVec.toNat_ofNat, BitVec.toNat_ofNat, Nat.mod_eq_of_lt (by omega)]
    simp only [infinityWord, hiddenBit]
    omega
  · rw [magnitude_ofFields, BitVec.toNat_ofNat, BitVec.toNat_ofNat]
    simp only [infinityWord, hiddenBit]
    omega

theorem shiftToTargetExponent_exponent (m : Nat) (e : Int) (acc : Accuracy) :
    (shiftToTargetExponent Format.binary64 m e acc).2 =
      max e (max ((m.log2 : Int) - 52 + e) (-1074)) := by
  simp only [shiftToTargetExponent, shiftToExponent, targetExponent_eq]
  omega

/-- What is rounded stays in the range if a carry out of its significand does. -/
theorem isFinite_roundWithAccuracy
    (he : (shiftToTargetExponent Format.binary64 m e acc).2 < 972)
    (hm : ((shiftToTargetExponent Format.binary64 m e acc).1.roundedMantissa.log2 : Int) +
      (shiftToTargetExponent Format.binary64 m e acc).2 < 1024) :
    (ofUnpacked (roundWithAccuracy Format.binary64 s m e acc)).isFinite = true := by
  simp only [roundWithAccuracy]
  split
  · exact isFinite_ofUnpacked_zero s
  · refine isFinite_ofUnpacked_finite ?_
    rw [shiftToTargetExponent_exponent]
    omega

theorem roundedMantissa_le (em : ExtendedMantissa) : em.roundedMantissa ≤ em.mantissa + 1 := by
  obtain ⟨m, r, t⟩ := em
  cases r <;> cases t <;>
    simp [ExtendedMantissa.roundedMantissa, ExtendedMantissa.accuracy, Accuracy.roundToNearestEven]
  omega

theorem shiftToTargetExponent_mantissa_lt (m : Nat) (e : Int) (acc : Accuracy) :
    (shiftToTargetExponent Format.binary64 m e acc).1.mantissa < 2 ^ 53 := by
  simp only [shiftToTargetExponent, shiftToExponent, targetExponent_eq, mantissa_shiftRight,
    mantissa_ofMantissaAndAccuracy]
  rw [Nat.div_lt_iff_lt_mul (Nat.two_pow_pos _), ← Nat.pow_add]
  exact Nat.lt_log2_self.trans_le (Nat.pow_le_pow_right (by decide) (by omega))

/-- Below half of the range nothing is rounded out of it. -/
theorem isFinite_roundWithAccuracy_of_le (he : e ≤ 970) (hm : (m.log2 : Int) + e ≤ 1022) :
    (ofUnpacked (roundWithAccuracy Format.binary64 s m e acc)).isFinite = true := by
  have hexponent := shiftToTargetExponent_exponent m e acc
  have hcarry := (roundedMantissa_le (shiftToTargetExponent Format.binary64 m e acc).1).trans
    (shiftToTargetExponent_mantissa_lt m e acc)
  have hlog : (shiftToTargetExponent Format.binary64 m e acc).1.roundedMantissa.log2 ≤ 53 := by
    by_cases hzero : (shiftToTargetExponent Format.binary64 m e acc).1.roundedMantissa = 0
    · simp [hzero]
    · exact Nat.lt_succ_iff.1 ((Nat.log2_lt hzero).2 (hcarry.trans_lt (by decide)))
  exact isFinite_roundWithAccuracy (by omega) (by omega)

/-! ### Quotients -/

theorem targetExponent_quotient (m₁ m₂ : Nat) (e₁ e₂ : Int) :
    Format.binary64.targetExponent (Float.Model.totalExponent m₁ e₁ -
      Float.Model.totalExponent m₂ e₂) =
      max ((m₁.log2 : Int) + e₁ - (m₂.log2 + e₂) - 53) (-1074) := by
  change max ((m₁.log2 : Int) + 1 + e₁ - (m₂.log2 + 1 + e₂) - 53) (-1074) = _
  omega

theorem log2_significand_lt (x : Binary64) : x.significand.log2 < 53 := by
  by_cases h : x.significand = 0
  · rw [h]
    decide
  · exact (Nat.log2_lt h).2 (significand_lt x)

/-- Nothing leaves the range when it is divided by two or more. -/
theorem isFinite_div_of_exponent (hx : x.isFinite = true) (hy : y.isFinite = true)
    (hlarge : -51 ≤ y.exponent) : (x / y).isFinite = true := by
  have hfull : hiddenBit ≤ y.significand := (hiddenBit_le_significand_or y).resolve_right (by omega)
  have hne : y.magnitude ≠ 0 := by
    rw [magnitude_eq_fields y]
    have : 0 < hiddenBit := by decide
    omega
  rw [div_eq, unpacked_of_isFinite hx, unpacked_of_isFinite hy, dif_neg hne]
  split
  · exact isFinite_ofUnpacked_zero _
  · simp only [UnpackedFloat.div, divCore, targetExponent_quotient]
    have hdivisor : 52 ≤ y.significand.log2 :=
      (Nat.le_log2 (hfull.trans_lt' (by decide)).ne').2 hfull
    have hdividend := log2_significand_lt x
    have hexponent := exponent_lt_of_isFinite hx
    set t := min (x.exponent - y.exponent) (max ((x.significand.log2 : Int) + x.exponent -
      (y.significand.log2 + y.exponent) - 53) (-1074)) with ht
    set k := (x.exponent - y.exponent - t).toNat with hk
    -- A divisor of 53 bits takes at least as many from the shifted dividend as that has to lose.
    have hquotient : x.significand <<< k / y.significand < 2 ^ (k + 1) := by
      rw [Nat.div_lt_iff_lt_mul (hfull.trans_lt' (by decide)), Nat.shiftLeft_eq]
      calc x.significand * 2 ^ k < 2 ^ 53 * 2 ^ k :=
            Nat.mul_lt_mul_of_pos_right (significand_lt x) (Nat.two_pow_pos k)
        _ = 2 ^ (k + 1) * hiddenBit := by simp only [hiddenBit, Nat.pow_succ]; omega
        _ ≤ 2 ^ (k + 1) * y.significand := Nat.mul_le_mul_left _ hfull
    have hlog : (x.significand <<< k / y.significand).log2 ≤ k := by
      by_cases hzero : x.significand <<< k / y.significand = 0
      · simp [hzero]
      · exact Nat.lt_succ_iff.1 ((Nat.log2_lt hzero).2 hquotient)
    exact isFinite_roundWithAccuracy_of_le (by omega) (by omega)

theorem shiftRight_shiftLeft (m : Nat) {j k : Nat} (h : k ≤ j) :
    ExtendedMantissa.mk (m <<< j) false false >>> k = ⟨m <<< (j - k), false, false⟩ := by
  change k.repeat ExtendedMantissa.shiftRightOne _ = _
  induction k with
  | zero => rfl
  | succ k ih =>
      rw [Nat.repeat, ih (by omega), ExtendedMantissa.shiftRightOne,
        show j - k = j - (k + 1) + 1 by omega, Nat.shiftLeft_succ]
      simp

theorem log2_shiftLeft_lt {b j : Nat} (hm : 0 < m) (hb : m < 2 ^ b) : (m <<< j).log2 < b + j := by
  rw [Nat.shiftLeft_eq]
  refine (Nat.log2_lt (Nat.mul_pos hm (Nat.two_pow_pos j)).ne').2 ?_
  rw [Nat.pow_add]
  exact Nat.mul_lt_mul_of_pos_right hb (Nat.two_pow_pos j)

/-- A significand that was only shifted is rounded to itself. -/
theorem isFinite_roundWithAccuracy_shiftLeft {j : Nat} (hm : 0 < m) (hbits : m < 2 ^ 53)
    (hleast : -1074 ≤ e + j) (he : e + j < 972) :
    (ofUnpacked (roundWithAccuracy Format.binary64 s (m <<< j) e .exact)).isFinite = true := by
  have hlog := log2_shiftLeft_lt (j := j) hm hbits
  obtain ⟨k, hk, hshift⟩ : ∃ k ≤ j, shiftToTargetExponent Format.binary64 (m <<< j) e .exact =
      (⟨m <<< (j - k), false, false⟩, e + k) := by
    refine ⟨(max (((m <<< j).log2 : Int) - 52 + e) (-1074) - e).toNat, by omega, ?_⟩
    simp only [shiftToTargetExponent, shiftToExponent, targetExponent_eq,
      ExtendedMantissa.ofMantissaAndAccuracy]
    rw [shiftRight_shiftLeft m (by omega)]
  have hkept := log2_shiftLeft_lt (j := j - k) hm hbits
  refine isFinite_roundWithAccuracy ?_ ?_ <;> rw [hshift]
  · dsimp only
    omega
  · simp only [ExtendedMantissa.roundedMantissa, ExtendedMantissa.accuracy,
      Accuracy.roundToNearestEven]
    omega

/-- Nothing leaves the range when it is divided by one. -/
theorem isFinite_div_one (hx : x.isFinite = true) : (x / one).isFinite = true := by
  have hunit : one.unpacked = .finite .positive (2 ^ 52) (-52) (by decide) := by
    rw [unpacked_of_isFinite (by decide), dif_neg (by decide)]
    congr
  rw [div_eq, unpacked_of_isFinite hx, hunit]
  split
  · exact isFinite_ofUnpacked_zero _
  · rename_i hne
    simp only [UnpackedFloat.div, divCore, targetExponent_quotient, Nat.log2_two_pow]
    have hlog := log2_significand_lt x
    have hexponent := exponent_lt_of_isFinite hx
    have hleast := exponent_ge x
    -- The dividend is shifted by the 52 bits that the divisor takes and by a few more.
    set t := min (x.exponent - -52)
      (max ((x.significand.log2 : Int) + x.exponent - ((52 : Nat) + -52) - 53) (-1074)) with ht
    obtain ⟨j, hj⟩ : ∃ j : Nat, x.exponent = t + j := ⟨(x.exponent - t).toNat, by omega⟩
    rw [show (x.exponent - -52 - t).toNat = j + 52 by omega, Nat.shiftLeft_add,
      Nat.shiftLeft_eq _ 52, Nat.mul_div_cancel _ (by decide), Nat.mul_mod_left]
    exact isFinite_roundWithAccuracy_shiftLeft (significand_pos hne) (significand_lt x) (by omega)
      (by omega)

/-! ### Means -/

variable {n : Nat}

theorem ofNat_one : ofNat 1 = one := by decide +kernel

theorem div_le_roundHalfEven (a b : Nat) : a / b ≤ roundHalfEven a b := by
  unfold roundHalfEven
  dsimp only
  split
  · exact Nat.le_refl _
  · split
    · exact Nat.le_succ _
    · split <;> omega

/-- Whole numbers from two on have at least the exponent of two. -/
theorem exponent_ofNat (hn : 2 ≤ n) : -51 ≤ (ofNat n).exponent := by
  obtain ⟨-, hhigh, hlow⟩ := ratioExponent_spec (n := n) (d := 1) (by omega) Nat.one_pos
  obtain ⟨hb, hscale⟩ := scaleRatio_eq (n := n) Nat.one_pos (ratioExponent n 1)
  have hexponent : -51 ≤ ratioExponent n 1 := by
    have htwo : (2 : ℚ) ^ (1 : Int) ≤ n := by exact_mod_cast hn
    have hlt := (zpow_lt_zpow_iff_right₀ one_lt_two).1 (htwo.trans_lt (by simpa using hhigh))
    omega
  have hsignificand : hiddenBit ≤
      (scaleRatio n 1 (ratioExponent n 1)).1 / (scaleRatio n 1 (ratioExponent n 1)).2 := by
    rw [Nat.le_div_iff_mul_le hb, ← Nat.cast_le (α := ℚ), Nat.cast_mul,
      ← le_div_iff₀ (Nat.cast_pos.2 hb), hscale, le_div_iff₀ (by positivity)]
    refine (le_of_eq ?_).trans (hlow.resolve_left (by omega))
    rw [zpow_add₀ two_ne_zero, mul_comm]
    norm_num [hiddenBit]
  have hrounded := hsignificand.trans (div_le_roundHalfEven _ _)
  have hword : 1024 * hiddenBit ≤ (ofNat n).magnitude := by
    have hinfinity : 1024 * hiddenBit ≤ infinityWord := by decide
    rw [magnitude_ofNat, ratioMagnitude, if_neg (by omega)]
    dsimp only
    split
    · exact hinfinity
    · refine Nat.le_min.2 ⟨hinfinity, ?_⟩
      have hfield : 1023 * hiddenBit ≤ (ratioExponent n 1 + 1074).toNat * hiddenBit :=
        Nat.mul_le_mul_right _ (by omega)
      omega
  have hquotient : 1024 ≤ (ofNat n).magnitude / hiddenBit :=
    (Nat.le_div_iff_mul_le (by decide)).2 hword
  unfold exponent
  split <;> omega

theorem isFinite_div_of_not_isFinite (hx : x.isFinite = false) (hy : y.magnitude ≠ 0) :
    (x / y).isFinite = false := by
  have hnan : (ofUnpacked .notANumber).isFinite = false := by decide +kernel
  have hinfinity (s : Sign) : (ofUnpacked (.infinity s)).isFinite = false := by
    cases s <;> decide +kernel
  rw [div_eq]
  cases hxnan : x.isNaN with
  | true =>
      rw [unpacked_eq x, if_pos hxnan]
      simpa [UnpackedFloat.div] using hnan
  | false =>
      have hxi : x.isInfinite = true :=
        (isInfinite_or_isFinite hxnan).resolve_right (by simp [hx])
      rw [unpacked_of_isInfinite hxi, unpacked_eq y, dif_neg hy]
      split
      · exact hnan
      · split
        · exact hnan
        · exact hinfinity _

/-- A mean is finite just when the sum that it is taken of is. -/
theorem isFinite_div_ofNat (hn : n ≠ 0) : (x / ofNat n).isFinite = x.isFinite := by
  have hne := magnitude_ofNat_ne_zero hn
  cases hx : x.isFinite with
  | false => exact isFinite_div_of_not_isFinite hx hne
  | true =>
      rcases isInfinite_or_isFinite (isNaN_ofNat n) with hinfinite | hfinite
      · rw [div_eq, unpacked_of_isInfinite hinfinite, unpacked_of_isFinite hx]
        split <;> exact isFinite_ofUnpacked_zero _
      · rcases Nat.lt_or_ge n 2 with hone | htwo
        · obtain rfl : n = 1 := by omega
          rw [ofNat_one]
          exact isFinite_div_one hx
        · exact isFinite_div_of_exponent hx hfinite (exponent_ofNat htwo)

end Gantry.Binary64
