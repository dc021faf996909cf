import Gantry.Proofs.Number.Packing

/-!
Sums, differences and quotients of doubles, as far as training relies on them.
A difference has the sign of the comparison of its operands: what is rounded
is never less than the least step of the doubles, so no sign is lost.
-/

namespace Gantry.Binary64

open Float.Model (UnpackedFloat Format)
open Float.Model.UnpackedFloat

variable {x y z : Binary64}

/-! ### Operations on what words stand for -/

theorem unpack_toModel_toFloat (x : Binary64) : x.toFloat.toModel.unpack = x.unpacked := by
  change (ofUnpacked x.unpacked).unpacked = x.unpacked
  cases h : x.isNaN with
  | true =>
      rw [unpacked_eq x, if_pos h, unpacked_eq (ofUnpacked .notANumber), if_pos (by decide +kernel)]
  | false => rw [ofUnpacked_unpacked h]

theorem add_eq (x y : Binary64) :
    x + y = ofUnpacked (UnpackedFloat.add Format.binary64 x.unpacked y.unpacked) := by
  rw [← unpack_toModel_toFloat x, ← unpack_toModel_toFloat y]
  rfl

theorem sub_eq (x y : Binary64) :
    x - y = ofUnpacked (UnpackedFloat.sub Format.binary64 x.unpacked y.unpacked) := by
  rw [← unpack_toModel_toFloat x, ← unpack_toModel_toFloat y]
  rfl

theorem div_eq (x y : Binary64) :
    x / y = ofUnpacked (UnpackedFloat.div Format.binary64 x.unpacked y.unpacked) := by
  rw [← unpack_toModel_toFloat x, ← unpack_toModel_toFloat y]
  rfl

theorem isNaN_ofUnpacked (r : UnpackedFloat) :
    (ofUnpacked r).isNaN = true ↔ r = .notANumber := by
  have hinfinite (s : Sign) : ¬infinityWord < (ofFields s (-1#_) 0).magnitude := by
    rw [magnitude_ofFields]
    decide
  rw [isNaN_iff]
  cases r with
  | notANumber => exact iff_of_true (by decide +kernel) rfl
  | infinity s => simpa [ofUnpacked_infinity] using hinfinite s
  | zero s => simp [ofUnpacked_zero]
  | finite s m e h =>
      simp only [reduceCtorEq, iff_false, ofUnpacked_finite]
      split
      · exact hinfinite s
      · split <;> rw [magnitude_ofFields, BitVec.toNat_ofNat, BitVec.toNat_ofNat] <;>
          simp only [infinityWord, hiddenBit] <;> omega

theorem mantissa_shiftRight (em : ExtendedMantissa) (k : Nat) :
    (em >>> k).mantissa = em.mantissa / 2 ^ k := by
  change (k.repeat ExtendedMantissa.shiftRightOne em).mantissa = _
  induction k with
  | zero => simp [Nat.repeat]
  | succ k ih =>
      rw [Nat.repeat, ExtendedMantissa.shiftRightOne, ih, Nat.div_div_eq_div_mul, Nat.pow_succ]

theorem targetExponent_eq (m : Nat) (e : Int) :
    Format.binary64.targetExponent (Float.Model.totalExponent m e) =
      max (m.log2 - 52 + e) (-1074) := by
  change max ((m.log2 : Int) + 1 + e - 53) (-1074) = _
  omega

theorem mantissa_ofMantissaAndAccuracy (m : Nat) (acc : Accuracy) :
    (ExtendedMantissa.ofMantissaAndAccuracy m acc).mantissa = m := by
  fun_cases ExtendedMantissa.ofMantissaAndAccuracy m acc <;> rfl

theorem shiftToTargetExponent_mantissa {m : Nat} {e : Int} (acc : Accuracy) (he : -1074 ≤ e) :
    (shiftToTargetExponent Format.binary64 m e acc).1.mantissa = m / 2 ^ (m.log2 - 52) ∧
      -1074 ≤ (shiftToTargetExponent Format.binary64 m e acc).2 := by
  simp only [shiftToTargetExponent, shiftToExponent, targetExponent_eq, mantissa_shiftRight,
    mantissa_ofMantissaAndAccuracy]
  have hshift : (max ((m.log2 : Int) - 52 + e) (-1074) - e).toNat = m.log2 - 52 := by omega
  rw [hshift]
  exact ⟨rfl, by omega⟩

theorem div_two_pow_log2 {m : Nat} (hm : 0 < m) :
    0 < m / 2 ^ (m.log2 - 52) ∧ m / 2 ^ (m.log2 - 52) < 2 * hiddenBit := by
  have hlow := Nat.log2_self_le hm.ne'
  have hhigh := Nat.lt_log2_self (n := m)
  constructor
  · exact Nat.div_pos ((Nat.pow_le_pow_right (by omega) (by omega)).trans hlow) (Nat.two_pow_pos _)
  · rw [Nat.div_lt_iff_lt_mul (Nat.two_pow_pos _)]
    refine hhigh.trans_le ?_
    change 2 ^ (m.log2 + 1) ≤ 2 ^ 53 * 2 ^ (m.log2 - 52)
    rw [← Nat.pow_add]
    exact Nat.pow_le_pow_right (by omega) (by omega)

theorem mantissa_le_roundedMantissa (em : ExtendedMantissa) :
    em.mantissa ≤ em.roundedMantissa := by
  obtain ⟨m, r, t⟩ := em
  cases r <;> cases t <;>
    simp [ExtendedMantissa.roundedMantissa, ExtendedMantissa.accuracy, Accuracy.roundToNearestEven]

/-- Rounding keeps the sign and does not come to zero. -/
theorem roundWithAccuracy_eq (s : Sign) {m : Nat} {e : Int} (acc : Accuracy) (hm : 0 < m)
    (he : -1074 ≤ e) :
    ∃ m' e' h, roundWithAccuracy Format.binary64 s m e acc = .finite s m' e' h ∧
      m' < 2 * hiddenBit ∧ -1074 ≤ e' := by
  obtain ⟨hcut, hexponent⟩ := shiftToTargetExponent_mantissa (m := m) acc he
  set first := shiftToTargetExponent Format.binary64 m e acc
  have hrounded : 0 < first.1.roundedMantissa :=
    (hcut ▸ (div_two_pow_log2 hm).1).trans_le (mantissa_le_roundedMantissa _)
  obtain ⟨hcut', hexponent'⟩ :=
    shiftToTargetExponent_mantissa (m := first.1.roundedMantissa) .exact hexponent
  have hlast := div_two_pow_log2 hrounded
  rw [← hcut'] at hlast
  exact ⟨_, _, hlast.1, dif_neg hlast.1.ne', hlast.2, hexponent'⟩

theorem roundWithAccuracy_ne_notANumber (s : Sign) (m : Nat) (e : Int) (acc : Accuracy) :
    roundWithAccuracy Format.binary64 s m e acc ≠ .notANumber := by
  simp only [roundWithAccuracy]
  split <;> simp

theorem normalize_ne_notANumber (n e : Int) (s : Sign) :
    UnpackedFloat.normalize Format.binary64 n e s ≠ .notANumber := by
  simp only [UnpackedFloat.normalize]
  split <;> first | exact roundWithAccuracy_ne_notANumber _ _ _ _ | simp

theorem round_eq (s : Sign) {m : Nat} {e : Int} (hm : 0 < m) (he : -1074 ≤ e) :
    ∃ m' e' h, UnpackedFloat.round Format.binary64 s m e = .finite s m' e' h ∧
      m' < 2 * hiddenBit ∧ -1074 ≤ e' := by
  refine roundWithAccuracy_eq s .exact (by simpa [Nat.shiftLeft_eq] using hm) ?_
  rw [targetExponent_eq]
  omega

/-! ### Differences -/

theorem rank_neg_iff : x.rank < 0 ↔ x.direction = .negative ∧ x.magnitude ≠ 0 := by
  unfold rank direction
  split <;> simp
  omega

theorem rank_pos_iff : 0 < x.rank ↔ x.direction = .positive ∧ x.magnitude ≠ 0 := by
  unfold rank direction
  split <;> simp
  omega

theorem rank_eq_zero_iff : x.rank = 0 ↔ x.magnitude = 0 := by
  unfold rank
  split <;> omega

theorem magnitude_ofUnpacked_finite_ne_zero {s : Sign} {m : Nat} {e : Int} {h : 0 < m}
    (he : -1074 ≤ e) (hm : m < 2 * hiddenBit) :
    (ofUnpacked (.finite s m e h)).magnitude ≠ 0 := by
  rw [ofUnpacked_finite]
  split
  · rw [magnitude_ofFields]
    decide
  · split
    · rw [magnitude_ofFields, BitVec.toNat_ofNat, Nat.mod_eq_of_lt (by omega)]
      simp only [hiddenBit]
      omega
    · have hsmall : m < 2 ^ 52 := by
        have : m.log2 < 53 := (Nat.log2_lt h.ne').2 hm
        exact (Nat.log2_lt h.ne').1 (by omega)
      rw [magnitude_ofFields, BitVec.toNat_ofNat, BitVec.toNat_ofNat, Nat.mod_eq_of_lt hsmall]
      omega

/-- The sign of an exact value survives its rounding. -/
theorem rank_ofUnpacked_normalize {n : Int} {e : Int} (he : -1074 ≤ e) :
    (ofUnpacked (UnpackedFloat.normalize Format.binary64 n e .positive)).rank < 0 ↔ n < 0 := by
  rcases Int.lt_trichotomy n 0 with hn | rfl | hn
  · obtain ⟨m, e', h, hround, hm, he'⟩ := round_eq .negative (m := (-n).toNat) (by omega) he
    rw [UnpackedFloat.normalize, Int.compare_eq_lt.2 hn]
    simp only [hround, hn, iff_true]
    exact rank_neg_iff.2
      ⟨direction_ofUnpacked_finite, magnitude_ofUnpacked_finite_ne_zero he' hm⟩
  · simp [UnpackedFloat.normalize, ofUnpacked_zero, rank_neg_iff]
  · obtain ⟨m, e', h, hround, hm, he'⟩ := round_eq .positive (m := n.toNat) (by omega) he
    rw [UnpackedFloat.normalize, Int.compare_eq_gt.2 hn]
    simp [hround, rank_neg_iff, direction_ofUnpacked_finite, hn.le]

theorem units_lt_units_iff (x y : Binary64) : x.units < y.units ↔ x.rank < y.rank := by
  have hlt := wordSize_strictMono.lt_iff_lt (a := x.magnitude) (b := y.magnitude)
  have hgt := wordSize_strictMono.lt_iff_lt (a := y.magnitude) (b := x.magnitude)
  have hx := wordSize_inj (m := x.magnitude) (n := 0)
  have hy := wordSize_inj (m := y.magnitude) (n := 0)
  have hzero : wordSize 0 = 0 := rfl
  rw [units_eq, units_eq, rank, rank]
  generalize wordSize x.magnitude = a at *
  generalize wordSize y.magnitude = b at *
  split <;> split <;> omega

theorem units_eq_apply (x : Binary64) :
    x.units = x.direction.apply (x.significand * 2 ^ (x.exponent + 1074).toNat : Nat) := by
  unfold units direction
  rw [Nat.shiftLeft_eq]
  split <;> rfl

theorem unpacked_of_isFinite (hx : x.isFinite = true) :
    x.unpacked = if h : x.magnitude = 0 then .zero x.direction
      else .finite x.direction x.significand x.exponent (significand_pos h) := by
  rw [isFinite_iff] at hx
  rw [unpacked_eq, if_neg (by rw [isNaN_iff]; omega), if_neg (by rw [isInfinite_iff]; omega)]

/-- The significand of a number at a smaller exponent. -/
theorem decreaseExponent_units {x : Binary64} {e : Int} (he : -1074 ≤ e) (hle : e ≤ x.exponent) :
    x.units = x.direction.apply (decreaseExponent x.significand x.exponent e).1 *
      2 ^ (e + 1074).toNat := by
  have hshift : (x.exponent + 1074).toNat = (x.exponent - e).toNat + (e + 1074).toNat := by omega
  rw [units_eq_apply, hshift, Nat.pow_add, ← Nat.mul_assoc, decreaseExponent, Nat.shiftLeft_eq]
  cases x.direction <;> simp [Sign.apply]

theorem rank_sub_neg_iff (hx : x.isFinite = true) (hy : y.isFinite = true) :
    (x - y).rank < 0 ↔ x.rank < y.rank := by
  rw [sub_eq, unpacked_of_isFinite hx, unpacked_of_isFinite hy]
  split <;> split
  · rename_i hx0 hy0
    rw [rank_eq_zero_iff.2 hx0, rank_eq_zero_iff.2 hy0]
    simp only [UnpackedFloat.sub]
    split <;> simp [ofUnpacked_zero, rank_neg_iff]
  · rename_i hx0 hy0
    rw [rank_eq_zero_iff.2 hx0, rank_pos_iff, rank_neg_iff]
    simp only [UnpackedFloat.sub, direction_ofUnpacked_finite, ne_eq,
      magnitude_ofUnpacked_finite_ne_zero (exponent_ge y) (significand_lt y), hy0]
    cases y.direction <;> simp [Neg.neg]
  · rename_i hx0 hy0
    have hsub : UnpackedFloat.sub Format.binary64
        (.finite x.direction x.significand x.exponent (significand_pos hx0))
        (.zero y.direction) = x.unpacked := by
      rw [unpacked_of_isFinite hx, dif_neg hx0]
      rfl
    have hnan : x.isNaN = false := by
      rw [← Bool.not_eq_true, isNaN_iff]
      rw [isFinite_iff] at hx
      omega
    rw [hsub, ofUnpacked_unpacked hnan, rank_eq_zero_iff.2 hy0]
  · set e := min x.exponent y.exponent with he
    have hpos : (0 : Int) < 2 ^ (e + 1074).toNat := Int.pow_pos (by decide)
    have hle : -1074 ≤ e := le_min (exponent_ge x) (exponent_ge y)
    rw [← units_lt_units_iff, decreaseExponent_units (x := x) hle (min_le_left _ _),
      decreaseExponent_units (x := y) hle (min_le_right _ _), Int.mul_lt_mul_right hpos]
    exact (rank_ofUnpacked_normalize hle).trans ⟨Int.lt_of_sub_neg, Int.sub_neg_of_lt⟩

theorem isNaN_sub_of_isFinite (hx : x.isFinite = true) (hy : y.isFinite = true) :
    (x - y).isNaN = false := by
  rw [← Bool.not_eq_true, sub_eq, isNaN_ofUnpacked, unpacked_of_isFinite hx,
    unpacked_of_isFinite hy]
  split <;> split <;> simp only [UnpackedFloat.sub]
  · split <;> simp
  · simp
  · simp
  · exact normalize_ne_notANumber _ _ _

theorem lt_iff : x.lt y = true ↔ x.isNaN = false ∧ y.isNaN = false ∧ x.rank < y.rank := by
  simp [lt, and_assoc]

theorem isInfinite_or_isFinite (h : x.isNaN = false) :
    x.isInfinite = true ∨ x.isFinite = true := by
  rw [← Bool.not_eq_true, isNaN_iff] at h
  rw [isInfinite_iff, isFinite_iff]
  omega

theorem unpacked_of_isInfinite (h : x.isInfinite = true) : x.unpacked = .infinity x.direction := by
  rw [unpacked_eq, if_pos h, if_neg (by rw [isInfinite_iff] at h; rw [isNaN_iff]; omega)]

theorem rank_of_isInfinite (h : x.isInfinite = true) :
    x.rank = x.direction.apply infinityWord := by
  rw [isInfinite_iff] at h
  unfold rank direction
  rw [h]
  split <;> rfl

theorem rank_lt_of_isFinite (h : x.isFinite = true) :
    -(infinityWord : Int) < x.rank ∧ x.rank < infinityWord := by
  rw [isFinite_iff] at h
  unfold rank
  split <;> omega

theorem ofUnpacked_infinity_lt_zero_iff (s : Sign) :
    (ofUnpacked (.infinity s)).lt zero = true ↔ s = .negative := by
  cases s
  · exact iff_of_true (by decide +kernel) rfl
  · exact iff_of_false (by decide +kernel) (by simp)

/-- A difference is negative just when the first operand is the lesser. -/
theorem lt_sub_zero (hx : x.isNaN = false) (hy : y.isNaN = false) :
    (x - y).lt zero = x.lt y := by
  have hword : (0 : Int) < infinityWord := by decide
  rw [Bool.eq_iff_iff, lt_iff (x := x)]
  simp only [hx, hy, true_and]
  rcases isInfinite_or_isFinite hx with hxi | hxf <;>
    rcases isInfinite_or_isFinite hy with hyi | hyf
  · rw [sub_eq, unpacked_of_isInfinite hxi, unpacked_of_isInfinite hyi, rank_of_isInfinite hxi,
      rank_of_isInfinite hyi]
    cases x.direction <;> cases y.direction <;> decide +kernel
  · have hsub : x - y = ofUnpacked (.infinity x.direction) := by
      rw [sub_eq, unpacked_of_isInfinite hxi, unpacked_of_isFinite hyf]
      split <;> rfl
    have hrank := rank_lt_of_isFinite hyf
    rw [hsub, ofUnpacked_infinity_lt_zero_iff, rank_of_isInfinite hxi]
    cases x.direction <;> simp [Sign.apply] <;> omega
  · have hsub : x - y = ofUnpacked (.infinity (-y.direction)) := by
      rw [sub_eq, unpacked_of_isInfinite hyi, unpacked_of_isFinite hxf]
      split <;> rfl
    have hrank := rank_lt_of_isFinite hxf
    have hneg : -y.direction = .negative ↔ y.direction = .positive := by
      cases y.direction <;> simp [Neg.neg]
    rw [hsub, ofUnpacked_infinity_lt_zero_iff, rank_of_isInfinite hyi, hneg]
    cases y.direction <;> simp [Sign.apply] <;> omega
  · have hzero : zero.isNaN = false ∧ zero.rank = 0 := by decide
    rw [lt_iff, hzero.2]
    simp only [hzero.1, true_and, isNaN_sub_of_isFinite hxf hyf, rank_sub_neg_iff hxf hyf]

/-! ### Sums and quotients -/

/-- Adding a finite number to a number gives a number. -/
theorem isNaN_add (hx : x.isNaN = false) (hy : y.isFinite = true) : (x + y).isNaN = false := by
  rw [← Bool.not_eq_true, add_eq, isNaN_ofUnpacked, unpacked_of_isFinite hy]
  rcases isInfinite_or_isFinite hx with hxi | hxf
  · rw [unpacked_of_isInfinite hxi]
    split <;> simp [UnpackedFloat.add]
  · rw [unpacked_of_isFinite hxf]
    split <;> split <;> simp only [UnpackedFloat.add]
    · split <;> simp
    · simp
    · simp
    · exact normalize_ne_notANumber _ _ _

/-- A number over a finite number other than zero is a number. -/
theorem isNaN_div (hx : x.isNaN = false) (hy : y.isFinite = true) (hne : y.magnitude ≠ 0) :
    (x / y).isNaN = false := by
  rw [← Bool.not_eq_true, div_eq, isNaN_ofUnpacked, unpacked_of_isFinite hy, dif_neg hne]
  rcases isInfinite_or_isFinite hx with hxi | hxf
  · rw [unpacked_of_isInfinite hxi]
    simp [UnpackedFloat.div]
  · rw [unpacked_of_isFinite hxf]
    split <;> simp only [UnpackedFloat.div]
    · simp
    · exact roundWithAccuracy_ne_notANumber _ _ _ _

/-- Over an infinite number there is nothing but zeros. -/
theorem rank_div_of_isInfinite (hy : y.isInfinite = true) (h : (x / y).isNaN = false) :
    (x / y).rank = 0 := by
  rw [div_eq, unpacked_of_isInfinite hy] at *
  cases hx : x.isNaN with
  | true =>
      rw [unpacked_eq, if_pos hx] at h
      simp [UnpackedFloat.div, ← Bool.not_eq_true, isNaN_ofUnpacked] at h
  | false =>
      rcases isInfinite_or_isFinite hx with hxi | hxf
      · rw [unpacked_of_isInfinite hxi] at h
        simp [UnpackedFloat.div, ← Bool.not_eq_true, isNaN_ofUnpacked] at h
      · rw [unpacked_of_isFinite hxf, rank_eq_zero_iff]
        split <;> simp [UnpackedFloat.div, ofUnpacked_zero]

/-! ### Whole numbers -/

theorem ratioMagnitude_le (n d : Nat) : ratioMagnitude n d ≤ infinityWord := by
  unfold ratioMagnitude
  split
  · exact Nat.zero_le _
  · dsimp only
    split
    · exact Nat.le_refl _
    · exact Nat.min_le_left _ _

theorem magnitude_ofNat (n : Nat) : (ofNat n).magnitude = ratioMagnitude n 1 :=
  magnitude_ofMagnitude ((ratioMagnitude_le n 1).trans_lt (by decide))

theorem isNaN_ofNat (n : Nat) : (ofNat n).isNaN = false := by
  have hle := ratioMagnitude_le n 1
  rw [← Bool.not_eq_true, isNaN_iff, magnitude_ofNat]
  omega

/-- A whole number other than zero is a double other than zero. -/
theorem magnitude_ofNat_ne_zero {n : Nat} (h : n ≠ 0) : (ofNat n).magnitude ≠ 0 := by
  have hexponent : -53 ≤ ratioExponent n 1 := by
    have hlog : Nat.log2 1 = 0 := by decide
    unfold ratioExponent
    rw [hlog]
    dsimp only
    split <;> split <;> omega
  have hlarge : hiddenBit ≤ (ratioExponent n 1 + 1074).toNat * hiddenBit :=
    Nat.le_mul_of_pos_left _ (by omega)
  have hhidden : 0 < hiddenBit ∧ 0 < infinityWord := by decide
  rw [magnitude_ofNat, ratioMagnitude, if_neg h]
  dsimp only
  split
  · omega
  · exact Nat.ne_of_gt (Nat.lt_min.2 ⟨hhidden.2, by omega⟩)

end Gantry.Binary64
