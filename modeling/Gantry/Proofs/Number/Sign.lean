import Gantry.Proofs.Number.Monotone

/-!
Signs of differences and of products. A difference has no sign that the order of
its operands does not give it, and a product has that of its factors. What is
not a number has neither sign, so none of this depends on the range of the
doubles.
-/

namespace Gantry.Binary64

open Float.Model (UnpackedFloat Format)
open Float.Model.UnpackedFloat

variable {x y z : Binary64}

/-! ### Differences -/

theorem magnitude_neg (x : Binary64) : x.neg.magnitude = x.magnitude := by
  have hmask : signMask.toNat = 2 ^ 63 := rfl
  rw [magnitude_eq, magnitude_eq, neg, UInt64.toNat_xor, Nat.xor_mod_two_pow, hmask, Nat.mod_self,
    Nat.xor_zero]

theorem signBit_neg (x : Binary64) : x.neg.signBit = !x.signBit := by
  have hmask : signMask.toNat = 2 ^ 63 := rfl
  have hbit (y : Binary64) : y.signBit = y.bits.toNat.testBit 63 := by
    have hlt := y.bits.toNat_lt
    rw [signBit_eq, Nat.testBit_eq_decide_div_mod_eq, decide_eq_decide]
    omega
  rw [hbit, hbit, neg, UInt64.toNat_xor, hmask, Nat.testBit_xor, Nat.testBit_two_pow_self,
    Bool.xor_true]

theorem direction_neg (x : Binary64) : x.neg.direction = -x.direction := by
  rw [direction, direction, signBit_neg]
  cases x.signBit <;> rfl

theorem rank_neg (x : Binary64) : x.neg.rank = -x.rank := by
  rw [rank, rank, signBit_neg, magnitude_neg]
  cases x.signBit <;> simp

theorem isFinite_neg (x : Binary64) : x.neg.isFinite = x.isFinite := by
  rw [isFinite, isFinite, magnitude_neg]

theorem isNaN_neg (x : Binary64) : x.neg.isNaN = x.isNaN := by
  rw [isNaN, isNaN, magnitude_neg]

theorem isInfinite_neg (x : Binary64) : x.neg.isInfinite = x.isInfinite := by
  rw [isInfinite, isInfinite, magnitude_neg]

theorem isZero_neg (x : Binary64) : x.neg.isZero = x.isZero := by
  rw [isZero, isZero, magnitude_neg]

theorem significand_neg (x : Binary64) : x.neg.significand = x.significand := by
  simp only [significand, magnitude_neg]

theorem exponent_neg (x : Binary64) : x.neg.exponent = x.exponent := by
  simp only [exponent, magnitude_neg]

theorem sub_eq_add_neg (hx : x.isFinite = true) (hy : y.isFinite = true) : x - y = x + y.neg := by
  have hsign (s : Sign) (m : Nat) : (-s).apply (m : Int) = -s.apply m := by
    cases s
    · exact (Int.neg_neg _).symm
    · rfl
  rw [sub_eq, add_eq, unpacked_of_isFinite hx, unpacked_of_isFinite hy,
    unpacked_of_isFinite ((isFinite_neg y).trans hy)]
  simp only [magnitude_neg, direction_neg, significand_neg, exponent_neg]
  split <;> split
  · rfl
  · rfl
  · rfl
  · simp only [UnpackedFloat.sub, UnpackedFloat.add, hsign, Int.sub_eq_add_neg]

theorem isFinite_of_rank_eq (h : x.rank = y.rank) (hx : x.isFinite = true) : y.isFinite = true := by
  have hlt := rank_lt_of_isFinite hx
  rw [h] at hlt
  rw [isFinite_iff]
  unfold rank at hlt
  split at hlt <;> omega

/-- A difference that is a number has no sign that its operands do not have. -/
theorem rank_sub_nonpos (hx : x.isNaN = false) (hy : y.isNaN = false) (h : x.rank ≤ y.rank)
    (hsub : (x - y).isNaN = false) : (x - y).rank ≤ 0 := by
  rcases h.lt_or_eq with hlt | heq
  · have hneg : (x - y).lt zero = true := (lt_sub_zero hx hy).trans (lt_iff.2 ⟨hx, hy, hlt⟩)
    exact (lt_iff.1 hneg).2.2.le
  · rcases isInfinite_or_isFinite hx with hxi | hxf
    · exfalso
      have hyi : y.isInfinite = true := by
        rw [isInfinite_iff] at *
        unfold rank at heq
        split at heq <;> split at heq <;> rw [isNaN, decide_eq_false_iff_not] at hy <;>
          simp only [infinityWord] at * <;> omega
      have hsame : x.direction = y.direction := by
        rw [rank_of_isInfinite hxi, rank_of_isInfinite hyi] at heq
        revert heq
        cases x.direction <;> cases y.direction <;> simp [Sign.apply, infinityWord]
      rw [sub_eq, unpacked_of_isInfinite hxi, unpacked_of_isInfinite hyi, hsame,
        ← Bool.not_eq_true, isNaN_ofUnpacked] at hsub
      exact hsub (by cases y.direction <;> rfl)
    · have hyf := isFinite_of_rank_eq heq hxf
      have hunits : x.units + y.neg.units ≤ zero.units := by
        have hneg : y.neg.units = -y.units := by
          rw [units_eq, units_eq, signBit_neg, magnitude_neg]
          cases y.signBit <;> simp
        have hzero : zero.units = 0 := rfl
        rw [hneg, (units_eq_units_iff x y).2 heq, hzero]
        omega
      rw [sub_eq_add_neg hxf hyf]
      exact (rank_add_between hxf ((isFinite_neg y).trans hyf) (by decide)).2 hunits

/-! ### Distances -/

theorem eq_or_magnitude_of_rank_eq (h : x.rank = z.rank) :
    x = z ∨ x.magnitude = 0 ∧ z.magnitude = 0 := by
  by_cases hzero : z.magnitude = 0
  · exact .inr ⟨rank_eq_zero_iff.1 (h.trans (rank_eq_zero_iff.2 hzero)), hzero⟩
  · refine .inl (eq_of_signBit_of_magnitude ?_ ?_)
    · unfold rank at h
      cases hx : x.signBit <;> cases hz : z.signBit <;> simp [hx, hz] at h ⊢ <;> omega
    · unfold rank at h
      split at h <;> split at h <;> omega

theorem magnitude_abs (x : Binary64) : x.abs.magnitude = x.magnitude := by
  rw [magnitude, magnitude, abs, UInt64.and_assoc, UInt64.and_self]

theorem isNaN_abs (x : Binary64) : x.abs.isNaN = x.isNaN := by rw [isNaN, isNaN, magnitude_abs]

/-- Absolute values are told apart by their magnitude. -/
theorem abs_eq_of_magnitude (h : x.magnitude = y.magnitude) : x.abs = y.abs := by
  have hbits : x.bits &&& 0x7fffffffffffffff = y.bits &&& 0x7fffffffffffffff := UInt64.toNat_inj.1 h
  rw [abs, abs, hbits]

/-- How far a number is from another does not depend on the sign of a zero. -/
theorem abs_sub_congr (h : x.rank = z.rank) (y : Binary64) : (x - y).abs = (z - y).abs := by
  obtain rfl | ⟨hx, hz⟩ := eq_or_magnitude_of_rank_eq h
  · rfl
  have hfinite {w : Binary64} (hw : w.magnitude = 0) : w.unpacked = .zero w.direction := by
    have hword : 0 < infinityWord := by decide
    rw [unpacked_of_isFinite (isFinite_iff.2 (by omega)), dif_pos hw]
  refine abs_eq_of_magnitude ?_
  rw [sub_eq, sub_eq, hfinite hx, hfinite hz]
  cases hy : y.unpacked with
  | notANumber => rfl
  | infinity s => rfl
  | zero s => simp only [UnpackedFloat.sub]; split <;> split <;> simp [ofUnpacked_zero]
  | finite s m e hm => rfl

/-- A difference is finite only if its operands are. -/
theorem isFinite_of_isFinite_sub (h : (x - y).isFinite = true) :
    x.isFinite = true ∧ y.isFinite = true := by
  have hinfinite (s : Sign) : ¬(ofUnpacked (.infinity s)).isFinite = true := by
    cases s <;> decide +kernel
  have hnone : ¬(ofUnpacked .notANumber).isFinite = true := by decide +kernel
  rw [sub_eq] at h
  cases hx : x.isNaN with
  | true =>
    rw [unpacked_eq x, if_pos hx] at h
    exact (hnone h).elim
  | false =>
    cases hy : y.isNaN with
    | true =>
      rw [unpacked_eq y, if_pos hy] at h
      cases hux : x.unpacked <;> rw [hux] at h <;> exact (hnone h).elim
    | false =>
      rcases isInfinite_or_isFinite hx with hxi | hxf <;>
        rcases isInfinite_or_isFinite hy with hyi | hyf
      · rw [unpacked_of_isInfinite hxi, unpacked_of_isInfinite hyi] at h
        simp only [UnpackedFloat.sub] at h
        split at h
        · exact (hinfinite _ h).elim
        · exact (hnone h).elim
      · rw [unpacked_of_isInfinite hxi, unpacked_of_isFinite hyf] at h
        split at h <;> exact (hinfinite _ h).elim
      · rw [unpacked_of_isFinite hxf, unpacked_of_isInfinite hyi] at h
        split at h <;> exact (hinfinite _ h).elim
      · exact ⟨hxf, hyf⟩

/-! ### Products -/

theorem mul_eq (x y : Binary64) :
    x * y = ofUnpacked (UnpackedFloat.mul Format.binary64 x.unpacked y.unpacked) := by
  rw [← unpack_toModel_toFloat x, ← unpack_toModel_toFloat y]
  rfl

theorem direction_roundWithAccuracy (s : Sign) (m : Nat) (e : Int) (acc : Accuracy) :
    (ofUnpacked (roundWithAccuracy Format.binary64 s m e acc)).direction = s := by
  simp only [roundWithAccuracy]
  split
  · simp [ofUnpacked_zero]
  · exact direction_ofUnpacked_finite

/-- A product is a number only if its factors are. -/
theorem isNaN_of_isNaN_mul (h : (x * y).isNaN = false) : x.isNaN = false ∧ y.isNaN = false := by
  rw [mul_eq, ← Bool.not_eq_true, isNaN_ofUnpacked] at h
  simp only [← Bool.not_eq_true]
  constructor <;> intro hnan <;> refine h ?_
  · rw [unpacked_eq x, if_pos hnan]
    rfl
  · rw [unpacked_eq y, if_pos hnan]
    cases x.unpacked <;> rfl

/-- Whatever is finite and not zero can be multiplied with any number. -/
theorem isNaN_mul (hx : x.isFinite = true) (hne : x.magnitude ≠ 0) (hy : y.isNaN = false) :
    (x * y).isNaN = false := by
  rw [← Bool.not_eq_true, mul_eq, isNaN_ofUnpacked, unpacked_of_isFinite hx, dif_neg hne]
  rcases isInfinite_or_isFinite hy with hyi | hyf
  · rw [unpacked_of_isInfinite hyi]
    simp [UnpackedFloat.mul]
  · rw [unpacked_of_isFinite hyf]
    split <;> simp only [UnpackedFloat.mul]
    · simp
    · exact roundWithAccuracy_ne_notANumber _ _ _ _

/-- A product that is a number has the sign of its factors, and is zero if one
of them is. -/
theorem mul_sign (h : (x * y).isNaN = false) :
    (x * y).direction = x.direction * y.direction ∧
      (x.magnitude = 0 ∨ y.magnitude = 0 → (x * y).magnitude = 0) := by
  have hword : ¬infinityWord = 0 := by decide
  have hnan := isNaN_of_isNaN_mul h
  rw [mul_eq, ← Bool.not_eq_true, isNaN_ofUnpacked] at h
  rw [mul_eq]
  rcases isInfinite_or_isFinite hnan.1 with hx | hx <;>
    rcases isInfinite_or_isFinite hnan.2 with hy | hy
  · rw [unpacked_of_isInfinite hx, unpacked_of_isInfinite hy] at *
    rw [isInfinite_iff] at hx hy
    simp [UnpackedFloat.mul, ofUnpacked_infinity, hx, hy, hword]
  · rw [unpacked_of_isInfinite hx, unpacked_of_isFinite hy] at *
    rw [isInfinite_iff] at hx
    split at h
    · simp [UnpackedFloat.mul] at h
    · rename_i hy0
      simp [UnpackedFloat.mul, ofUnpacked_infinity, hx, hy0, hword]
  · rw [unpacked_of_isFinite hx, unpacked_of_isInfinite hy] at *
    rw [isInfinite_iff] at hy
    split at h
    · simp [UnpackedFloat.mul] at h
    · rename_i hx0
      simp [UnpackedFloat.mul, ofUnpacked_infinity, hx0, hy, hword]
  · rw [unpacked_of_isFinite hx, unpacked_of_isFinite hy]
    split <;> split <;> simp [UnpackedFloat.mul, ofUnpacked_zero, direction_roundWithAccuracy, *]

/-- The sign of a number other than zero. -/
theorem direction_eq (h : x.magnitude ≠ 0) :
    x.direction = if x.rank < 0 then .negative else .positive := by
  split
  · exact (rank_neg_iff.1 ‹_›).1
  · have hne := mt rank_eq_zero_iff.1 h
    exact (rank_pos_iff.1 (by omega)).1

theorem rank_mul_nonneg (h : (x * y).isNaN = false) (hx : 0 ≤ x.rank) (hy : 0 ≤ y.rank) :
    0 ≤ (x * y).rank := by
  obtain ⟨hsign, hzero⟩ := mul_sign h
  by_cases hnone : x.magnitude = 0 ∨ y.magnitude = 0
  · rw [rank_eq_zero_iff.2 (hzero hnone)]
  · rw [not_or] at hnone
    rw [direction_eq hnone.1, direction_eq hnone.2, if_neg hx.not_gt, if_neg hy.not_gt] at hsign
    rw [← Int.not_lt, rank_neg_iff, hsign]
    exact fun h => Sign.noConfusion h.1

theorem rank_mul_nonpos (h : (x * y).isNaN = false) (hx : 0 ≤ x.rank) (hy : y.rank ≤ 0) :
    (x * y).rank ≤ 0 := by
  obtain ⟨hsign, hzero⟩ := mul_sign h
  by_cases hnone : x.magnitude = 0 ∨ y.magnitude = 0
  · rw [rank_eq_zero_iff.2 (hzero hnone)]
  · rw [not_or] at hnone
    have hneg : y.rank < 0 := lt_of_le_of_ne hy (mt rank_eq_zero_iff.1 hnone.2)
    rw [direction_eq hnone.1, direction_eq hnone.2, if_neg hx.not_gt, if_pos hneg] at hsign
    rw [← Int.not_lt, rank_pos_iff, hsign]
    exact fun h => Sign.noConfusion h.1

end Gantry.Binary64

namespace Gantry.Number

open Binary64 (zero isNaN_of_isNaN_mul)

variable {a b d : Number} {x y : Binary64}

/-! ### Numbers -/

theorem combine_cases {whole : Int → Int → Int} {fractional : Binary64 → Binary64 → Binary64}
    (h : combine whole fractional a b = some d) :
    (∃ m n, a = .int m ∧ b = .int n ∧ d = .int (whole m n)) ∨
      ∃ x y, a.toBinary64? = some x ∧ b.toBinary64? = some y ∧ (a = .real x ∨ b = .real y) ∧
        d = .real (fractional x y) := by
  unfold combine at h
  split at h
  · exact .inl ⟨_, _, rfl, rfl, (Option.some.inj h).symm⟩
  · rename_i hwhole
    split at h
    · rename_i x y hx hy
      refine .inr ⟨x, y, hx, hy, ?_, (Option.some.inj h).symm⟩
      cases a with
      | real x' => exact .inl (congrArg _ (Option.some.inj hx))
      | int m =>
        cases b with
        | real y' => exact .inr (congrArg _ (Option.some.inj hy))
        | int n => exact (hwhole m n rfl rfl).elim
    · cases h

theorem combine_eq_real {whole : Int → Int → Int} {fractional : Binary64 → Binary64 → Binary64}
    (hx : a.toBinary64? = some x) (hy : b.toBinary64? = some y) (hreal : a = .real x ∨ b = .real y) :
    combine whole fractional a b = some (.real (fractional x y)) := by
  obtain rfl | rfl := hreal
  · cases b <;> simp only [combine, hx, hy]
  · cases a <;> simp only [combine, hx, hy]

theorem ofInt_lt_zero {n : Int} (h : (Number.int n).lt (.int 0) = false) :
    (Binary64.ofInt n).lt zero = false := by
  refine (Binary64.not_lt (Binary64.isNaN_ofInt n) (by decide)).2 (Binary64.le_iff.2
    ⟨by decide, Binary64.isNaN_ofInt n, (Binary64.rank_ofInt_between n (by decide)).1 ?_⟩)
  exact Int.mul_nonneg (Int.not_lt.1 (of_decide_eq_false h)) (Int.natCast_nonneg _)

theorem zero_lt_ofInt {n : Int} (h : (Number.int 0).lt (.int n) = false) :
    zero.lt (Binary64.ofInt n) = false := by
  refine (Binary64.not_lt (by decide) (Binary64.isNaN_ofInt n)).2 (Binary64.le_iff.2
    ⟨Binary64.isNaN_ofInt n, by decide, (Binary64.rank_ofInt_between n (by decide)).2 ?_⟩)
  exact Int.mul_nonpos_of_nonpos_of_nonneg (Int.not_lt.1 (of_decide_eq_false h))
    (Int.natCast_nonneg _)

theorem lt_zero_toBinary64? (ha : a.lt (.int 0) = false) (hx : a.toBinary64? = some x) :
    x.lt zero = false := by
  cases a with
  | real x' => exact Option.some.inj hx ▸ lt_zero x' ▸ ha
  | int n =>
    obtain rfl := Option.some.inj (Option.ite_none_right_eq_some.1 hx).2
    exact ofInt_lt_zero ha

theorem zero_lt_toBinary64? (ha : (Number.int 0).lt a = false) (hx : a.toBinary64? = some x) :
    zero.lt x = false := by
  cases a with
  | real x' => exact Option.some.inj hx ▸ zero_lt x' ▸ ha
  | int n =>
    obtain rfl := Option.some.inj (Option.ite_none_right_eq_some.1 hx).2
    exact zero_lt_ofInt ha

/-- Taking away no more than there is leaves nothing negative. -/
theorem sub_lt_zero (h : b.le a = true) (hd : a.sub b = some d) : d.lt (.int 0) = false := by
  obtain ⟨m, n, rfl, rfl, rfl⟩ | ⟨x, y, hx, hy, hreal, rfl⟩ := combine_cases hd
  · have hle : n ≤ m := by
      have hlt := not_lt_of_le h
      exact Int.not_lt.1 (of_decide_eq_false hlt)
    exact decide_eq_false (by omega)
  · have hle := le_toBinary64? h hy hx hreal.symm
    obtain ⟨hynan, hxnan, -⟩ := Binary64.le_iff.1 hle
    rw [lt_zero, Binary64.lt_sub_zero hxnan hynan, Binary64.not_lt hxnan hynan, hle]

/-- Taking away no less than there is leaves nothing positive. -/
theorem zero_lt_sub (h : a.le b = true) (hd : a.sub b = some d) : (Number.int 0).lt d = false := by
  obtain ⟨m, n, rfl, rfl, rfl⟩ | ⟨x, y, hx, hy, hreal, rfl⟩ := combine_cases hd
  · have hle : m ≤ n := Int.not_lt.1 (of_decide_eq_false (not_lt_of_le h))
    exact decide_eq_false (by omega)
  · obtain ⟨hxnan, hynan, hrank⟩ := Binary64.le_iff.1 (le_toBinary64? h hx hy hreal)
    rw [zero_lt, ← Bool.not_eq_true, Binary64.lt_iff]
    rintro ⟨-, hsub, hpos⟩
    exact (Binary64.rank_sub_nonpos hxnan hynan hrank hsub).not_gt hpos

theorem mul_lt_zero (ha : a.lt (.int 0) = false) (hb : b.lt (.int 0) = false)
    (hd : a.mul b = some d) : d.lt (.int 0) = false := by
  obtain ⟨m, n, rfl, rfl, rfl⟩ | ⟨x, y, hx, hy, hreal, rfl⟩ := combine_cases hd
  · exact decide_eq_false (Int.not_lt.2 (Int.mul_nonneg (Int.not_lt.1 (of_decide_eq_false ha))
      (Int.not_lt.1 (of_decide_eq_false hb))))
  · have hzero : zero.isNaN = false := by decide
    rw [lt_zero, ← Bool.not_eq_true, Binary64.lt_iff]
    rintro ⟨hmul, -, hneg⟩
    obtain ⟨hxnan, hynan⟩ := isNaN_of_isNaN_mul hmul
    have hxrank := (Binary64.le_iff.1 ((Binary64.not_lt hxnan hzero).1
      (lt_zero_toBinary64? ha hx))).2.2
    have hyrank := (Binary64.le_iff.1 ((Binary64.not_lt hynan hzero).1
      (lt_zero_toBinary64? hb hy))).2.2
    exact (Binary64.rank_mul_nonneg hmul hxrank hyrank).not_gt hneg

theorem zero_lt_mul (ha : a.lt (.int 0) = false) (hb : (Number.int 0).lt b = false)
    (hd : a.mul b = some d) : (Number.int 0).lt d = false := by
  obtain ⟨m, n, rfl, rfl, rfl⟩ | ⟨x, y, hx, hy, hreal, rfl⟩ := combine_cases hd
  · exact decide_eq_false (Int.not_lt.2 (Int.mul_nonpos_of_nonneg_of_nonpos
      (Int.not_lt.1 (of_decide_eq_false ha)) (Int.not_lt.1 (of_decide_eq_false hb))))
  · have hzero : zero.isNaN = false := by decide
    rw [zero_lt, ← Bool.not_eq_true, Binary64.lt_iff]
    rintro ⟨-, hmul, hpos⟩
    obtain ⟨hxnan, hynan⟩ := isNaN_of_isNaN_mul hmul
    have hxrank := (Binary64.le_iff.1 ((Binary64.not_lt hxnan hzero).1
      (lt_zero_toBinary64? ha hx))).2.2
    have hyrank := (Binary64.le_iff.1 ((Binary64.not_lt hzero hynan).1
      (zero_lt_toBinary64? hb hy))).2.2
    exact (Binary64.rank_mul_nonpos hmul hxrank hyrank).not_gt hpos

/-! ### Results that are numbers -/

theorem isFinite_of_toBinary64?_int {n : Int} (h : (Number.int n).toBinary64? = some x) :
    x.isFinite = true := by
  obtain ⟨hfinite, hx⟩ := Option.ite_none_right_eq_some.1 h
  exact Option.some.inj hx ▸ hfinite

/-- A difference of numbers of which one is the lesser is a number. -/
theorem isNaN_sub (h : a.lt b = true) (hd : a.sub b = some d) : d.isNaN = false := by
  obtain ⟨m, n, rfl, rfl, rfl⟩ | ⟨x, y, hx, hy, hreal, rfl⟩ := combine_cases hd
  · rfl
  obtain ⟨hxnan, hynan, hrank⟩ := Binary64.le_iff.1 (le_toBinary64? (le_of_lt h) hx hy hreal)
  rcases hrank.lt_or_eq with hlt | heq
  · have hneg := (Binary64.lt_sub_zero hxnan hynan).trans (Binary64.lt_iff.2 ⟨hxnan, hynan, hlt⟩)
    exact (Binary64.lt_iff.1 hneg).1
  · -- Of two doubles with one rank neither is the lesser, so one operand is a whole number.
    have hboth : x.isFinite = true ∧ y.isFinite = true := by
      cases a with
      | int m =>
        have hxf := isFinite_of_toBinary64?_int hx
        exact ⟨hxf, Binary64.isFinite_of_rank_eq heq hxf⟩
      | real x' =>
        cases b with
        | int n =>
          have hyf := isFinite_of_toBinary64?_int hy
          exact ⟨Binary64.isFinite_of_rank_eq heq.symm hyf, hyf⟩
        | real y' =>
          obtain rfl := Option.some.inj hx
          obtain rfl := Option.some.inj hy
          rw [lt_real, Binary64.lt_iff] at h
          omega
    exact Binary64.isNaN_sub_of_isFinite hboth.1 hboth.2

/-- A number that is positive as a double, and finite. -/
def Proper (a : Number) : Prop := ∃ x ∈ a.toBinary64?, x.isFinite = true ∧ zero.lt x = true

instance (a : Number) : Decidable a.Proper := by
  unfold Proper
  infer_instance

theorem isNaN_mul (ha : a.Proper) (hb : b.isNaN = false) (hd : a.mul b = some d) :
    d.isNaN = false := by
  obtain ⟨x, hx, hfinite, hpos⟩ := ha
  obtain ⟨m, n, rfl, rfl, rfl⟩ | ⟨x', y, hx', hy, hreal, rfl⟩ := combine_cases hd
  · rfl
  · obtain rfl := Option.some.inj (hx.symm.trans hx')
    have hrank : 0 < x.rank := (Binary64.lt_iff.1 hpos).2.2
    refine Binary64.isNaN_mul hfinite (Binary64.rank_pos_iff.1 hrank).2 ?_
    cases b with
    | real y' => exact Option.some.inj hy ▸ hb
    | int n => exact Binary64.isNaN_eq_false_of_isFinite (isFinite_of_toBinary64?_int hy)

end Gantry.Number
