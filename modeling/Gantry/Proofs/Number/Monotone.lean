import Gantry.Proofs.Number.Order
import Gantry.Proofs.Number.Quotient

/-!
Rounding keeps order. Both roundings here, that of the machine and that of
whole numbers, round a number of units to one of the two neighbours on a grid
that is no finer than 53 bits. A double that the number does not exceed is then
not exceeded by the result, and one that does not exceed it stays below it too.
So a sum lies on the side of one operand that the sign of the other says.
-/

namespace Gantry.Binary64

open Float.Model (UnpackedFloat Format)
open Float.Model.UnpackedFloat

variable {x y z : Binary64} {m n k q w N M : Nat} {e : Int}

/-! ### Words on a grid -/

theorem hiddenBit_pos : 0 < hiddenBit := by decide

/-- The word of a significand with an exponent, which one too large by a bit
carries into. -/
theorem wordSize_field (hfull : k = 0 ∨ hiddenBit ≤ q) (hq : q ≤ 2 * hiddenBit) :
    wordSize (k * hiddenBit + q) = q * 2 ^ k := by
  have hpos := hiddenBit_pos
  rcases Nat.lt_or_ge q hiddenBit with hsmall | hlarge
  · obtain rfl : k = 0 := hfull.resolve_right (by omega)
    simp [wordSize, Nat.div_eq_of_lt hsmall]
  · rcases hq.lt_or_eq with hlt | rfl
    · obtain ⟨r, rfl⟩ := Nat.exists_eq_add_of_le hlarge
      have hr : r < hiddenBit := by omega
      have hword : k * hiddenBit + (hiddenBit + r) = r + hiddenBit * (k + 1) := by ring
      rw [wordSize, hword, Nat.add_mul_div_left _ _ hpos, Nat.add_mul_mod_self_left,
        Nat.div_eq_of_lt hr, Nat.mod_eq_of_lt hr, if_neg (by omega), Nat.zero_add,
        Nat.add_sub_cancel]
    · have hword : k * hiddenBit + 2 * hiddenBit = 0 + hiddenBit * (k + 2) := by ring
      rw [wordSize, hword, Nat.add_mul_div_left _ _ hpos, Nat.add_mul_mod_self_left,
        Nat.zero_div, Nat.zero_mod, if_neg (by omega), Nat.zero_add, Nat.add_zero,
        show k + 2 - 1 = k + 1 by omega]
      ring

/-- Doubles beyond 53 bits of a grid lie on it. -/
theorem two_pow_dvd_wordSize (h : hiddenBit * 2 ^ k ≤ wordSize w) : 2 ^ k ∣ wordSize w := by
  have hpos := hiddenBit_pos
  have hrest := Nat.mod_lt w hpos
  unfold wordSize at h ⊢
  split at h
  · rename_i hsmall
    have hlt : w < hiddenBit := (Nat.div_eq_zero_iff_lt hpos).1 hsmall
    have hle := Nat.le_mul_of_pos_right hiddenBit (Nat.two_pow_pos k)
    omega
  · rename_i hlarge
    rw [if_neg hlarge]
    refine Nat.dvd_mul_left_of_dvd (Nat.pow_dvd_pow 2 ?_) _
    have hlt : hiddenBit * 2 ^ k < hiddenBit * 2 ^ (w / hiddenBit) := by
      calc hiddenBit * 2 ^ k ≤ (hiddenBit + w % hiddenBit) * 2 ^ (w / hiddenBit - 1) := h
        _ < (hiddenBit + hiddenBit) * 2 ^ (w / hiddenBit - 1) :=
            Nat.mul_lt_mul_of_pos_right (by omega) (Nat.two_pow_pos _)
        _ = hiddenBit * 2 ^ (w / hiddenBit - 1 + 1) := by ring
        _ = hiddenBit * 2 ^ (w / hiddenBit) := by
            rw [Nat.sub_add_cancel (Nat.one_le_iff_ne_zero.2 hlarge)]
    have := (Nat.pow_lt_pow_iff_right one_lt_two).1 (Nat.lt_of_mul_lt_mul_left hlt)
    omega

/-- A number of units is rounded to a magnitude word: to one of its neighbours on
a grid of at most 53 bits, or out of the range. -/
def RoundsTo (N M : Nat) : Prop := ∃ k q, (k = 0 ∨ hiddenBit * 2 ^ k ≤ N) ∧
  N < 2 * hiddenBit * 2 ^ k ∧ N / 2 ^ k ≤ q ∧ q * 2 ^ k < N + 2 ^ k ∧
  M = min infinityWord (k * hiddenBit + q)

theorem roundsTo_zero : RoundsTo 0 0 := ⟨0, 0, .inl rfl, by decide, by decide, by decide, by decide⟩

theorem hiddenBit_le_significand (hgrid : hiddenBit * 2 ^ k ≤ N) (hlow : N / 2 ^ k ≤ q) :
    hiddenBit ≤ q :=
  ((Nat.le_div_iff_mul_le (Nat.two_pow_pos k)).2 hgrid).trans hlow

/-- A significand is too large by a bit at most. -/
theorem significand_le (hfits : N < 2 * hiddenBit * 2 ^ k) (hhigh : q * 2 ^ k < N + 2 ^ k) :
    q ≤ 2 * hiddenBit := by
  have hlt : q * 2 ^ k < (2 * hiddenBit + 1) * 2 ^ k := by
    rw [Nat.succ_mul]
    omega
  exact Nat.lt_succ_iff.1 (Nat.lt_of_mul_lt_mul_right hlt)

/-- What is rounded on a grid is rounded on the finer grid of smaller units too. -/
theorem roundsTo_mul_two_pow {i r : Nat} (hgrid : i + r = 0 ∨ hiddenBit * 2 ^ i ≤ m)
    (hfits : m < 2 * hiddenBit * 2 ^ i) (hlow : m / 2 ^ i ≤ q) (hhigh : q * 2 ^ i < m + 2 ^ i) :
    RoundsTo (m * 2 ^ r) (min infinityWord ((i + r) * hiddenBit + q)) := by
  have hunit := Nat.two_pow_pos r
  refine ⟨i + r, q, ?_, ?_, ?_, ?_, rfl⟩
  · rw [Nat.pow_add, ← Nat.mul_assoc]
    exact hgrid.imp_right (Nat.mul_le_mul_right _)
  · rw [Nat.pow_add, ← Nat.mul_assoc]
    exact Nat.mul_lt_mul_of_pos_right hfits hunit
  · rwa [Nat.pow_add, Nat.mul_div_mul_right _ _ hunit]
  · rw [Nat.pow_add, ← Nat.mul_assoc, ← Nat.add_mul]
    exact Nat.mul_lt_mul_of_pos_right hhigh hunit

/-- Rounding comes to the same side of every double. -/
theorem RoundsTo.between (h : RoundsTo N M) :
    (w ≤ infinityWord → wordSize w ≤ N → w ≤ M) ∧ (N ≤ wordSize w → M ≤ w) := by
  obtain ⟨k, q, hgrid, hfits, hlow, hhigh, rfl⟩ := h
  have hunit := Nat.two_pow_pos k
  have hfull : k = 0 ∨ hiddenBit ≤ q := hgrid.imp_right fun h => hiddenBit_le_significand h hlow
  have hq := significand_le hfits hhigh
  have hfield := wordSize_field hfull hq
  have hlarge : ¬2 ^ k ∣ wordSize w → hiddenBit ≤ q ∧ wordSize w < hiddenBit * 2 ^ k ∧
      hiddenBit * 2 ^ k ≤ N := by
    intro hoff
    have hk : k ≠ 0 := by
      rintro rfl
      exact hoff (by simp)
    exact ⟨hfull.resolve_left hk, not_le.1 (mt two_pow_dvd_wordSize hoff), hgrid.resolve_left hk⟩
  constructor
  · intro hw hle
    refine Nat.le_min.2 ⟨hw, wordSize_strictMono.le_iff_le.1 ?_⟩
    rw [hfield]
    by_cases hon : 2 ^ k ∣ wordSize w
    · obtain ⟨c, hc⟩ := hon
      rw [hc, Nat.mul_comm] at hle ⊢
      exact Nat.mul_le_mul_right _ (((Nat.le_div_iff_mul_le hunit).2 hle).trans hlow)
    · obtain ⟨hq, hlt, -⟩ := hlarge hon
      exact hlt.le.trans (Nat.mul_le_mul_right _ hq)
  · intro hle
    refine (Nat.min_le_right _ _).trans (wordSize_strictMono.le_iff_le.1 ?_)
    rw [hfield]
    by_cases hon : 2 ^ k ∣ wordSize w
    · obtain ⟨c, hc⟩ := hon
      rw [hc, Nat.mul_comm (2 ^ k)] at hle ⊢
      have hlt : q * 2 ^ k < (c + 1) * 2 ^ k := by
        rw [Nat.succ_mul]
        omega
      exact Nat.mul_le_mul_right _ (Nat.lt_succ_iff.1 (Nat.lt_of_mul_lt_mul_right hlt))
    · obtain ⟨-, hlt, hN⟩ := hlarge hon
      omega

/-! ### Rounding by the machine -/

/-- What is shifted out of a mantissa counts at most as a carry, and not at all if
it is nothing. -/
theorem roundedMantissa_shiftRight (m k : Nat) :
    m / 2 ^ k ≤ (ExtendedMantissa.mk m false false >>> k).roundedMantissa ∧
      (ExtendedMantissa.mk m false false >>> k).roundedMantissa * 2 ^ k < m + 2 ^ k := by
  have hunit := Nat.two_pow_pos k
  by_cases hexact : 2 ^ k ∣ m
  · obtain ⟨c, rfl⟩ := hexact
    have hshift : ExtendedMantissa.mk (2 ^ k * c) false false >>> k = ⟨c, false, false⟩ := by
      rw [Nat.mul_comm, ← Nat.shiftLeft_eq, shiftRight_shiftLeft c (Nat.le_refl k), Nat.sub_self,
        Nat.shiftLeft_zero]
    have hrounded : (ExtendedMantissa.mk c false false).roundedMantissa = c := rfl
    rw [hshift, hrounded, Nat.mul_div_cancel_left _ hunit, Nat.mul_comm]
    omega
  · have hlow := mantissa_le_roundedMantissa (ExtendedMantissa.mk m false false >>> k)
    have hhigh := roundedMantissa_le (ExtendedMantissa.mk m false false >>> k)
    rw [mantissa_shiftRight] at hlow hhigh
    refine ⟨hlow, ?_⟩
    have hrest : m % 2 ^ k ≠ 0 := mt Nat.dvd_of_mod_eq_zero hexact
    have hsplit := Nat.div_add_mod' m (2 ^ k)
    calc _ ≤ (m / 2 ^ k + 1) * 2 ^ k := Nat.mul_le_mul_right _ hhigh
      _ < m + 2 ^ k := by rw [Nat.succ_mul]; omega

/-- A significand of full length, or one at the least exponent, in a word. -/
theorem magnitude_ofUnpacked_finite {s : Sign} {h : 0 < q} (hq : q < 2 * hiddenBit)
    (hfull : k = 0 ∨ hiddenBit ≤ q) :
    (ofUnpacked (.finite s q ((k : Int) - 1074) h)).magnitude =
      min infinityWord (k * hiddenBit + q) := by
  have hlog : q.log2 = 52 ↔ hiddenBit ≤ q := by
    have hle := Nat.le_log2 (k := 52) h.ne'
    have hlt := Nat.log2_lt (k := 53) h.ne'
    simp only [hiddenBit] at *
    omega
  rw [ofUnpacked_finite]
  simp only [hlog]
  split
  · rw [magnitude_ofFields]
    simp only [infinityWord, hiddenBit] at *
    rw [min_eq_left (by omega)]
    decide
  · split
    · rw [magnitude_ofFields, BitVec.toNat_ofNat, BitVec.toNat_ofNat]
      simp only [infinityWord, hiddenBit] at *
      rw [min_eq_right (by omega)]
      omega
    · rw [magnitude_ofFields, BitVec.toNat_ofNat, BitVec.toNat_ofNat]
      simp only [infinityWord, hiddenBit] at *
      rw [min_eq_right (by omega)]
      omega

/-- A carry out of a rounded significand goes into the exponent. -/
theorem magnitude_roundWithAccuracy {s : Sign} {acc : Accuracy}
    (hk : (shiftToTargetExponent Format.binary64 m e acc).2 = (k : Int) - 1074)
    (hq : (shiftToTargetExponent Format.binary64 m e acc).1.roundedMantissa = q)
    (hpos : 0 < q) (hle : q ≤ 2 * hiddenBit) (hfull : k = 0 ∨ hiddenBit ≤ q) :
    (ofUnpacked (roundWithAccuracy Format.binary64 s m e acc)).magnitude =
      min infinityWord (k * hiddenBit + q) := by
  obtain ⟨hmantissa, -⟩ := shiftToTargetExponent_mantissa (m := q) (e := (k : Int) - 1074) .exact
    (by omega)
  have hexponent := shiftToTargetExponent_exponent q ((k : Int) - 1074) .exact
  have hdrop : q < 2 * hiddenBit ∧ q.log2 ≤ 52 ∨ q = 2 * hiddenBit ∧ q.log2 = 53 := by
    rcases hle.lt_or_eq with hlt | rfl
    · have := (Nat.log2_lt (k := 53) hpos.ne').2 hlt
      exact .inl ⟨hlt, by omega⟩
    · exact .inr ⟨rfl, by decide⟩
  simp only [roundWithAccuracy, hk, hq, hmantissa]
  obtain ⟨hlt, hlog⟩ | ⟨rfl, hlog⟩ := hdrop
  · have hkept : (q : Nat) / 2 ^ (q.log2 - 52) = q := by rw [Nat.sub_eq_zero_of_le hlog]; simp
    have hstay : max ((k : Int) - 1074) (max ((q.log2 : Int) - 52 + ((k : Int) - 1074)) (-1074)) =
        (k : Int) - 1074 := by omega
    simp only [hkept, dif_neg hpos.ne', hexponent, hstay]
    exact magnitude_ofUnpacked_finite hlt hfull
  · have hkept : 2 * hiddenBit / 2 ^ ((2 * hiddenBit).log2 - 52) = hiddenBit := by decide
    have hstep : max ((k : Int) - 1074) (max (((2 * hiddenBit).log2 : Int) - 52 + ((k : Int) - 1074))
        (-1074)) = ((k + 1 : Nat) : Int) - 1074 := by
      rw [hlog]
      omega
    simp only [hkept, dif_neg hiddenBit_pos.ne', hexponent, hstep]
    rw [magnitude_ofUnpacked_finite (by decide) (.inr (Nat.le_refl _))]
    rw [show (k + 1) * hiddenBit + hiddenBit = k * hiddenBit + 2 * hiddenBit by ring]

theorem log2_shiftLeft (hm : 0 < m) (j : Nat) : (m <<< j).log2 = m.log2 + j := by
  have hunit := Nat.two_pow_pos j
  rw [Nat.shiftLeft_eq, Nat.log2_eq_iff (Nat.mul_pos hm hunit).ne', Nat.pow_add,
    show m.log2 + j + 1 = m.log2 + 1 + j by omega, Nat.pow_add]
  exact ⟨Nat.mul_le_mul_right _ (Nat.log2_self_le hm.ne'),
    Nat.mul_lt_mul_of_pos_right Nat.lt_log2_self hunit⟩

/-- How many bits a number has beyond 53. -/
theorem bounds_of_log2 {i : Nat} (hm : 0 < m) :
    (m.log2 ≤ i + 52 → m < 2 * hiddenBit * 2 ^ i) ∧ (i + 52 ≤ m.log2 → hiddenBit * 2 ^ i ≤ m) := by
  have hlow : hiddenBit * 2 ^ i = 2 ^ (i + 52) := by rw [Nat.pow_add, Nat.mul_comm]; rfl
  have hhigh : 2 * hiddenBit * 2 ^ i = 2 ^ (i + 52 + 1) := by
    rw [Nat.mul_assoc, hlow, ← Nat.pow_succ']
  rw [hlow, hhigh]
  exact ⟨fun h => (Nat.log2_lt hm.ne').1 (Nat.lt_succ_of_le h), (Nat.le_log2 hm.ne').1⟩

/-- A sum is rounded from its units. -/
theorem roundsTo_round (s : Sign) (hm : 0 < m) (he : -1074 ≤ e) :
    RoundsTo (m * 2 ^ (e + 1074).toNat)
      (ofUnpacked (UnpackedFloat.round Format.binary64 s m e)).magnitude := by
  set t := max ((m.log2 : Int) - 52 + e) (-1074) with ht
  -- The significand is shifted to the left by `j` places, or to the right by `i`;
  -- `r` more places are left to the units.
  set j := (e - t).toNat with hj
  set i := (t - e).toNat with hi
  obtain ⟨r, hr⟩ : ∃ r : Nat, t = (i + r : Nat) - 1074 := ⟨(t + 1074).toNat - i, by omega⟩
  have hlog := log2_shiftLeft hm j
  have hpos : 0 < m <<< j := by
    rw [Nat.shiftLeft_eq]
    exact Nat.mul_pos hm (Nat.two_pow_pos j)
  have hshifted : shiftToTargetExponent Format.binary64 (m <<< j) (e - j) .exact =
      (ExtendedMantissa.mk (m <<< j) false false >>> i, ((i + r : Nat) : Int) - 1074) := by
    have hplaces : (max (((m <<< j).log2 : Int) - 52 + (e - j)) (-1074) - (e - j)).toNat = i := by
      omega
    have hexponent : e - j + i = ((i + r : Nat) : Int) - 1074 := by omega
    simp only [shiftToTargetExponent, shiftToExponent, targetExponent_eq, hplaces, hexponent,
      ExtendedMantissa.ofMantissaAndAccuracy]
  have hunits : m * 2 ^ (e + 1074).toNat = m <<< j * 2 ^ r := by
    rw [Nat.shiftLeft_eq, Nat.mul_assoc, ← Nat.pow_add]
    congr 2
    omega
  obtain ⟨hlow, hhigh⟩ := roundedMantissa_shiftRight (m <<< j) i
  have hfits : m <<< j < 2 * hiddenBit * 2 ^ i := (bounds_of_log2 hpos).1 (by omega)
  have hgrid : i + r = 0 ∨ hiddenBit * 2 ^ i ≤ m <<< j :=
    or_iff_not_imp_left.2 fun _ => (bounds_of_log2 hpos).2 (by omega)
  generalize hq : (ExtendedMantissa.mk (m <<< j) false false >>> i).roundedMantissa = q at hlow hhigh
  have hfull : i + r = 0 ∨ hiddenBit ≤ q :=
    hgrid.imp_right fun h => hiddenBit_le_significand h hlow
  have hqpos : 0 < q := by
    obtain hzero | hfull := hfull
    · rw [(Nat.add_eq_zero_iff.1 hzero).1, Nat.pow_zero, Nat.div_one] at hlow
      omega
    · exact hiddenBit_pos.trans_le hfull
  have hrounded : (ofUnpacked (UnpackedFloat.round Format.binary64 s m e)).magnitude =
      min infinityWord ((i + r) * hiddenBit + q) := by
    simp only [UnpackedFloat.round, targetExponent_eq, decreaseExponent]
    exact magnitude_roundWithAccuracy (by rw [hshifted]) (by rw [hshifted, hq]) hqpos
      (significand_le hfits hhigh) hfull
  rw [hunits, hrounded]
  exact roundsTo_mul_two_pow hgrid hfits hlow hhigh

/-! ### Rounding of whole numbers -/

theorem roundHalfEven_mul_lt {a b : Nat} (hb : 0 < b) : roundHalfEven a b * b < a + b := by
  have hsplit := Nat.div_add_mod' a b
  by_cases hexact : a % b = 0
  · have hround : roundHalfEven a b = a / b := by simp [roundHalfEven, hexact, hb]
    rw [hround]
    omega
  · calc roundHalfEven a b * b ≤ (a / b + 1) * b := Nat.mul_le_mul_right _ (roundHalfEven_le a b)
      _ < a + b := by rw [Nat.succ_mul]; omega

/-- A whole number in units, at the exponent that its ratio is scaled to. -/
theorem scaleRatio_units {a b : Nat} (hb : 0 < b)
    (hscale : (a : ℚ) / b = n / 2 ^ ((k : Int) - 1074)) : a * 2 ^ k = n * 2 ^ 1074 * b := by
  have hunit : (2 : ℚ) ^ ((k : Int) - 1074) * 2 ^ 1074 = 2 ^ k := by
    rw [← zpow_natCast, ← zpow_natCast, ← zpow_add₀ two_ne_zero]
    congr 1
    omega
  rw [div_eq_iff (Nat.cast_ne_zero.2 hb.ne'), div_mul_eq_mul_div,
    eq_div_iff (zpow_pos two_pos _).ne'] at hscale
  refine Nat.cast_injective (R := ℚ) ?_
  rw [Nat.cast_mul, Nat.cast_mul, Nat.cast_mul, Nat.cast_pow, Nat.cast_pow, Nat.cast_two,
    ← hunit, ← mul_assoc, hscale, mul_right_comm]

/-- Bounds on a whole number as bounds on its units. -/
theorem units_bounds :
    ((2 : ℚ) ^ ((k : Int) - 1074 + 52) ≤ n → hiddenBit * 2 ^ k ≤ n * 2 ^ 1074) ∧
      ((n : ℚ) < 2 ^ ((k : Int) - 1074 + 53) → n * 2 ^ 1074 < 2 * hiddenBit * 2 ^ k) := by
  have hunit (p : Nat) : (2 : ℚ) ^ ((k : Int) - 1074 + p) * 2 ^ 1074 = 2 ^ p * 2 ^ k := by
    rw [← zpow_natCast, ← zpow_natCast, ← zpow_natCast, ← zpow_add₀ two_ne_zero,
      ← zpow_add₀ two_ne_zero]
    congr 1
    push_cast
    ring
  have hpos : (0 : ℚ) < 2 ^ 1074 := by positivity
  constructor
  · intro h
    have hmul := mul_le_mul_of_nonneg_right h hpos.le
    rw [show (52 : Int) = (52 : Nat) by rfl, hunit] at hmul
    exact_mod_cast hmul
  · intro h
    have hmul := mul_lt_mul_of_pos_right h hpos
    rw [show (53 : Int) = (53 : Nat) by rfl, hunit] at hmul
    exact_mod_cast hmul

/-- A whole number is rounded from its units. -/
theorem roundsTo_ratioMagnitude (n : Nat) : RoundsTo (n * 2 ^ 1074) (ratioMagnitude n 1) := by
  rcases Nat.eq_zero_or_pos n with rfl | hn
  · rw [Nat.zero_mul]
    exact roundsTo_zero
  obtain ⟨hleast, hhigh, hlow⟩ := ratioExponent_spec hn Nat.one_pos
  obtain ⟨hb, hscale⟩ := scaleRatio_eq (n := n) Nat.one_pos (ratioExponent n 1)
  have hmagnitude : ratioMagnitude n 1 = if 1100 < ratioExponent n 1 then infinityWord
      else min infinityWord ((ratioExponent n 1 + 1074).toNat * hiddenBit +
        roundHalfEven (scaleRatio n 1 (ratioExponent n 1)).1
          (scaleRatio n 1 (ratioExponent n 1)).2) := by
    rw [ratioMagnitude, if_neg hn.ne']
  obtain ⟨k, hk⟩ : ∃ k : Nat, ratioExponent n 1 = k - 1074 :=
    ⟨(ratioExponent n 1 + 1074).toNat, by omega⟩
  generalize scaleRatio n 1 (ratioExponent n 1) = r at hb hscale hmagnitude
  obtain ⟨a, b⟩ := r
  dsimp only at hb hscale hmagnitude
  rw [hk] at hhigh hlow hscale hmagnitude
  rw [Nat.cast_one, div_one] at hhigh hlow hscale
  have hunits := scaleRatio_units hb hscale
  have hdiv : n * 2 ^ 1074 / 2 ^ k = a / b := by
    rw [← Nat.mul_div_mul_right _ _ hb, ← hunits, Nat.mul_comm (2 ^ k),
      Nat.mul_div_mul_right _ _ (Nat.two_pow_pos k)]
  refine ⟨k, roundHalfEven a b, ?_, units_bounds.2 hhigh, ?_, ?_, ?_⟩
  · exact hlow.imp (fun h => by omega) units_bounds.1
  · rw [hdiv]
    exact div_le_roundHalfEven a b
  · refine Nat.lt_of_mul_lt_mul_right (a := b) ?_
    calc roundHalfEven a b * 2 ^ k * b = roundHalfEven a b * b * 2 ^ k := by ring
      _ < (a + b) * 2 ^ k :=
          Nat.mul_lt_mul_of_pos_right (roundHalfEven_mul_lt hb) (Nat.two_pow_pos k)
      _ = (n * 2 ^ 1074 + 2 ^ k) * b := by rw [Nat.add_mul, Nat.add_mul, hunits, Nat.mul_comm b]
  · have hfield : ((k : Int) - 1074 + 1074).toNat = k := by omega
    rw [hmagnitude, hfield]
    split
    · refine (min_eq_left ?_).symm
      have hlarge : 2174 * hiddenBit ≤ k * hiddenBit := Nat.mul_le_mul_right _ (by omega)
      have hroom : infinityWord ≤ 2174 * hiddenBit := by decide
      omega
    · rfl

/-! ### Order of rounded values -/

theorem units_le_units_iff (x y : Binary64) : x.units ≤ y.units ↔ x.rank ≤ y.rank := by
  rw [← Int.not_lt, ← Int.not_lt, units_lt_units_iff]

theorem units_of_magnitude_eq_zero (h : x.magnitude = 0) : x.units = 0 := by
  have hzero : wordSize 0 = 0 := rfl
  simp [units_eq, h, hzero]

/-- A rounded value is on the same side of every finite double as the value. -/
theorem RoundsTo.rank_between (h : RoundsTo N x.magnitude) (hz : z.isFinite = true) :
    (z.units ≤ x.direction.apply N → z.rank ≤ x.rank) ∧
      (x.direction.apply N ≤ z.units → x.rank ≤ z.rank) := by
  obtain ⟨hlow, hhigh⟩ := h.between (w := z.magnitude)
  have hlow := hlow (isFinite_iff.1 hz).le
  have hnone : wordSize z.magnitude = 0 → z.magnitude = 0 := (wordSize_inj (n := 0)).1
  rw [units_eq, rank, rank, direction]
  generalize wordSize z.magnitude = size at *
  cases x.signBit <;> cases z.signBit <;>
    simp only [Sign.apply, if_true, if_false, Bool.false_eq_true] <;> omega

theorem direction_round (s : Sign) (hm : 0 < m) (he : -1074 ≤ e) :
    (ofUnpacked (UnpackedFloat.round Format.binary64 s m e)).direction = s := by
  obtain ⟨m', e', h, hround, -, -⟩ := round_eq s hm he
  rw [hround, direction_ofUnpacked_finite]

theorem rank_normalize_between {n : Int} (he : -1074 ≤ e) (hz : z.isFinite = true) :
    (z.units ≤ n * 2 ^ (e + 1074).toNat →
      z.rank ≤ (ofUnpacked (UnpackedFloat.normalize Format.binary64 n e .positive)).rank) ∧
    (n * 2 ^ (e + 1074).toNat ≤ z.units →
      (ofUnpacked (UnpackedFloat.normalize Format.binary64 n e .positive)).rank ≤ z.rank) := by
  rcases Int.lt_trichotomy n 0 with hn | rfl | hn
  · have hbetween := (roundsTo_round .negative (m := (-n).toNat) (by omega) he).rank_between hz
    have hvalue : Sign.negative.apply ((-n).toNat * 2 ^ (e + 1074).toNat : Nat) =
        n * 2 ^ (e + 1074).toNat := by
      rw [Sign.apply, Nat.cast_mul, Int.toNat_of_nonneg (by omega), Nat.cast_pow, Nat.cast_two,
        Int.neg_mul, Int.neg_neg]
    rw [direction_round _ (by omega) he, hvalue] at hbetween
    rwa [UnpackedFloat.normalize, Int.compare_eq_lt.2 hn]
  · have hzero : (ofUnpacked (.zero .positive)).rank = 0 := by decide +kernel
    have hunits : z.units ≤ zero.units ↔ z.rank ≤ zero.rank := units_le_units_iff z zero
    have hunits' : zero.units ≤ z.units ↔ zero.rank ≤ z.rank := units_le_units_iff zero z
    rw [Int.zero_mul]
    change (_ → _ ≤ (ofUnpacked (.zero .positive)).rank) ∧ _
    rw [hzero]
    exact ⟨hunits.1, hunits'.1⟩
  · have hbetween := (roundsTo_round .positive (m := n.toNat) (by omega) he).rank_between hz
    have hvalue : Sign.positive.apply (n.toNat * 2 ^ (e + 1074).toNat : Nat) =
        n * 2 ^ (e + 1074).toNat := by
      rw [Sign.apply, Nat.cast_mul, Int.toNat_of_nonneg hn.le, Nat.cast_pow, Nat.cast_two]
    rw [direction_round _ (by omega) he, hvalue] at hbetween
    rwa [UnpackedFloat.normalize, Int.compare_eq_gt.2 hn]

/-- A sum is on the same side of every finite double as the exact one. -/
theorem rank_add_between (hx : x.isFinite = true) (hy : y.isFinite = true)
    (hz : z.isFinite = true) :
    (z.units ≤ x.units + y.units → z.rank ≤ (x + y).rank) ∧
      (x.units + y.units ≤ z.units → (x + y).rank ≤ z.rank) := by
  have hself (w : Binary64) : (z.units ≤ w.units → z.rank ≤ w.rank) ∧
      (w.units ≤ z.units → w.rank ≤ z.rank) :=
    ⟨(units_le_units_iff z w).1, (units_le_units_iff w z).1⟩
  rw [add_eq, unpacked_of_isFinite hx, unpacked_of_isFinite hy]
  split <;> split
  · rename_i hx0 hy0
    have hsum : (ofUnpacked (UnpackedFloat.add Format.binary64 (.zero x.direction)
        (.zero y.direction))).magnitude = 0 := by
      simp only [UnpackedFloat.add]
      split <;> simp [ofUnpacked_zero]
    rw [units_of_magnitude_eq_zero hx0, units_of_magnitude_eq_zero hy0, Int.add_zero,
      ← units_of_magnitude_eq_zero hsum]
    exact hself _
  · rename_i hx0 hy0
    have hsum : UnpackedFloat.add Format.binary64 (.zero x.direction)
        (.finite y.direction y.significand y.exponent (significand_pos hy0)) = y.unpacked := by
      rw [unpacked_of_isFinite hy, dif_neg hy0]
      rfl
    rw [hsum, ofUnpacked_unpacked (isNaN_eq_false_of_isFinite hy), units_of_magnitude_eq_zero hx0,
      Int.zero_add]
    exact hself y
  · rename_i hx0 hy0
    have hsum : UnpackedFloat.add Format.binary64
        (.finite x.direction x.significand x.exponent (significand_pos hx0))
        (.zero y.direction) = x.unpacked := by
      rw [unpacked_of_isFinite hx, dif_neg hx0]
      rfl
    rw [hsum, ofUnpacked_unpacked (isNaN_eq_false_of_isFinite hx), units_of_magnitude_eq_zero hy0,
      Int.add_zero]
    exact hself x
  · have hle : -1074 ≤ min x.exponent y.exponent := le_min (exponent_ge x) (exponent_ge y)
    rw [decreaseExponent_units (x := x) hle (min_le_left _ _),
      decreaseExponent_units (x := y) hle (min_le_right _ _), ← Int.add_mul]
    exact rank_normalize_between hle hz

/-- An infinite number takes any finite one in. -/
theorem add_of_isInfinite (hx : x.isFinite = true) (hy : y.isInfinite = true) : x + y = y := by
  have hsum : UnpackedFloat.add Format.binary64 x.unpacked y.unpacked = y.unpacked := by
    rw [unpacked_of_isFinite hx, unpacked_of_isInfinite hy]
    split <;> rfl
  rw [add_eq, hsum, ofUnpacked_unpacked]
  rw [isInfinite_iff] at hy
  rw [← Bool.not_eq_true, isNaN_iff]
  omega

theorem isNaN_add_of_isNaN (hy : y.isNaN = true) : (x + y).isNaN = true := by
  rw [add_eq, isNaN_ofUnpacked, unpacked_eq y, if_pos hy]
  cases x.unpacked <;> rfl

theorem isNaN_add_of_finite (hx : x.isFinite = true) (hy : y.isNaN = false) :
    (x + y).isNaN = false := by
  rcases isInfinite_or_isFinite hy with hyi | hyf
  · rwa [add_of_isInfinite hx hyi]
  · exact isNaN_add (isNaN_eq_false_of_isFinite hx) hyf

/-- An infinite number lies beyond the finite ones, on its side of zero. -/
theorem rank_le_of_isInfinite (hx : x.isFinite = true) (hy : y.isInfinite = true) :
    (0 ≤ y.rank → x.rank ≤ y.rank) ∧ (y.rank ≤ 0 → y.rank ≤ x.rank) := by
  have hinfinite := rank_of_isInfinite hy
  have hlt := rank_lt_of_isFinite hx
  cases hd : y.direction <;> simp only [hd, Sign.apply] at hinfinite <;> omega

/-- Adding nothing negative does not lessen a number. -/
theorem le_add (hx : x.isFinite = true) (hy : zero.le y = true) : x.le (x + y) = true := by
  obtain ⟨-, hynan, hrank⟩ := le_iff.1 hy
  refine le_iff.2 ⟨isNaN_eq_false_of_isFinite hx, isNaN_add_of_finite hx hynan, ?_⟩
  rcases isInfinite_or_isFinite hynan with hyi | hyf
  · rw [add_of_isInfinite hx hyi]
    exact (rank_le_of_isInfinite hx hyi).1 hrank
  · have hunits := (units_le_units_iff zero y).2 hrank
    have hzero : zero.units = 0 := rfl
    exact (rank_add_between hx hyf hx).1 (by omega)

theorem add_le (hx : x.isFinite = true) (hy : y.le zero = true) : (x + y).le x = true := by
  obtain ⟨hynan, -, hrank⟩ := le_iff.1 hy
  refine le_iff.2 ⟨isNaN_add_of_finite hx hynan, isNaN_eq_false_of_isFinite hx, ?_⟩
  rcases isInfinite_or_isFinite hynan with hyi | hyf
  · rw [add_of_isInfinite hx hyi]
    exact (rank_le_of_isInfinite hx hyi).2 hrank
  · have hunits := (units_le_units_iff y zero).2 hrank
    have hzero : zero.units = 0 := rfl
    exact (rank_add_between hx hyf hx).2 (by omega)

/-! ### Whole numbers as doubles -/

theorem magnitude_ofInt (n : Int) : (ofInt n).magnitude = ratioMagnitude n.natAbs 1 :=
  magnitude_ofMagnitude ((ratioMagnitude_le n.natAbs 1).trans_lt (by decide))

theorem direction_ofInt (n : Int) :
    (ofInt n).direction = if n < 0 then .negative else .positive := by
  have hsign : (ofInt n).signBit = decide (n < 0) :=
    signBit_ofMagnitude ((ratioMagnitude_le n.natAbs 1).trans_lt (by decide))
  simp [direction, hsign]

theorem isNaN_ofInt (n : Int) : (ofInt n).isNaN = false := by
  have hle := ratioMagnitude_le n.natAbs 1
  rw [← Bool.not_eq_true, isNaN_iff, magnitude_ofInt]
  omega

theorem rank_mem_of_isNaN (h : x.isNaN = false) :
    -(infinityWord : Int) ≤ x.rank ∧ x.rank ≤ infinityWord := by
  rw [← Bool.not_eq_true, isNaN_iff] at h
  unfold rank
  split <;> omega

/-- A whole number as a double is on the same side of every finite double. -/
theorem rank_ofInt_between (n : Int) (hz : z.isFinite = true) :
    (z.units ≤ n * (1 <<< 1074 : Nat) → z.rank ≤ (ofInt n).rank) ∧
      (n * (1 <<< 1074 : Nat) ≤ z.units → (ofInt n).rank ≤ z.rank) := by
  have hunit (k : Nat) : (1 <<< k : Nat) = 2 ^ k := Nat.one_shiftLeft k
  have hround := roundsTo_ratioMagnitude n.natAbs
  rw [← magnitude_ofInt, ← hunit] at hround
  have hvalue (unit : Nat) : (ofInt n).direction.apply (n.natAbs * unit : Nat) = n * unit := by
    rw [direction_ofInt, Nat.cast_mul]
    split <;> rename_i hn
    · rw [Sign.apply, ← Int.neg_mul, Int.ofNat_natAbs_of_nonpos hn.le, Int.neg_neg]
    · rw [Sign.apply, Int.natAbs_of_nonneg (Int.not_lt.1 hn)]
  exact hvalue (1 <<< 1074) ▸ hround.rank_between hz

end Gantry.Binary64

/-! ### Numbers -/

namespace Gantry.Number

open Binary64 (zero units_lt_units_iff)

variable {a b d : Number} {x y : Binary64}

theorem place?_of_isInfinite (h : x.isInfinite = true) :
    (Number.real x).place? = some (if x.signBit then .bottom else .top) := by
  have hnan : x.isNaN = false := by
    rw [Binary64.isInfinite_iff] at h
    rw [← Bool.not_eq_true, Binary64.isNaN_iff]
    omega
  simp [place?, hnan, h]

theorem place?_of_isFinite (h : x.isFinite = true) :
    (Number.real x).place? = some (.at x.units) := by
  simp [place?, Binary64.isNaN_eq_false_of_isFinite h, Binary64.isInfinite_eq_false_of_isFinite h]

theorem lt_real (x y : Binary64) : (Number.real x).lt (.real y) = x.lt y := by
  rw [Bool.eq_iff_iff, lt_iff, Binary64.lt_iff]
  cases hx : x.isNaN with
  | true => simp [(place?_eq_none_iff (.real x)).2 hx]
  | false =>
    cases hy : y.isNaN with
    | true => simp [(place?_eq_none_iff (.real y)).2 hy]
    | false =>
      have hword : (0 : Int) < Binary64.infinityWord := by decide
      have hrank {z : Binary64} (hz : z.isInfinite = true) :
          z.rank = if z.signBit then -(Binary64.infinityWord : Int) else Binary64.infinityWord := by
        rw [Binary64.rank, Binary64.isInfinite_iff.1 hz]
      rcases Binary64.isInfinite_or_isFinite hx with hxi | hxf <;>
        rcases Binary64.isInfinite_or_isFinite hy with hyi | hyf
      · rw [place?_of_isInfinite hxi, place?_of_isInfinite hyi, hrank hxi, hrank hyi]
        cases x.signBit <;> cases y.signBit <;> simp [Place.lt]
        omega
      · have hlt := Binary64.rank_lt_of_isFinite hyf
        rw [place?_of_isInfinite hxi, place?_of_isFinite hyf, hrank hxi]
        cases x.signBit <;> simp [Place.lt] <;> omega
      · have hlt := Binary64.rank_lt_of_isFinite hxf
        rw [place?_of_isFinite hxf, place?_of_isInfinite hyi, hrank hyi]
        cases y.signBit <;> simp [Place.lt] <;> omega
      · simp [place?_of_isFinite hxf, place?_of_isFinite hyf, Place.lt, units_lt_units_iff]

theorem le_real (x y : Binary64) : (Number.real x).le (.real y) = x.le y := by
  rw [le, lt_real, same, Bool.eq_iff_iff]
  simp only [Binary64.lt, Binary64.eqv, Binary64.le]
  cases x.isNaN <;> cases y.isNaN <;> simp
  omega

/-- The double zero stands where the whole one does. -/
theorem place?_zero : (Number.real zero).place? = (Number.int 0).place? := by decide +kernel

theorem lt_zero (x : Binary64) : (Number.real x).lt (.int 0) = x.lt zero := by
  rw [← lt_real, Bool.eq_iff_iff, lt_iff, lt_iff, place?_zero]

theorem zero_lt (x : Binary64) : (Number.int 0).lt (.real x) = zero.lt x := by
  rw [← lt_real, Bool.eq_iff_iff, lt_iff, lt_iff, place?_zero]

theorem le_ofInt {n : Int} (h : (Number.real x).le (.int n) = true) :
    x.le (Binary64.ofInt n) = true := by
  have hwhole := Binary64.isNaN_ofInt n
  obtain ⟨p, q, hp, hq, hpq⟩ := (le_iff _ _).1 h
  obtain rfl := Option.some.inj hq
  have hx : x.isNaN = false := by
    rw [← Bool.not_eq_true]
    intro hnan
    simp [place?, hnan] at hp
  refine Binary64.le_iff.2 ⟨hx, hwhole, ?_⟩
  rcases Binary64.isInfinite_or_isFinite hx with hxi | hxf
  · have hbound := Binary64.rank_mem_of_isNaN hwhole
    rw [place?_of_isInfinite hxi] at hp
    obtain rfl := Option.some.inj hp
    rw [Binary64.rank, Binary64.isInfinite_iff.1 hxi]
    cases hs : x.signBit <;> simp [hs, Place.lt] at hpq ⊢
    omega
  · rw [place?_of_isFinite hxf] at hp
    obtain rfl := Option.some.inj hp
    refine (Binary64.rank_ofInt_between n hxf).1 ?_
    simp only [Place.lt, decide_eq_true_eq, Place.at.injEq] at hpq
    omega

theorem ofInt_le {n : Int} (h : (Number.int n).le (.real x) = true) :
    (Binary64.ofInt n).le x = true := by
  have hwhole := Binary64.isNaN_ofInt n
  obtain ⟨p, q, hp, hq, hpq⟩ := (le_iff _ _).1 h
  obtain rfl := Option.some.inj hp
  have hx : x.isNaN = false := isNaN_of_le h
  refine Binary64.le_iff.2 ⟨hwhole, hx, ?_⟩
  rcases Binary64.isInfinite_or_isFinite hx with hxi | hxf
  · have hbound := Binary64.rank_mem_of_isNaN hwhole
    rw [place?_of_isInfinite hxi] at hq
    obtain rfl := Option.some.inj hq
    rw [Binary64.rank.eq_1 x, Binary64.isInfinite_iff.1 hxi]
    cases hs : x.signBit <;> simp [hs, Place.lt] at hpq ⊢
    omega
  · rw [place?_of_isFinite hxf] at hq
    obtain rfl := Option.some.inj hq
    refine (Binary64.rank_ofInt_between n hxf).2 ?_
    simp only [Place.lt, decide_eq_true_eq, Place.at.injEq] at hpq
    omega

/-- Doubles of numbers are in the order of the numbers, if one of them is a
double itself. -/
theorem le_toBinary64? (h : a.le b = true) (hx : a.toBinary64? = some x)
    (hy : b.toBinary64? = some y) (hreal : a = .real x ∨ b = .real y) : x.le y = true := by
  have hwhole {n : Int} {z : Binary64} (hz : (Number.int n).toBinary64? = some z) :
      z = Binary64.ofInt n := (Option.some.inj (Option.ite_none_right_eq_some.1 hz).2).symm
  cases a with
  | real x' =>
    obtain rfl := Option.some.inj hx
    cases b with
    | real y' =>
      obtain rfl := Option.some.inj hy
      rwa [le_real] at h
    | int n => exact hwhole hy ▸ le_ofInt h
  | int m =>
    cases b with
    | real y' =>
      obtain rfl := Option.some.inj hy
      exact hwhole hx ▸ ofInt_le h
    | int n => simp at hreal

/-- A number that is the same as a double has that double's rank. -/
theorem rank_toBinary64?_of_same (h : a.same (.real x) = true) (hy : a.toBinary64? = some y) :
    y.rank = x.rank := by
  have hle := le_toBinary64? (b := .real x) (same_le h) hy rfl (.inr rfl)
  have hge := le_toBinary64? (a := .real x) (same_le (same_symm h)) rfl hy (.inl rfl)
  exact Int.le_antisymm (Binary64.le_iff.1 hle).2.2 (Binary64.le_iff.1 hge).2.2

end Gantry.Number
