import Gantry.Proofs.Number.Word
import Gantry.Decimal.Shortest
import Mathlib.Algebra.Order.Field.Power
import Mathlib.Data.Rat.Cast.Order
import Mathlib.Tactic.Linarith
import Mathlib.Tactic.Positivity
import Mathlib.Tactic.Ring

/-!
The numbers that are rounded to a double. They form an interval around it,
which reaches half a step to each side, and a quarter of one below a power of
two; that a number lies in the interval is all that is needed to know how it
is rounded, whatever ratio or decimal it is given as.
-/

namespace Gantry

/-- What lies within half a step of a natural number, or just half a step from an even one, is
rounded to it. -/
theorem roundHalfEven_eq {n d r : Nat} (hd : 0 < d) (hlow : 2 * (d * r) ≤ 2 * n + d)
    (hhigh : 2 * n ≤ 2 * (d * r) + d)
    (htie : r % 2 = 1 → 2 * (d * r) ≠ 2 * n + d ∧ 2 * n ≠ 2 * (d * r) + d) :
    roundHalfEven n d = r := by
  have hsplit := Nat.div_add_mod n d
  have hrest := Nat.mod_lt n hd
  have hfloor : n / d ≤ r := by
    have : d * (n / d) < d * (r + 1) := by rw [Nat.mul_succ]; omega
    exact Nat.lt_succ_iff.1 (Nat.lt_of_mul_lt_mul_left this)
  have hceil : r ≤ n / d + 1 := by
    have : d * r < d * (n / d + 2) := by rw [Nat.mul_add]; omega
    exact Nat.lt_succ_iff.1 (Nat.lt_of_mul_lt_mul_left this)
  unfold roundHalfEven
  dsimp only
  obtain rfl | rfl : r = n / d ∨ r = n / d + 1 := by omega
  · split
    · rfl
    · split
      · omega
      · split <;> omega
  · rw [Nat.mul_succ] at *
    split
    · omega
    · split
      · rfl
      · split <;> omega

namespace Binary64

/-! ### Ratios -/

variable {n d : Nat} {x : Binary64}

theorem two_pow_log2_le (h : 0 < n) : (2 : ℚ) ^ (n.log2 : Int) ≤ n := by
  exact_mod_cast Nat.log2_self_le h.ne'

theorem lt_two_pow_log2 (n : Nat) : (n : ℚ) < 2 ^ ((n.log2 : Int) + 1) := by
  exact_mod_cast (Nat.lt_log2_self (n := n))

theorem scaleRatio_eq (hd : 0 < d) (e : Int) : 0 < (scaleRatio n d e).2 ∧
    ((scaleRatio n d e).1 : ℚ) / (scaleRatio n d e).2 = n / d / 2 ^ e := by
  unfold scaleRatio
  split
  · rename_i he
    obtain ⟨k, rfl⟩ := Int.eq_ofNat_of_zero_le he
    refine ⟨by simpa [Nat.shiftLeft_eq] using hd, ?_⟩
    simp [Nat.shiftLeft_eq, div_div]
  · rename_i he
    obtain ⟨k, rfl⟩ : ∃ k : Nat, e = -k := ⟨(-e).toNat, by omega⟩
    refine ⟨hd, ?_⟩
    simp [Nat.shiftLeft_eq, div_eq_mul_inv, mul_right_comm]

theorem ratio_bounds (hn : 0 < n) (hd : 0 < d) :
    (2 : ℚ) ^ ((n.log2 : Int) - d.log2 - 1) < n / d ∧
      (n / d : ℚ) < 2 ^ ((n.log2 : Int) - d.log2 + 1) := by
  have hpos : (0 : ℚ) < d := Nat.cast_pos.2 hd
  have hpow (a b : Int) : (2 : ℚ) ^ (a + b) = 2 ^ a * 2 ^ b := zpow_add₀ two_ne_zero a b
  rw [lt_div_iff₀ hpos, div_lt_iff₀ hpos]
  constructor
  · calc (2 : ℚ) ^ ((n.log2 : Int) - d.log2 - 1) * d
        < 2 ^ ((n.log2 : Int) - d.log2 - 1) * 2 ^ ((d.log2 : Int) + 1) := by
          gcongr
          exact lt_two_pow_log2 d
      _ = 2 ^ (n.log2 : Int) := by rw [← hpow]; congr 1; omega
      _ ≤ n := two_pow_log2_le hn
  · calc (n : ℚ) < 2 ^ ((n.log2 : Int) + 1) := lt_two_pow_log2 n
      _ = 2 ^ ((n.log2 : Int) - d.log2 + 1) * 2 ^ (d.log2 : Int) := by
          rw [← hpow]; congr 1; omega
      _ ≤ 2 ^ ((n.log2 : Int) - d.log2 + 1) * d := by
          gcongr
          exact two_pow_log2_le hd

/-- The exponent at which a ratio has 53 bits, or the least one if it has fewer there. -/
theorem ratioExponent_spec (hn : 0 < n) (hd : 0 < d) :
    -1074 ≤ ratioExponent n d ∧ (n / d : ℚ) < 2 ^ (ratioExponent n d + 53) ∧
      (ratioExponent n d = -1074 ∨ (2 : ℚ) ^ (ratioExponent n d + 52) ≤ n / d) := by
  set guess : Int := (n.log2 : Int) - d.log2 - 53 with hguess
  obtain ⟨hlow, hhigh⟩ := ratio_bounds hn hd
  obtain ⟨hb, hscale⟩ := scaleRatio_eq (n := n) hd guess
  -- Whether the guess is one too small is asked of the whole part of the scaled ratio.
  have hask : 2 * hiddenBit ≤ (scaleRatio n d guess).1 / (scaleRatio n d guess).2 ↔
      (2 : ℚ) ^ (guess + 53) ≤ n / d := by
    rw [Nat.le_div_iff_mul_le hb, ← Nat.cast_le (α := ℚ), Nat.cast_mul,
      ← le_div_iff₀ (Nat.cast_pos.2 hb), hscale, le_div_iff₀ (by positivity),
      zpow_add₀ two_ne_zero, mul_comm]
    norm_num [hiddenBit]
  set fitted : Int := if 2 * hiddenBit ≤ (scaleRatio n d guess).1 / (scaleRatio n d guess).2
    then guess + 1 else guess with hfitted
  have hfit : (2 : ℚ) ^ (fitted + 52) ≤ n / d ∧ (n / d : ℚ) < 2 ^ (fitted + 53) := by
    rw [hfitted]
    split
    · rename_i hlarge
      rw [hask] at hlarge
      rw [show guess + 1 + 52 = guess + 53 by omega,
        show guess + 1 + 53 = (n.log2 : Int) - d.log2 + 1 by omega]
      exact ⟨hlarge, hhigh⟩
    · rename_i hsmall
      rw [hask, not_le] at hsmall
      rw [show guess + 52 = (n.log2 : Int) - d.log2 - 1 by omega]
      exact ⟨hlow.le, hsmall⟩
  have he : ratioExponent n d = if fitted < -1074 then -1074 else fitted := rfl
  rw [he]
  split
  · rename_i hleast
    refine ⟨le_rfl, hfit.2.trans ?_, .inl rfl⟩
    exact zpow_lt_zpow_right₀ one_lt_two (by omega)
  · rename_i hin
    exact ⟨by omega, hfit.2, .inr hfit.1⟩

/-! ### Whole numbers in the range -/

theorem roundHalfEven_le (a b : Nat) : roundHalfEven a b ≤ a / b + 1 := by
  unfold roundHalfEven
  dsimp only
  split
  · exact Nat.le_succ _
  · split
    · exact Nat.le_refl _
    · split
      · exact Nat.le_succ _
      · exact Nat.le_refl _

/-- Whole numbers of 64 bits are far within the range. -/
theorem ratioMagnitude_lt {n : Nat} (hn : n < 2 ^ 64) : ratioMagnitude n 1 < infinityWord := by
  rcases Nat.eq_zero_or_pos n with rfl | hpos
  · decide
  · obtain ⟨-, hhigh, hlow⟩ := ratioExponent_spec hpos Nat.one_pos
    obtain ⟨hb, hscale⟩ := scaleRatio_eq (n := n) Nat.one_pos (ratioExponent n 1)
    have hexponent : ratioExponent n 1 < 12 := by
      rcases hlow with hleast | hlow
      · omega
      · have hlt : (2 : ℚ) ^ (ratioExponent n 1 + 52) < 2 ^ (64 : Int) :=
          hlow.trans_lt (by simpa using (by exact_mod_cast hn : (n : ℚ) < 2 ^ (64 : Int)))
        have := (zpow_lt_zpow_iff_right₀ one_lt_two).1 hlt
        omega
    have hquotient : (scaleRatio n 1 (ratioExponent n 1)).1 /
        (scaleRatio n 1 (ratioExponent n 1)).2 < 2 * hiddenBit := by
      rw [Nat.div_lt_iff_lt_mul hb, ← Nat.cast_lt (α := ℚ), Nat.cast_mul,
        ← div_lt_iff₀ (Nat.cast_pos.2 hb), hscale, div_lt_iff₀ (by positivity)]
      refine hhigh.trans_le (le_of_eq ?_)
      rw [add_comm, zpow_add₀ two_ne_zero]
      norm_num [hiddenBit]
    have hrounded := roundHalfEven_le (scaleRatio n 1 (ratioExponent n 1)).1
      (scaleRatio n 1 (ratioExponent n 1)).2
    rw [ratioMagnitude, if_neg hpos.ne']
    dsimp only
    rw [if_neg (by omega)]
    refine (Nat.min_le_right _ _).trans_lt ?_
    have hfield : (ratioExponent n 1 + 1074).toNat * hiddenBit ≤ 1086 * hiddenBit :=
      Nat.mul_le_mul_right _ (by omega)
    have hroom : 1089 * hiddenBit < infinityWord := by decide
    omega

theorem isFinite_ofInt {n : Int} (hn : n.natAbs < 2 ^ 64) : (ofInt n).isFinite = true := by
  have hlt := ratioMagnitude_lt hn
  rw [isFinite_iff, ofInt, ofRatio, magnitude_ofMagnitude (hlt.trans (by decide))]
  exact hlt

/-! ### The interval of a double -/

/-- Ends of the interval of the numbers that are rounded to a double. -/
def lowerEnd (x : Binary64) : ℚ := (Decimal.interval x).1 * 2 ^ (x.exponent - 2)
def upperEnd (x : Binary64) : ℚ := (Decimal.interval x).2.2 * 2 ^ (x.exponent - 2)

/-- Whether a positive number is rounded to a double: it lies in its interval, and is one of the
ends only if the significand is even. -/
structure Attracts (x : Binary64) (v : ℚ) : Prop where
  lower_le : x.lowerEnd ≤ v
  le_upper : v ≤ x.upperEnd
  odd : x.significand % 2 = 1 → x.lowerEnd < v ∧ v < x.upperEnd

theorem upperEnd_eq (x : Binary64) : x.upperEnd = (x.significand + 1 / 2) * 2 ^ x.exponent := by
  rw [upperEnd, Decimal.interval, zpow_sub₀ two_ne_zero]
  push_cast
  ring

/-- Below a power of two the steps are half as long. -/
theorem lowerEnd_eq (x : Binary64) (h : 0 < x.significand) : x.lowerEnd =
    (x.significand - if x.significand = hiddenBit ∧ -1074 < x.exponent then 1 / 4 else 1 / 2) *
      2 ^ x.exponent := by
  rw [lowerEnd, Decimal.interval, zpow_sub₀ two_ne_zero]
  dsimp only
  split
  · rw [Nat.cast_sub (by omega)]
    push_cast
    ring
  · rw [Nat.cast_sub (by omega)]
    push_cast
    ring

theorem le_lowerEnd (h : 0 < x.significand) :
    (x.significand - 1 / 2) * 2 ^ x.exponent ≤ x.lowerEnd := by
  rw [lowerEnd_eq x h]
  gcongr
  split <;> norm_num

theorem lowerEnd_pos (h : 0 < x.significand) : 0 < x.lowerEnd := by
  have hone : (1 : ℚ) ≤ x.significand := Nat.one_le_cast.2 h
  refine lt_of_lt_of_le ?_ (le_lowerEnd h)
  have : (0 : ℚ) < x.significand - 1 / 2 := by linarith
  positivity

theorem roundHalfEven_eq_of_near {a b r : Nat} (hb : 0 < b) (hlow : (r - 1 / 2 : ℚ) ≤ a / b)
    (hhigh : (a / b : ℚ) ≤ r + 1 / 2)
    (htie : r % 2 = 1 → (r - 1 / 2 : ℚ) < a / b ∧ (a / b : ℚ) < r + 1 / 2) :
    roundHalfEven a b = r := by
  have hpos : (0 : ℚ) < b := Nat.cast_pos.2 hb
  rw [le_div_iff₀ hpos] at hlow
  rw [div_le_iff₀ hpos] at hhigh
  rw [lt_div_iff₀ hpos, div_lt_iff₀ hpos] at htie
  refine roundHalfEven_eq hb ?_ ?_ fun hodd => ?_
  · rw [← Nat.cast_le (α := ℚ)]
    push_cast
    linarith
  · rw [← Nat.cast_le (α := ℚ)]
    push_cast
    linarith
  · obtain ⟨hl, hh⟩ := htie hodd
    constructor
    · intro heq
      have : (2 * (b * r) : ℚ) = 2 * a + b := by exact_mod_cast heq
      linarith
    · intro heq
      have : (2 * a : ℚ) = 2 * (b * r) + b := by exact_mod_cast heq
      linarith

/-- A ratio in the interval of a double has its exponent, or the one below if the double is a
power of two. -/
theorem ratioExponent_of_attracts (hn : 0 < n) (hd : 0 < d) (hx : 0 < x.significand)
    (h : x.Attracts (n / d)) :
    ratioExponent n d = x.exponent ∨
      ratioExponent n d = x.exponent - 1 ∧ x.significand = hiddenBit ∧ -1074 < x.exponent ∧
        (n / d : ℚ) < 2 ^ 52 * 2 ^ x.exponent := by
  obtain ⟨hleast, hhigh, hlow⟩ := ratioExponent_spec hn hd
  have hsize : (x.significand : ℚ) + 1 ≤ 2 ^ 53 := by exact_mod_cast significand_lt x
  have hunit : (0 : ℚ) < 2 ^ x.exponent := by positivity
  have hge := exponent_ge x
  have hfull := hiddenBit_le_significand_or x
  have hfrom := (le_lowerEnd hx).trans h.lower_le
  have hupto := h.le_upper
  rw [upperEnd_eq] at hupto
  have hsplit (k : Int) : (2 : ℚ) ^ (x.exponent + k) = 2 ^ k * 2 ^ x.exponent := by
    rw [zpow_add₀ two_ne_zero, mul_comm]
  -- The interval ends below 53 bits at the exponent of the double.
  have hle : ratioExponent n d ≤ x.exponent := by
    by_contra hgt
    have : (2 : ℚ) ^ 53 * 2 ^ x.exponent ≤ n / d := calc
      (2 : ℚ) ^ 53 * 2 ^ x.exponent = 2 ^ (x.exponent + 53) := (hsplit 53).symm
      _ ≤ 2 ^ (ratioExponent n d + 52) := zpow_le_zpow_right₀ one_le_two (by omega)
      _ ≤ n / d := hlow.resolve_left (by omega)
    nlinarith
  by_cases heq : ratioExponent n d = x.exponent
  · exact .inl heq
  have hnormal : (2 : ℚ) ^ 52 ≤ x.significand := by
    exact_mod_cast hfull.resolve_right (by omega)
  -- A normal double has 53 bits, of which half a step takes one at most.
  have hbelow : x.exponent - 1 ≤ ratioExponent n d := by
    by_contra hlt
    have : (n / d : ℚ) < 2 ^ 51 * 2 ^ x.exponent := calc
      (n / d : ℚ) < 2 ^ (ratioExponent n d + 53) := hhigh
      _ ≤ 2 ^ (x.exponent + 51) := zpow_le_zpow_right₀ one_le_two (by omega)
      _ = 2 ^ 51 * 2 ^ x.exponent := hsplit 51
    nlinarith
  have hpred : ratioExponent n d = x.exponent - 1 := by omega
  have hsmall : (n / d : ℚ) < 2 ^ 52 * 2 ^ x.exponent := by
    rw [hpred, show x.exponent - 1 + 53 = x.exponent + 52 by omega, hsplit] at hhigh
    exact hhigh
  refine .inr ⟨hpred, ?_, by omega, hsmall⟩
  have : (x.significand : ℚ) < 2 ^ 52 + 1 := by nlinarith
  have : x.significand < 2 ^ 52 + 1 := by exact_mod_cast this
  have : hiddenBit ≤ x.significand := hfull.resolve_right (by omega)
  simp only [hiddenBit] at *
  omega

theorem roundHalfEven_of_attracts {a b : Nat} {v : ℚ} (hb : 0 < b)
    (hscale : (a / b : ℚ) = v / 2 ^ x.exponent) (hm : 0 < x.significand) (h : x.Attracts v) :
    roundHalfEven a b = x.significand := by
  have hunit : (0 : ℚ) < 2 ^ x.exponent := by positivity
  have hfrom := le_lowerEnd hm
  have hupto := upperEnd_eq x
  refine roundHalfEven_eq_of_near hb ?_ ?_ fun hodd => ?_
  · rw [hscale, le_div_iff₀ hunit]
    exact hfrom.trans h.lower_le
  · rw [hscale, div_le_iff₀ hunit, ← hupto]
    exact h.le_upper
  · rw [hscale, lt_div_iff₀ hunit, div_lt_iff₀ hunit, ← hupto]
    exact ⟨hfrom.trans_lt (h.odd hodd).1, (h.odd hodd).2⟩

/-- Just below a power of two the significand is rounded up to its double. -/
theorem roundHalfEven_below_power {a b : Nat} {v : ℚ} (hb : 0 < b)
    (hscale : (a / b : ℚ) = v / 2 ^ (x.exponent - 1)) (hpower : x.significand = hiddenBit)
    (hnormal : -1074 < x.exponent) (h : x.Attracts v) (hlt : v < 2 ^ 52 * 2 ^ x.exponent) :
    roundHalfEven a b = 2 * hiddenBit := by
  have hunit : (0 : ℚ) < 2 ^ x.exponent / 2 := by positivity
  have hfrom := h.lower_le
  have hhidden : (hiddenBit : ℚ) = 2 ^ 52 := by norm_num [hiddenBit]
  rw [lowerEnd_eq x (hpower ▸ by decide), if_pos ⟨hpower, hnormal⟩, hpower, hhidden] at hfrom
  rw [zpow_sub_one₀ two_ne_zero, ← div_eq_mul_inv] at hscale
  refine roundHalfEven_eq_of_near hb ?_ ?_ (by simp)
  · rw [hscale, le_div_iff₀ hunit, Nat.cast_mul, hhidden]
    push_cast
    linarith
  · rw [hscale, div_le_iff₀ hunit, Nat.cast_mul, hhidden]
    push_cast
    linarith

/-- Every ratio in the interval of a double is rounded to it. -/
theorem ratioMagnitude_eq (hx : x.isFinite = true) (hn : 0 < n) (hd : 0 < d)
    (hm : 0 < x.significand) (h : x.Attracts (n / d)) : ratioMagnitude n d = x.magnitude := by
  obtain ⟨hb, hscale⟩ := scaleRatio_eq (n := n) hd (ratioExponent n d)
  have hlimit := exponent_lt_of_isFinite hx
  have hexponent : ratioExponent n d ≤ x.exponent := by
    obtain heq | ⟨hpred, -⟩ := ratioExponent_of_attracts hn hd hm h <;> omega
  have hword : (ratioExponent n d + 1074).toNat * hiddenBit +
      roundHalfEven (scaleRatio n d (ratioExponent n d)).1 (scaleRatio n d (ratioExponent n d)).2 =
        x.magnitude := by
    rw [magnitude_eq_fields x]
    obtain heq | ⟨hpred, hpower, hnormal, hlt⟩ := ratioExponent_of_attracts hn hd hm h
    · rw [heq] at hb hscale ⊢
      rw [roundHalfEven_of_attracts hb hscale hm h]
    · -- The significand is rounded up into the exponent field, which the word allows for.
      rw [hpred] at hb hscale ⊢
      rw [roundHalfEven_below_power hb hscale hpower hnormal h hlt, hpower,
        show (x.exponent + 1074).toNat = (x.exponent - 1 + 1074).toNat + 1 by omega,
        Nat.add_one_mul (x.exponent - 1 + 1074).toNat]
      omega
  rw [ratioMagnitude, if_neg hn.ne']
  dsimp only
  rw [if_neg (by omega), hword]
  exact Nat.min_eq_right (isFinite_iff.1 hx).le

theorem ofRatio_eq (hx : x.isFinite = true) (hs : x.signBit = false) (hn : 0 < n) (hd : 0 < d)
    (hm : 0 < x.significand) (h : x.Attracts (n / d)) : ofRatio false n d = x := by
  have hword := ratioMagnitude_eq hx hn hd hm h
  rw [ofRatio, hword]
  exact eq_of_signBit_of_magnitude ((signBit_ofMagnitude (magnitude_lt x)).trans hs.symm)
    (magnitude_ofMagnitude (magnitude_lt x))

/-! ### Decimals -/

theorem two_pow_le_ten_pow (k : Nat) : (2 : ℚ) ^ (3 * (k : Int)) ≤ 10 ^ (k : Int) := by
  rw [zpow_mul, zpow_natCast, zpow_natCast]
  exact pow_le_pow_left₀ (by positivity) (by norm_num) k

theorem upperEnd_lt (hx : x.isFinite = true) : x.upperEnd < 10 ^ (400 : Int) := by
  have hsize : (x.significand : ℚ) + 1 ≤ 2 ^ (53 : Int) := by exact_mod_cast significand_lt x
  have hexponent := exponent_lt_of_isFinite hx
  calc x.upperEnd = (x.significand + 1 / 2) * 2 ^ x.exponent := upperEnd_eq x
    _ < 2 ^ (53 : Int) * 2 ^ x.exponent := by
      gcongr
      linarith
    _ = 2 ^ (53 + x.exponent) := (zpow_add₀ two_ne_zero _ _).symm
    _ ≤ 2 ^ (3 * ((400 : Nat) : Int)) := zpow_le_zpow_right₀ one_le_two (by omega)
    _ ≤ 10 ^ (400 : Int) := two_pow_le_ten_pow 400

theorem lt_lowerEnd (hm : 0 < x.significand) : (10 : ℚ) ^ (-400 : Int) < x.lowerEnd := by
  have hone : (1 : ℚ) ≤ x.significand := Nat.one_le_cast.2 hm
  have hge := exponent_ge x
  calc (10 : ℚ) ^ (-400 : Int) = (10 ^ ((400 : Nat) : Int))⁻¹ := zpow_neg _ _
    _ ≤ (2 ^ (3 * ((400 : Nat) : Int)))⁻¹ := by
      gcongr
      exact two_pow_le_ten_pow 400
    _ = 2 ^ (-1200 : Int) := (zpow_neg _ _).symm
    _ < 2 ^ (-1 + x.exponent) := zpow_lt_zpow_right₀ one_lt_two (by omega)
    _ = 1 / 2 * 2 ^ x.exponent := by rw [zpow_add₀ two_ne_zero]; norm_num
    _ ≤ (x.significand - 1 / 2) * 2 ^ x.exponent := by
      gcongr
      linarith
    _ ≤ x.lowerEnd := le_lowerEnd hm

theorem lt_ten_pow_log2 (m : Nat) : (m : ℚ) < 10 ^ ((m.log2 : Int) / 3 + 1) := by
  have hcast : (m.log2 : Int) / 3 + 1 = ((m.log2 / 3 + 1 : Nat) : Int) := by omega
  calc (m : ℚ) < 2 ^ ((m.log2 : Int) + 1) := lt_two_pow_log2 m
    _ ≤ 2 ^ (3 * ((m.log2 / 3 + 1 : Nat) : Int)) := zpow_le_zpow_right₀ one_le_two (by omega)
    _ ≤ 10 ^ ((m.log2 : Int) / 3 + 1) := hcast ▸ two_pow_le_ten_pow _

/-- Decimals beyond the range are settled early; none of them is near a finite double. -/
theorem ofDecimal_eq {m : Nat} {e : Int} (hx : x.isFinite = true) (hm : 0 < x.significand)
    (hs : x.signBit = false) (h : x.Attracts (m * 10 ^ e)) : ofDecimal false m e = x := by
  have hpos : (0 : ℚ) < m * 10 ^ e := (lowerEnd_pos hm).trans_le h.lower_le
  have hdigits : 0 < m := by
    rw [Nat.pos_iff_ne_zero]
    rintro rfl
    simp at hpos
  have hhigh : ¬400 < e := by
    intro he
    have : (10 : ℚ) ^ (400 : Int) ≤ m * 10 ^ e := calc
      (10 : ℚ) ^ (400 : Int) ≤ 10 ^ e := zpow_le_zpow_right₀ (by norm_num) he.le
      _ ≤ m * 10 ^ e := le_mul_of_one_le_left (by positivity) (Nat.one_le_cast.2 hdigits)
    exact absurd (this.trans h.le_upper) (upperEnd_lt hx).not_ge
  have hlow : ¬e + (m.log2 : Int) / 3 + 1 < -400 := by
    intro he
    have : (m * 10 ^ e : ℚ) ≤ 10 ^ (-400 : Int) := calc
      (m * 10 ^ e : ℚ) ≤ 10 ^ ((m.log2 : Int) / 3 + 1) * 10 ^ e := by
        gcongr
        exact (lt_ten_pow_log2 m).le
      _ = 10 ^ ((m.log2 : Int) / 3 + 1 + e) := (zpow_add₀ (by norm_num) _ _).symm
      _ ≤ 10 ^ (-400 : Int) := zpow_le_zpow_right₀ (by norm_num) (by omega)
    exact absurd (h.lower_le.trans this) (lt_lowerEnd hm).not_ge
  rw [ofDecimal, if_neg hdigits.ne']
  dsimp only
  rw [if_neg hhigh, if_neg hlow]
  split
  · obtain ⟨k, rfl⟩ := Int.eq_ofNat_of_zero_le ‹0 ≤ e›
    refine ofRatio_eq hx hs (Nat.mul_pos hdigits (Nat.pow_pos (by decide))) Nat.one_pos hm ?_
    simpa using h
  · obtain ⟨k, rfl⟩ : ∃ k : Nat, e = -k := ⟨(-e).toNat, by omega⟩
    refine ofRatio_eq hx hs hdigits (Nat.pow_pos (by decide)) hm ?_
    simpa [div_eq_mul_inv] using h

end Binary64
end Gantry
