import Gantry.Proofs.Number.Rounding
import Mathlib.Tactic.FieldSimp

/-!
The shortest digits of a double stand for a number that is rounded to it. Any
point that the search finds does, so what matters is that it finds one: the
grid with seventeen digits is finer than the interval of the double, as long
as the leading exponent is not taken too large.
-/

namespace Gantry.Decimal

variable {x : Binary64} {n d : Nat} {p : Int}

def Positive.value (x : Positive) : ℚ := x.digits * 10 ^ x.scale

theorem value_trim (fuel : Nat) (x : Positive) : (x.trim fuel).value = x.value := by
  induction fuel generalizing x with
  | zero => rfl
  | succ fuel ih =>
      rw [Positive.trim]
      split
      · rename_i hzero
        have hdigits : (x.digits : ℚ) = 10 * (x.digits / 10 : Nat) := by
          exact_mod_cast (Nat.mul_div_cancel' (Nat.dvd_of_mod_eq_zero hzero)).symm
        rw [ih, Positive.value, Positive.value, hdigits, zpow_add_one₀ (by norm_num)]
        ring
      · rfl

/-! ### The leading exponent -/

theorem shift_eq (hd : 0 < d) (e : Int) : 0 < (shift n d e).2 ∧
    ((shift n d e).1 : ℚ) / (shift n d e).2 = n / d / 10 ^ e := by
  unfold shift
  split
  · obtain ⟨k, rfl⟩ := Int.eq_ofNat_of_zero_le ‹0 ≤ e›
    exact ⟨Nat.mul_pos hd (Nat.pow_pos (by decide)), by simp [div_div]⟩
  · obtain ⟨k, rfl⟩ : ∃ k : Nat, e = -k := ⟨(-e).toNat, by omega⟩
    exact ⟨hd, by simp [div_eq_mul_inv, mul_right_comm]⟩

/-- Settling ends at an exponent that is not too large, unless the guess is too large by more
than the steps there are. -/
theorem ten_pow_settle_le (hd : 0 < d) (fuel : Nat)
    (h : (10 : ℚ) ^ (p - fuel) ≤ 10 * (n / d)) :
    (10 : ℚ) ^ settle n d fuel p ≤ 10 * (n / d) := by
  induction fuel generalizing p with
  | zero => simpa [settle] using h
  | succ fuel ih =>
      obtain ⟨hb, hshift⟩ := shift_eq (n := n) hd p
      have hcast : (0 : ℚ) < (shift n d p).2 := Nat.cast_pos.2 hb
      have hunit : (0 : ℚ) < 10 ^ p := by positivity
      rw [settle]
      dsimp only
      split
      · -- A guess that goes up was low enough, and one step up is within the factor of ten.
        rename_i hle
        have hat : (10 : ℚ) ^ p ≤ n / d := by
          rw [← Nat.cast_le (α := ℚ), ← one_le_div₀ hcast, hshift, one_le_div₀ hunit] at hle
          exact hle
        refine ih (le_trans ?_ ((mul_le_mul_iff_right₀ (by norm_num)).2 hat))
        rw [mul_comm, ← zpow_add_one₀ (by norm_num)]
        exact zpow_le_zpow_right₀ (by norm_num) (by omega)
      · split
        · refine ih ?_
          rw [show p - 1 - (fuel : Int) = p - (fuel + 1 : Nat) by omega]
          exact h
        · rename_i hlt
          rw [not_lt, ← Nat.cast_le (α := ℚ), Nat.cast_mul, ← one_le_div₀ hcast,
            mul_div_assoc, hshift, ← mul_div_assoc, one_le_div₀ hunit] at hlt
          exact_mod_cast hlt

theorem ten_pow_le_two_pow (k : Nat) : (10 : ℚ) ^ (3 * (k : Int)) ≤ 2 ^ (10 * (k : Int)) := by
  rw [zpow_mul, zpow_mul, zpow_natCast, zpow_natCast]
  exact pow_le_pow_left₀ (by positivity) (by norm_num) k

/-- The guess at the leading exponent is too large by less than the steps of its settling, as far
as the exponents of doubles go. -/
theorem ten_pow_guess_le {gap : Int} (hlow : -1100 ≤ gap) (hhigh : gap ≤ 1100) :
    (10 : ℚ) ^ (gap * 30103 / 100000 - 40) ≤ 10 * 2 ^ (gap - 1) := by
  have hten : (2 : ℚ) ^ (gap + 2) ≤ 10 * 2 ^ (gap - 1) := by
    rw [show gap + 2 = 3 + (gap - 1) by omega, zpow_add₀ two_ne_zero]
    gcongr
    norm_num
  refine le_trans ?_ hten
  -- Above one, ten bits are more than three digits; below, three bits are less than one.
  rcases le_total 0 (gap + 2) with hpos | hneg
  · obtain ⟨k, hk, hbound⟩ : ∃ k : Nat, gap * 30103 / 100000 - 40 ≤ 3 * (k : Int) ∧
        10 * (k : Int) ≤ gap + 2 :=
      ⟨((gap * 30103 / 100000 - 38) / 3).toNat, by omega, by omega⟩
    calc (10 : ℚ) ^ (gap * 30103 / 100000 - 40)
        ≤ 10 ^ (3 * (k : Int)) := zpow_le_zpow_right₀ (by norm_num) hk
      _ ≤ 2 ^ (10 * (k : Int)) := ten_pow_le_two_pow k
      _ ≤ 2 ^ (gap + 2) := zpow_le_zpow_right₀ one_le_two hbound
  · obtain ⟨k, hk, hbound⟩ : ∃ k : Nat, gap * 30103 / 100000 - 40 ≤ -(k : Int) ∧
        -(3 * (k : Int)) ≤ gap + 2 :=
      ⟨(-(gap * 30103 / 100000 - 40)).toNat, by omega, by omega⟩
    calc (10 : ℚ) ^ (gap * 30103 / 100000 - 40)
        ≤ 10 ^ (-(k : Int)) := zpow_le_zpow_right₀ (by norm_num) hk
      _ ≤ 2 ^ (-(3 * (k : Int))) := by
        rw [zpow_neg, zpow_neg]
        exact inv_anti₀ (by positivity) (Binary64.two_pow_le_ten_pow k)
      _ ≤ 2 ^ (gap + 2) := zpow_le_zpow_right₀ one_le_two hbound

theorem ratioOf_eq (x : Binary64) : 0 < (ratioOf x).2 ∧
    ((ratioOf x).1 : ℚ) / (ratioOf x).2 = x.significand * 2 ^ x.exponent := by
  unfold ratioOf
  split
  · rename_i he
    lift x.exponent to Nat using he with k
    simp [Nat.shiftLeft_eq]
  · rename_i he
    obtain ⟨k, hk⟩ : ∃ k : Nat, x.exponent = -k := ⟨(-x.exponent).toNat, by omega⟩
    simp [hk, Nat.shiftLeft_eq, div_eq_mul_inv]

theorem ratioOf_pos (hm : 0 < x.significand) : 0 < (ratioOf x).1 := by
  have hratio := (ratioOf_eq x).2
  have hone : (0 : ℚ) < x.significand := Nat.cast_pos.2 hm
  rw [Nat.pos_iff_ne_zero]
  intro hzero
  rw [hzero, Nat.cast_zero, zero_div] at hratio
  exact absurd hratio (by positivity)

theorem log2_ratioOf (hx : x.isFinite = true) (hm : 0 < x.significand) :
    -1100 ≤ ((ratioOf x).1.log2 : Int) - (ratioOf x).2.log2 ∧
      ((ratioOf x).1.log2 : Int) - (ratioOf x).2.log2 ≤ 1100 := by
  obtain ⟨hd, hratio⟩ := ratioOf_eq x
  obtain ⟨hlow, hhigh⟩ := Binary64.ratio_bounds (ratioOf_pos hm) hd
  have hge := Binary64.exponent_ge x
  have hlt := Binary64.exponent_lt_of_isFinite hx
  have hone : (1 : ℚ) ≤ x.significand := Nat.one_le_cast.2 hm
  have hsize : (x.significand : ℚ) ≤ 2 ^ (53 : Int) := by
    exact_mod_cast (Binary64.significand_lt x).le
  rw [hratio] at hlow hhigh
  have hlarge : (2 : ℚ) ^ x.exponent ≤ x.significand * 2 ^ x.exponent :=
    le_mul_of_one_le_left (by positivity) hone
  have hsmall : x.significand * 2 ^ x.exponent ≤ (2 : ℚ) ^ (53 + x.exponent) := by
    rw [zpow_add₀ two_ne_zero]
    gcongr
  have := (zpow_lt_zpow_iff_right₀ one_lt_two).1 (hlarge.trans_lt hhigh)
  have := (zpow_lt_zpow_iff_right₀ one_lt_two).1 (hlow.trans_le hsmall)
  omega

theorem ten_pow_leadingExponent_le (hx : x.isFinite = true) (hm : 0 < x.significand) :
    (10 : ℚ) ^ leadingExponent (ratioOf x).1 (ratioOf x).2 ≤
      10 * (x.significand * 2 ^ x.exponent) := by
  obtain ⟨hlow, hhigh⟩ := log2_ratioOf hx hm
  obtain ⟨hd, hratio⟩ := ratioOf_eq x
  rw [← hratio]
  refine ten_pow_settle_le hd 40 ((ten_pow_guess_le hlow hhigh).trans ?_)
  gcongr
  exact (Binary64.ratio_bounds (ratioOf_pos hm) hd).1.le

/-! ### Grids -/

theorem covers_iff {closed : Bool} {lo hi c b : Nat} : covers closed lo hi c b = true ↔
    lo ≤ c * b ∧ c * b ≤ hi ∧ (closed = false → lo < c * b ∧ c * b < hi) := by
  unfold covers
  cases closed
  · simp only [Bool.false_eq_true, if_false, Bool.and_eq_true, decide_eq_true_eq, true_imp_iff]
    omega
  · simp

theorem covers_of_gridPoint {closed : Bool} {lo v hi b c : Nat}
    (h : gridPoint closed lo v hi b = some c) : covers closed lo hi c b = true := by
  simp only [gridPoint] at h
  split at h
  · rename_i hbelow habove
    obtain rfl := Option.some.inj h
    split <;> assumption
  · rename_i hbelow habove
    exact Option.some.inj h ▸ hbelow
  · rename_i hbelow habove
    exact Option.some.inj h ▸ habove
  · cases h

/-- A grid finer than an interval has a point in it. -/
theorem isSome_gridPoint {closed : Bool} {lo v hi b : Nat} (hb : 0 < b) (hlo : lo < v)
    (hhi : v < hi) (hfine : lo + b < hi) : (gridPoint closed lo v hi b).isSome = true := by
  have hsplit := Nat.div_add_mod' v b
  have hrest := Nat.mod_lt v hb
  have hpoint :
      covers closed lo hi (v / b) b = true ∨ covers closed lo hi (v / b + 1) b = true := by
    rw [covers_iff, covers_iff, Nat.succ_mul]
    omega
  simp only [gridPoint]
  split <;> simp_all

/-- The search measures binary units on a decimal grid without leaving the natural numbers. -/
theorem scaled_eq (unit e : Int) (n : Nat) :
    ((if 0 ≤ e then if 0 ≤ unit then n <<< unit.toNat else n
      else (if 0 ≤ unit then n <<< unit.toNat else n) * Nat.pow 10 (-e).toNat : Nat) : ℚ) /
      (((if 0 ≤ e then Nat.pow 10 e.toNat else 1) *
        (if 0 ≤ unit then 1 else 1 <<< (-unit).toNat) : Nat) : ℚ) = n * 2 ^ unit / 10 ^ e := by
  have hneg (i : Int) (hi : ¬0 ≤ i) : ∃ k : Nat, i = -k := ⟨(-i).toNat, by omega⟩
  split <;> split
  · lift e to Nat using ‹0 ≤ e› with j
    lift unit to Nat using ‹0 ≤ unit› with k
    simp [Nat.shiftLeft_eq]
  · lift e to Nat using ‹0 ≤ e› with j
    obtain ⟨k, rfl⟩ := hneg unit ‹_›
    simp only [Nat.shiftLeft_eq, Nat.pow_eq, zpow_neg, zpow_natCast, neg_neg, Int.toNat_natCast]
    push_cast
    field_simp
  · obtain ⟨j, rfl⟩ := hneg e ‹_›
    lift unit to Nat using ‹0 ≤ unit› with k
    simp [Nat.shiftLeft_eq]
  · obtain ⟨j, rfl⟩ := hneg e ‹_›
    obtain ⟨k, rfl⟩ := hneg unit ‹_›
    simp only [Nat.shiftLeft_eq, Nat.pow_eq, zpow_neg, zpow_natCast, neg_neg, Int.toNat_natCast]
    push_cast
    field_simp

theorem search_succ (x : Binary64) (p : Int) (fuel k : Nat) : ∃ lo v hi b : Nat, 0 < b ∧
    (lo / b : ℚ) = x.lowerEnd / 10 ^ (p - k) ∧
    (v / b : ℚ) = x.significand * 2 ^ x.exponent / 10 ^ (p - k) ∧
    (hi / b : ℚ) = x.upperEnd / 10 ^ (p - k) ∧
    search x p (fuel + 1) k = match gridPoint (x.significand % 2 == 0) lo v hi b with
      | some c => ⟨c, p - k⟩
      | none => search x p fuel (k + 1) := by
  refine ⟨_, _, _, _, ?_, scaled_eq (x.exponent - 2) (p - k) _, ?_,
    scaled_eq (x.exponent - 2) (p - k) _, rfl⟩
  · split <;> split <;> simp [Nat.shiftLeft_eq]
  · refine (scaled_eq (x.exponent - 2) (p - k) (4 * x.significand)).trans ?_
    rw [zpow_sub₀ two_ne_zero]
    push_cast
    ring

/-! ### The search -/

theorem attracts_of_covers {lo hi b c : Nat} {e : Int} (hb : 0 < b)
    (hlo : (lo / b : ℚ) = x.lowerEnd / 10 ^ e) (hhi : (hi / b : ℚ) = x.upperEnd / 10 ^ e)
    (h : covers (x.significand % 2 == 0) lo hi c b = true) : x.Attracts (c * 10 ^ e) := by
  have hcast : (0 : ℚ) < b := Nat.cast_pos.2 hb
  have hunit : (0 : ℚ) < 10 ^ e := by positivity
  obtain ⟨hle, hge, hopen⟩ := covers_iff.1 h
  rw [← Nat.cast_le (α := ℚ), Nat.cast_mul] at hle hge
  rw [← Nat.cast_lt (α := ℚ), ← Nat.cast_lt (α := ℚ), Nat.cast_mul] at hopen
  constructor
  · rwa [← div_le_iff₀ hunit, ← hlo, div_le_iff₀ hcast]
  · rwa [← le_div_iff₀ hunit, ← hhi, le_div_iff₀ hcast]
  · intro hodd
    rw [← div_lt_iff₀ hunit, ← hlo, div_lt_iff₀ hcast, ← lt_div_iff₀ hunit, ← hhi,
      lt_div_iff₀ hcast]
    exact hopen (by simp [hodd])

theorem lowerEnd_lt (hm : 0 < x.significand) : x.lowerEnd < x.significand * 2 ^ x.exponent := by
  rw [Binary64.lowerEnd_eq x hm]
  gcongr
  split <;> norm_num

theorem lt_upperEnd (x : Binary64) : x.significand * 2 ^ x.exponent < x.upperEnd := by
  rw [Binary64.upperEnd_eq]
  gcongr
  norm_num

/-- The grid with seventeen digits is finer than the interval. -/
theorem grid_lt_interval (hm : 0 < x.significand)
    (hp : (10 : ℚ) ^ p ≤ 10 * (x.significand * 2 ^ x.exponent)) :
    x.lowerEnd + 10 ^ (p - 17) < x.upperEnd := by
  have hunit : (0 : ℚ) < 2 ^ x.exponent := by positivity
  have hstep : (10 : ℚ) ^ (p - 17) ≤ x.significand / 10 ^ 16 * 2 ^ x.exponent := by
    rw [zpow_sub₀ (by norm_num), div_le_iff₀ (by positivity)]
    refine hp.trans_eq ?_
    norm_num
    ring
  rw [Binary64.lowerEnd_eq x hm, Binary64.upperEnd_eq]
  by_cases hpower : x.significand = Binary64.hiddenBit ∧ -1074 < x.exponent
  · have hsize : (x.significand / 10 ^ 16 : ℚ) < 3 / 4 := by
      rw [hpower.1]
      norm_num [Binary64.hiddenBit]
    rw [if_pos hpower]
    nlinarith
  · have hsize : (x.significand / 10 ^ 16 : ℚ) < 1 := by
      have : (x.significand : ℚ) < 2 ^ 53 := by exact_mod_cast Binary64.significand_lt x
      rw [div_lt_iff₀ (by norm_num)]
      linarith
    rw [if_neg hpower]
    nlinarith

theorem isSome_gridPoint_of_scaled {closed : Bool} {lo v hi b : Nat} {e : Int} (hb : 0 < b)
    (hlo : (lo / b : ℚ) = x.lowerEnd / 10 ^ e)
    (hv : (v / b : ℚ) = x.significand * 2 ^ x.exponent / 10 ^ e)
    (hhi : (hi / b : ℚ) = x.upperEnd / 10 ^ e) (hm : 0 < x.significand)
    (hfine : x.lowerEnd + 10 ^ e < x.upperEnd) : (gridPoint closed lo v hi b).isSome = true := by
  have hcast : (0 : ℚ) < b := Nat.cast_pos.2 hb
  have hunit : (0 : ℚ) < 10 ^ e := by positivity
  refine isSome_gridPoint hb ?_ ?_ ?_
  · rw [← Nat.cast_lt (α := ℚ), ← div_lt_div_iff_of_pos_right hcast, hlo, hv]
    gcongr
    exact lowerEnd_lt hm
  · rw [← Nat.cast_lt (α := ℚ), ← div_lt_div_iff_of_pos_right hcast, hhi, hv]
    gcongr
    exact lt_upperEnd x
  · rw [← Nat.cast_lt (α := ℚ), ← div_lt_div_iff_of_pos_right hcast, Nat.cast_add, add_div,
      hlo, hhi, div_self hcast.ne', ← div_self hunit.ne', ← add_div]
    gcongr

/-- Whatever the search returns is rounded to the double; with seventeen digits left it has not
failed yet, and there it cannot. -/
theorem attracts_search (hm : 0 < x.significand)
    (hp : (10 : ℚ) ^ p ≤ 10 * (x.significand * 2 ^ x.exponent)) (fuel k : Nat)
    (hk : fuel + k = 17) : x.Attracts (search x p (fuel + 1) k).value := by
  induction fuel generalizing k with
  | zero =>
      obtain rfl : k = 17 := by omega
      obtain ⟨lo, v, hi, b, hb, hlo, hv, hhi, hsearch⟩ := search_succ x p 0 17
      obtain ⟨c, hc⟩ := Option.isSome_iff_exists.1
        (isSome_gridPoint_of_scaled hb hlo hv hhi hm (grid_lt_interval hm hp))
      rw [hsearch, hc]
      exact attracts_of_covers hb hlo hhi (covers_of_gridPoint hc)
  | succ fuel ih =>
      obtain ⟨lo, v, hi, b, hb, hlo, -, hhi, hsearch⟩ := search_succ x p (fuel + 1) k
      rw [hsearch]
      cases hgrid : gridPoint (x.significand % 2 == 0) lo v hi b with
      | none => exact ih (k + 1) (by omega)
      | some c => exact attracts_of_covers hb hlo hhi (covers_of_gridPoint hgrid)

/-- The shortest digits of a double are rounded to it. -/
theorem attracts_shortest (hx : x.isFinite = true) (hm : 0 < x.significand) :
    x.Attracts (shortest x).value := by
  have hp := ten_pow_leadingExponent_le hx hm
  unfold shortest
  dsimp only
  rw [value_trim]
  exact attracts_search hm hp 16 1 rfl

end Gantry.Decimal
