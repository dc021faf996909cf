import Mathlib.Tactic.Linarith
import Gantry.Proofs.Calibration.Numerics
import Gantry.Proofs.Training.Exactness

/-!
Refinement in exact arithmetic. If a correction changes states by a contraction, every round shrinks
what is missing by the factor of the contraction. So the states that refinement holds come closer
and closer to the wanted one, and it stops by its tolerance if there are rounds enough. It returns
the state behind the one that was tested, which is closer still.
-/

namespace Gantry

namespace Refinement

/-! ### What refinement holds -/

section Held

variable {ε α : Type} [Scalar α] (actual : List α → Except ε (List α)) (wanted : List α)

/-- What a state is corrected to. -/
def reached (state : List α) : List α := (actual state).toOption.getD []

/-- By how much a state is changed when it is corrected. -/
def change (state : List α) : List α := List.zipWith (· - ·) state (reached actual state)

/-- What is missing at a state to the wanted one. -/
def missing (state : List α) : List α := List.zipWith (· - ·) wanted (reached actual state)

/-- The state that is held after some rounds, if none of them is the last. -/
def held : Nat → List α
  | 0 => wanted
  | k + 1 => List.zipWith (· + ·) (held k) (missing actual wanted (held k))

/-- The largest magnitude of what is missing after some rounds. -/
def residual (k : Nat) : α := Scalar.largest (missing actual wanted (held actual wanted k))

/-- Round `k` is the first to come across a residual below the tolerance. -/
def StopsIn (tolerance : α) (k : Nat) : Prop :=
  Scalar.lt (residual actual wanted k) tolerance = true ∧
    ∀ j < k, Scalar.lt (residual actual wanted j) tolerance = false

end Held

section Rounds

variable {ε α : Type} [Scalar α] {actual : List α → Except ε (List α)} {wanted state : List α}
  {width : Nat}
  (hactual : ∀ s, s.length = width → ∃ t, actual s = .ok t ∧ t.length = width)
  (hwanted : wanted.length = width)

omit [Scalar α] in
theorem reached_eq {t : List α} (h : actual state = .ok t) : reached actual state = t := by
  rw [reached, h]
  rfl

include hactual

omit [Scalar α] in
theorem length_reached (h : state.length = width) : (reached actual state).length = width := by
  obtain ⟨t, ht, hlength⟩ := hactual state h
  rw [reached_eq ht, hlength]

include hwanted

theorem length_missing (h : state.length = width) :
    (missing actual wanted state).length = width := by
  rw [missing, List.length_zipWith, length_reached hactual h, hwanted, Nat.min_self]

theorem length_held (k : Nat) : (held actual wanted k).length = width := by
  induction k with
  | zero => exact hwanted
  | succ k ih => rw [held, List.length_zipWith, length_missing hactual hwanted ih, ih, Nat.min_self]

/-- A round finds out what is missing, and adds it. -/
theorem round_held (misfit : ε) (k : Nat) : round actual misfit wanted (held actual wanted k) =
    .ok (missing actual wanted (held actual wanted k), held actual wanted (k + 1)) := by
  have hlength := length_held hactual hwanted k
  obtain ⟨t, ht, hwidth⟩ := hactual _ hlength
  have hmissing := length_missing hactual hwanted hlength
  rw [missing, reached_eq ht] at hmissing
  rw [round, held, missing, reached_eq ht, ht]
  dsimp only
  rw [entrywise_of_length _ (hwanted.trans hwidth.symm)]
  dsimp only
  rw [entrywise_of_length _ (hlength.trans hmissing.symm)]

/-- Refinement returns what it holds behind the first round with a residual below the tolerance, or
at the end of its rounds. -/
theorem refine_held (misfit : ε) (tolerance : α) (rounds k : Nat) :
    (∃ j < rounds, Scalar.lt (residual actual wanted (k + j)) tolerance = true ∧
      (∀ i < j, Scalar.lt (residual actual wanted (k + i)) tolerance = false) ∧
      refine actual misfit wanted tolerance rounds (held actual wanted k) =
        .ok (held actual wanted (k + j + 1))) ∨
    (∀ i < rounds, Scalar.lt (residual actual wanted (k + i)) tolerance = false) ∧
      refine actual misfit wanted tolerance rounds (held actual wanted k) =
        .ok (held actual wanted (k + rounds)) := by
  induction rounds generalizing k with
  | zero => exact .inr ⟨nofun, rfl⟩
  | succ rounds ih =>
      rw [refine, round_held hactual hwanted]
      dsimp only
      split
      · next hstop => exact .inl ⟨0, Nat.succ_pos _, hstop, nofun, rfl⟩
      · next hgoes =>
        have hfirst : Scalar.lt (residual actual wanted k) tolerance = false := by
          simpa [residual] using hgoes
        have hbefore {j : Nat} (hrest : ∀ i < j,
            Scalar.lt (residual actual wanted (k + 1 + i)) tolerance = false) :
            ∀ i < j + 1, Scalar.lt (residual actual wanted (k + i)) tolerance = false := by
          intro i hi
          cases i with
          | zero => exact hfirst
          | succ i => exact Nat.add_right_comm k 1 i ▸ hrest i (Nat.lt_of_succ_lt_succ hi)
        obtain ⟨j, hj, hstop, hrest, hrefine⟩ | ⟨hrest, hrefine⟩ := ih (k + 1)
        · refine .inl ⟨j + 1, Nat.succ_lt_succ hj, ?_, hbefore hrest, ?_⟩
          · exact Nat.add_right_comm k 1 j ▸ hstop
          · rw [hrefine, Nat.add_right_comm k 1 j]
            rfl
        · exact .inr ⟨hbefore hrest, by rw [hrefine, Nat.add_right_comm k 1 rounds]; rfl⟩

end Rounds

/-! ### Contractions -/

section Contractions

attribute [local instance] Scalar.ofField
attribute [-instance] Scalar.toAdd Scalar.toSub Scalar.toMul

variable {K : Type} [Field K] [LinearOrder K] {ε : Type} {actual : List K → Except ε (List K)}
  {wanted : List K} {width : Nat} {q : K}

/-- States of some width are corrected to such states, and the change is a contraction in the
largest magnitude. -/
structure Contracts (actual : List K → Except ε (List K)) (width : Nat) (q : K) : Prop where
  nonneg : 0 ≤ q
  lt_one : q < 1
  states : ∀ s, s.length = width → ∃ t, actual s = .ok t ∧ t.length = width
  shrinks : ∀ s s', s.length = width → s'.length = width →
    Scalar.largest (List.zipWith (· - ·) (change actual s) (change actual s')) ≤
      q * Scalar.largest (List.zipWith (· - ·) s s')

theorem largest_nonneg (xs : List K) : 0 ≤ Scalar.largest xs := by
  suffices h : ∀ m : K, 0 ≤ m → 0 ≤ xs.foldl (fun m x => Scalar.larger m (Scalar.abs x)) m from
    h _ (Nat.cast_zero (R := K)).ge
  induction xs with
  | nil => exact fun m hm => hm
  | cons x xs ih =>
      refine fun m hm => ih _ ?_
      have hlarger : Scalar.larger m (Scalar.abs x) =
          if Scalar.abs x < m then m else Scalar.abs x := rfl
      dsimp only
      rw [hlarger]
      split
      · exact hm
      · next hle => exact hm.trans (not_lt.1 hle)

/-- What a round leaves missing is by how much the change of the state has changed. -/
theorem missing_held (hactual : ∀ s, s.length = width → ∃ t, actual s = .ok t ∧ t.length = width)
    (hwanted : wanted.length = width) (k : Nat) :
    missing actual wanted (held actual wanted (k + 1)) =
      List.zipWith (· - ·) (change actual (held actual wanted (k + 1)))
        (change actual (held actual wanted k)) := by
  have hnext := length_held hactual hwanted (k + 1)
  have hlast := length_held hactual hwanted k
  have hreached := length_reached hactual hnext
  have hreached' := length_reached hactual hlast
  refine List.ext_getElem ?_ fun i hi hi' => ?_
  · simp only [missing, change, List.length_zipWith, hnext, hlast, hreached, hreached', hwanted,
      Nat.min_self]
  · simp only [missing, change, List.getElem_zipWith, held]
    ring

theorem residual_succ_le (h : Contracts actual width q) (hwanted : wanted.length = width) (k : Nat) :
    residual actual wanted (k + 1) ≤ q * residual actual wanted k := by
  have hlast := length_held h.states hwanted k
  have hmissing := length_missing h.states hwanted hlast
  have hstep : List.zipWith (· - ·) (held actual wanted (k + 1)) (held actual wanted k) =
      missing actual wanted (held actual wanted k) := by
    refine List.ext_getElem ?_ fun i hi hi' => ?_
    · simp only [held, List.length_zipWith, hlast, hmissing, Nat.min_self]
    · simp only [held, List.getElem_zipWith]
      ring
  have hshrinks := h.shrinks _ _ (length_held h.states hwanted (k + 1)) hlast
  rwa [hstep, ← missing_held h.states hwanted] at hshrinks

variable [IsStrictOrderedRing K]

theorem largest_singleton (x : K) : Scalar.largest [x] = |x| := by
  have hmagnitude : Scalar.abs x = |x| := by
    have hcases : Scalar.abs x = if x < 0 then -x else x := rfl
    rw [hcases]
    split
    · next hneg => exact (abs_of_neg hneg).symm
    · next hpos => exact (abs_of_nonneg (not_lt.1 hpos)).symm
  have hlargest : Scalar.largest [x] =
      if Scalar.abs x < (0 : ℕ) then ((0 : ℕ) : K) else Scalar.abs x := rfl
  rw [hlargest, hmagnitude, Nat.cast_zero, if_neg (abs_nonneg x).not_gt]

theorem residual_le (h : Contracts actual width q) (hwanted : wanted.length = width) (k : Nat) :
    residual actual wanted k ≤ q ^ k * residual actual wanted 0 := by
  induction k with
  | zero => rw [pow_zero, one_mul]
  | succ k ih =>
      calc residual actual wanted (k + 1)
        _ ≤ q * residual actual wanted k := residual_succ_le h hwanted k
        _ ≤ q * (q ^ k * residual actual wanted 0) := mul_le_mul_of_nonneg_left ih h.nonneg
        _ = q ^ (k + 1) * residual actual wanted 0 := by rw [pow_succ', mul_assoc]

theorem residual_succ_lt (h : Contracts actual width q) (hwanted : wanted.length = width)
    {tolerance : K} {k : Nat} (hlt : residual actual wanted k < tolerance) :
    residual actual wanted (k + 1) < tolerance := by
  have hnonneg : 0 ≤ residual actual wanted k := largest_nonneg _
  calc residual actual wanted (k + 1)
    _ ≤ q * residual actual wanted k := residual_succ_le h hwanted k
    _ ≤ residual actual wanted k := mul_le_of_le_one_left hnonneg h.lt_one.le
    _ < tolerance := hlt

end Contractions

end Refinement

namespace Numerics

open Refinement
open Training (line)

attribute [local instance] Scalar.ofField
attribute [-instance] Scalar.toAdd Scalar.toSub Scalar.toMul

/-! ### Corrections by a line -/

theorem exact_actual_line (slope bias offset scale x : ℚ) :
    exact.actual ⟨line, [slope, bias], ⟨[offset], [scale]⟩⟩ [x] =
      .ok [(slope * ((x - offset) / scale) + bias) * scale + offset] := by
  have hpredict := Training.exact_predict_line slope bias ((x - offset) / scale)
  have hcoordinates : (⟨[offset], [scale]⟩ : Normalization ℚ).coordinates? [x] =
      some [(x - offset) / scale] := rfl
  rw [actual, Normalization.predictActual, hcoordinates]
  dsimp only
  rw [hpredict]
  rfl

theorem contracts_line {slope : ℚ} (hslope : |1 - slope| < 1) (bias offset : ℚ) {scale : ℚ}
    (hscale : scale ≠ 0) :
    Contracts (exact.actual ⟨line, [slope, bias], ⟨[offset], [scale]⟩⟩) 1 |1 - slope| where
  nonneg := abs_nonneg _
  lt_one := hslope
  states := by
    rintro s hs
    obtain ⟨x, rfl⟩ := List.length_eq_one_iff.1 hs
    exact ⟨_, exact_actual_line .., rfl⟩
  shrinks := by
    rintro s s' hs hs'
    obtain ⟨x, rfl⟩ := List.length_eq_one_iff.1 hs
    obtain ⟨y, rfl⟩ := List.length_eq_one_iff.1 hs'
    rw [change, change, reached_eq (exact_actual_line ..), reached_eq (exact_actual_line ..)]
    simp only [List.zipWith_cons_cons, List.zipWith_nil_left, largest_singleton]
    rw [← abs_mul]
    refine (congrArg abs ?_).le
    field_simp
    ring

/-! ### The wanted state -/

variable {K : Type} [Field K] [LinearOrder K] [IsStrictOrderedRing K] {ε β : Type}

/-- Refinement undoes corrections that change states by a contraction. What is missing shrinks by
the factor of the contraction in every round; a state that is returned by the tolerance misses less
than that; and there is such a return if the last round has a small enough bound. -/
theorem nominal_of_contracts (R : Numerics ε β K) {c : Correction K} {width : Nat} {q : K}
    (h : Contracts (R.actual c) width q) {wanted : List K} (hwanted : wanted.length = width)
    (tolerance : K) (rounds : Nat) :
    let held := held (R.actual c) wanted
    let residual := residual (R.actual c) wanted
    let stopsIn := StopsIn (R.actual c) wanted tolerance
    (∀ k, round (R.actual c) Calibration.misfit wanted (held k) =
        .ok (missing (R.actual c) wanted (held k), held (k + 1))) ∧
      (∀ k, residual k ≤ q ^ k * residual 0) ∧
      ((∃ k < rounds, stopsIn k ∧ R.nominal c tolerance rounds wanted = .ok (held (k + 1)) ∧
          residual (k + 1) < tolerance) ∨
        (∀ k < rounds, tolerance ≤ residual k) ∧
          R.nominal c tolerance rounds wanted = .ok (held rounds)) ∧
      (0 < rounds → q ^ (rounds - 1) * residual 0 < tolerance → ∃ k < rounds, stopsIn k) := by
  intro held residual stopsIn
  have hlt {k : Nat} : Scalar.lt (residual k) tolerance = true ↔ residual k < tolerance :=
    decide_eq_true_iff
  have hle {k : Nat} : Scalar.lt (residual k) tolerance = false ↔ tolerance ≤ residual k :=
    decide_eq_false_iff_not.trans not_lt
  have hcases : (∃ k < rounds, stopsIn k ∧ R.nominal c tolerance rounds wanted = .ok (held (k + 1)) ∧
      residual (k + 1) < tolerance) ∨ (∀ k < rounds, tolerance ≤ residual k) ∧
        R.nominal c tolerance rounds wanted = .ok (held rounds) := by
    have hrefine := refine_held h.states hwanted Calibration.misfit tolerance rounds 0
    simp only [Nat.zero_add] at hrefine
    obtain ⟨k, hk, hstop, hbefore, hnominal⟩ | ⟨hnone, hnominal⟩ := hrefine
    · exact .inl ⟨k, hk, ⟨hstop, hbefore⟩, hnominal, residual_succ_lt h hwanted (hlt.1 hstop)⟩
    · exact .inr ⟨fun k hk => hle.1 (hnone k hk), hnominal⟩
  refine ⟨round_held h.states hwanted _, residual_le h hwanted, hcases, fun hrounds hsmall => ?_⟩
  obtain ⟨k, hk, hstops, -⟩ | ⟨hnone, -⟩ := hcases
  · exact ⟨k, hk, hstops⟩
  · have hlast := hnone (rounds - 1) (Nat.sub_one_lt_of_lt hrounds)
    exact absurd ((residual_le h hwanted (rounds - 1)).trans_lt hsmall) (not_lt.2 hlast)

theorem nominal_of_contracts_line :
    ∃ k < 4, exact.nominal ⟨line, [1 / 2, 1], ⟨[3], [2]⟩⟩ 1 4 [11] =
        .ok (held (exact.actual ⟨line, [1 / 2, 1], ⟨[3], [2]⟩⟩) [11] (k + 1)) ∧
      Refinement.residual (exact.actual ⟨line, [1 / 2, 1], ⟨[3], [2]⟩⟩) [11] (k + 1) < 1 := by
  have hslope : |1 - (1 / 2 : ℚ)| < 1 := by norm_num
  have hwidth : ([11] : List ℚ).length = 1 := rfl
  have hfirst : Refinement.residual (exact.actual ⟨line, [1 / 2, 1], ⟨[3], [2]⟩⟩) [11] 0 = 2 := by
    rw [Refinement.residual, held, missing, reached_eq (exact_actual_line ..)]
    simp only [List.zipWith_cons_cons, List.zipWith_nil_left, largest_singleton]
    norm_num
  obtain ⟨-, -, hcases, hstops⟩ :=
    nominal_of_contracts exact (contracts_line hslope 1 3 two_ne_zero) hwidth 1 4
  obtain ⟨k, hk, hstop, -⟩ := hstops (by decide) (by rw [hfirst]; norm_num)
  obtain ⟨k, hk, -, hnominal, hbelow⟩ | ⟨hnone, -⟩ := hcases
  · exact ⟨k, hk, hnominal, hbelow⟩
  · exact absurd (of_decide_eq_true hstop) (not_lt.2 (hnone k hk))

end Numerics

end Gantry
