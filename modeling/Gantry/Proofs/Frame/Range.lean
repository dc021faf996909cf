import Gantry.Proofs.Frame.Positions
import Gantry.Proofs.Number.Rounding

/-!
Moves that cannot fail. Only whole numbers can be too large for a move, which
multiplies the distance by the scale of the deadband; doubles never are. With
whole numbers of 32 bits no move fails.
-/

namespace Gantry

namespace Number

variable {a b : Number} {j k l : Nat}

/-- A number that is no whole number beyond a bound. -/
def Within (k : Nat) : Number → Prop
  | .int n => n.natAbs ≤ k
  | .real _ => True

instance (k : Nat) (a : Number) : Decidable (a.Within k) := by
  cases a <;> unfold Within <;> infer_instance

theorem exists_toBinary64?_of_within (hk : k < 2 ^ 64) (h : a.Within k) :
    ∃ x, a.toBinary64? = some x := by
  cases a with
  | int n => exact ⟨_, if_pos (Binary64.isFinite_ofInt (Nat.lt_of_le_of_lt h hk))⟩
  | real x => exact ⟨x, rfl⟩

/-- Operations on numbers within bounds go through. -/
theorem exists_combine {whole : Int → Int → Int} {fractional : Binary64 → Binary64 → Binary64}
    (hj : j < 2 ^ 64) (hk : k < 2 ^ 64) (ha : a.Within j) (hb : b.Within k)
    (hwhole : ∀ m n : Int, m.natAbs ≤ j → n.natAbs ≤ k → (whole m n).natAbs ≤ l) :
    ∃ c, combine whole fractional a b = some c ∧ c.Within l := by
  obtain ⟨x, hx⟩ := exists_toBinary64?_of_within hj ha
  obtain ⟨y, hy⟩ := exists_toBinary64?_of_within hk hb
  cases a with
  | int m =>
      cases b with
      | int n => exact ⟨_, rfl, hwhole m n ha hb⟩
      | real z => exact ⟨.real (fractional x y), by simp only [combine, hx, hy], trivial⟩
  | real z => exact ⟨.real (fractional x y), by simp only [combine, hx, hy], trivial⟩

theorem exists_sub (hj : j < 2 ^ 64) (hk : k < 2 ^ 64) (ha : a.Within j) (hb : b.Within k) :
    ∃ c, a.sub b = some c ∧ c.Within (j + k) :=
  exists_combine hj hk ha hb fun m n hm hn => (Int.natAbs_sub_le m n).trans (Nat.add_le_add hm hn)

theorem exists_mul (hj : j < 2 ^ 64) (hk : k < 2 ^ 64) (ha : a.Within j) (hb : b.Within k) :
    ∃ c, a.mul b = some c ∧ c.Within (j * k) :=
  exists_combine hj hk ha hb fun m n hm hn => Int.natAbs_mul m n ▸ Nat.mul_le_mul hm hn

/-- A sum with a double is a double. -/
theorem exists_add_real (hj : j < 2 ^ 64) (ha : a.Within j) (y : Binary64) :
    ∃ z, a.add (.real y) = some (.real z) := by
  obtain ⟨x, hx⟩ := exists_toBinary64?_of_within hj ha
  cases a with
  | int n => exact ⟨x + y, by simp only [add, combine, hx]; rfl⟩
  | real x' => exact ⟨x' + y, rfl⟩

end Number

/-- A magnitude of whole numbers with which no move fails. -/
def wholeLimit : Nat := 2 ^ 31

/-- A value that is a number, and no whole number too large. -/
def Value.Ordinary (v : Value) : Prop := ∃ n, v = some n ∧ n.Within wholeLimit

/-- Deadbands that can be followed, if there are any. -/
def Backlash.Ordinary (b : Backlash) : Prop :=
  b.active = true → Value.Ordinary b.scale ∧ Value.Ordinary b.home

namespace Axis

variable {a a' : Axis} {b : Backlash} {v : Value}

/-- An axis that can be moved. -/
structure Ordinary (b : Backlash) (a : Axis) : Prop where
  low : a.drive.low.Within wholeLimit
  high : a.drive.high.Within wholeLimit
  position : ∀ p, a.position = some p → p.Within wholeLimit
  deadband : b.active = true → Value.Ordinary a.deadband

theorem within_clip (h : a.Ordinary b) {p : Number} (hp : p.Within wholeLimit) :
    (a.drive.clip p).Within wholeLimit := by
  unfold Drive.clip Number.larger Number.smaller
  split
  · split
    · exact h.high
    · exact hp
  · split
    · exact h.high
    · exact h.low

theorem within_origin (h : a.Ordinary b) : a.origin.Within wholeLimit := by
  unfold origin
  split
  · split
    · trivial
    · exact h.position _ ‹_›
  · trivial

theorem exists_tanh {d : Number} (h : d.Within (2 ^ 63)) :
    ∃ t : Binary64, tanh d = .ok (.real t) := by
  cases d with
  | int n =>
      have hword : (Whole.isSigned n || Whole.isUnsigned n) = true := by
        have hn : n.natAbs ≤ 2 ^ 63 := h
        simp only [Whole.isSigned, Whole.isUnsigned, Bool.or_eq_true, Bool.and_eq_true,
          decide_eq_true_eq]
        simp only [Whole.signedEnd, Whole.unsignedEnd]
        omega
      exact ⟨(Binary64.ofInt n).tanh, by simp only [tanh, Whole.toReal?, hword, if_true]⟩
  | real x => exact ⟨_, rfl⟩

/-- The deadband after a move can be computed, and moved on from. -/
theorem Ordinary.exists_deadbandAt (h : a.Ordinary b) (hb : b.Ordinary) (hactive : b.active = true)
    {p : Number} (hp : p.Within wholeLimit) :
    ∃ deadband, a.deadbandAt b p = .ok deadband ∧ Value.Ordinary deadband := by
  obtain ⟨⟨scale, hscale, hscaleWithin⟩, home, hhome, hhomeWithin⟩ := hb hactive
  obtain ⟨d, hd, hdWithin⟩ := h.deadband hactive
  unfold deadbandAt
  split
  · exact ⟨_, rfl, home, hhome, hhomeWithin⟩
  · have hlimit : wholeLimit < 2 ^ 64 := by decide
    have hproduct : wholeLimit * (wholeLimit + wholeLimit) = 2 ^ 63 := by decide
    obtain ⟨delta, hdelta, hdeltaWithin⟩ :=
      Number.exists_sub hlimit hlimit hp (within_origin h)
    obtain ⟨scaled, hscaled, hscaledWithin⟩ :=
      Number.exists_mul hlimit (by decide) hscaleWithin hdeltaWithin
    obtain ⟨push, hpush⟩ := exists_tanh (hproduct ▸ hscaledWithin)
    obtain ⟨moved, hmoved⟩ := Number.exists_add_real hlimit hdWithin push
    refine ⟨some (limitDeadband (.real moved)), ?_, _, rfl, ?_⟩
    · simp [Value.combine, hdelta, hscale, hscaled, hpush, hd, hmoved, Bind.bind, Except.bind,
        pure, Except.pure]
    · unfold limitDeadband Number.larger Number.smaller
      split <;> split <;> trivial

/-- A move within the range succeeds, and leaves an axis that can be moved again. -/
theorem Ordinary.exists_moveTo (h : a.Ordinary b) (hb : b.Ordinary)
    (hv : ∀ p, v = some p → p.Within wholeLimit) : ∃ a', a.moveTo b v = .ok a' ∧ a'.Ordinary b := by
  cases v with
  | none => exact ⟨_, rfl, h.low, h.high, by simp, h.deadband⟩
  | some target =>
      have hclip := within_clip h (hv target rfl)
      have hposition : ∀ p, some (a.drive.clip target) = some p → p.Within wholeLimit := by
        rintro p ⟨⟩
        exact hclip
      simp only [moveTo]
      split
      · rename_i hcond
        obtain ⟨deadband, hdeadband, hordinary⟩ := h.exists_deadbandAt hb
          (Bool.and_eq_true_iff.1 hcond).1 hclip
        rw [hdeadband]
        exact ⟨_, rfl, h.low, h.high, hposition, fun _ => hordinary⟩
      · exact ⟨_, rfl, h.low, h.high, hposition, h.deadband⟩

end Axis

namespace Frame

open Axis

variable {b : Backlash} {axes : List Axis} {targets : List Value}

/-- A list of values none of which is a whole number too large. -/
def Moderate (vs : List Value) : Prop := ∀ v ∈ vs, ∀ p ∈ v, p.Within wholeLimit

instance (vs : List Value) : Decidable (Moderate vs) := by
  unfold Moderate
  infer_instance

/-- Moves within the range all succeed, and leave axes that can be moved again. -/
theorem moveAxes_of_moderate (hb : b.Ordinary) (haxes : ∀ a ∈ axes, a.Ordinary b)
    (htargets : Moderate targets) : (moveAxes b axes targets).1 = .ok () ∧
      ∀ a ∈ (moveAxes b axes targets).2, a.Ordinary b := by
  induction axes, targets using moveAxes.induct b with
  | case1 a as v vs e hfails =>
      obtain ⟨a', hmoved, -⟩ := (haxes a List.mem_cons_self).exists_moveTo hb
        (htargets v List.mem_cons_self)
      rw [hfails] at hmoved
      cases hmoved
  | case2 a as v vs a' hmoved r rest hrest ih =>
      rw [List.forall_mem_cons] at haxes
      rw [Moderate, List.forall_mem_cons] at htargets
      obtain ⟨a'', hmoved', hordinary⟩ := haxes.1.exists_moveTo hb htargets.1
      obtain rfl : a' = a'' := Except.ok.inj (hmoved.symm.trans hmoved')
      obtain ⟨hok, hrests⟩ := ih haxes.2 htargets.2
      simp only [moveAxes, hmoved]
      exact ⟨hok, List.forall_mem_cons.2 ⟨hordinary, hrests⟩⟩
  | case3 axes targets hne =>
      rw [moveAxes.eq_2 b axes targets hne]
      exact ⟨rfl, haxes⟩

end Frame

end Gantry
