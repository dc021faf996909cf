import Gantry.Proofs.Formula.Values
import Gantry.Proofs.Frame.Standstill
import Gantry.Proofs.Number.Sign

/-!
Deadbands follow the direction of moves. How sharply they do is up to the
hyperbolic tangent, of which nothing is used but that it is odd and monotone and
gives no number for none; so any such curve may stand in its place. Along moves
upwards no deadband falls. Along moves downwards that stay off the lower limit
none rises, with one exception: where the scale times the distance is not a
number, as zero times a distance beyond the range of doubles, the deadband jumps
to its upper limit.
-/

namespace Gantry

/-- What the hyperbolic tangent has in common with other odd and monotone curves. -/
structure Sigmoid (curve : Binary64 → Binary64) : Prop where
  odd : ∀ x, x.isNaN = false → (curve x.neg).eqv (curve x).neg = true
  monotone : ∀ x y, x.le y = true → (curve x).le (curve y) = true
  nan : ∀ x, x.isNaN = true → (curve x).isNaN = true

namespace Sigmoid

variable {curve : Binary64 → Binary64} {x : Binary64}

theorem rank_zero (h : Sigmoid curve) : (curve Binary64.zero).rank = 0 := by
  have hodd := h.odd Binary64.zero (by decide)
  have hle := h.monotone Binary64.zero Binary64.zero.neg (by decide)
  have hge := h.monotone Binary64.zero.neg Binary64.zero (by decide)
  rw [Binary64.le_iff] at hle hge
  simp only [Binary64.eqv, Bool.and_eq_true, decide_eq_true_eq, Binary64.rank_neg] at hodd
  omega

/-- A curve through zero keeps signs. -/
theorem lt_zero (h : Sigmoid curve) (hx : x.lt Binary64.zero = false) :
    (curve x).lt Binary64.zero = false := by
  cases hnan : x.isNaN with
  | true => simp [Binary64.lt, h.nan x hnan]
  | false =>
    have hzero : Binary64.zero.rank = 0 := rfl
    have hle := h.monotone _ _ ((Binary64.not_lt hnan (by decide)).1 hx)
    rw [Binary64.le_iff, h.rank_zero] at hle
    rw [Binary64.not_lt hle.2.1 (by decide), Binary64.le_iff, hzero]
    exact ⟨by decide, hle.2⟩

theorem zero_lt (h : Sigmoid curve) (hx : Binary64.zero.lt x = false) :
    Binary64.zero.lt (curve x) = false := by
  cases hnan : x.isNaN with
  | true => simp [Binary64.lt, h.nan x hnan]
  | false =>
    have hzero : Binary64.zero.rank = 0 := rfl
    have hle := h.monotone _ _ ((Binary64.not_lt (by decide) hnan).1 hx)
    rw [Binary64.le_iff, h.rank_zero] at hle
    rw [Binary64.not_lt (by decide) hle.1, Binary64.le_iff, hzero]
    exact ⟨hle.1, by decide, hle.2.2⟩

theorem isNaN (h : Sigmoid curve) (hx : x.isNaN = false) : (curve x).isNaN = false :=
  (Binary64.le_iff.1 (h.monotone x x (Binary64.le_refl hx))).1

end Sigmoid

/-- The steepest such curve. From about twenty on the hyperbolic tangent is the same. -/
theorem sigmoid_sign : Sigmoid Binary64.sign where
  odd x hx := by
    have hneg : x.neg.isNaN = false := (Binary64.isNaN_neg x).trans hx
    simp only [Binary64.sign, hx, hneg, Binary64.rank_neg, Bool.false_eq_true, if_false]
    rcases Int.lt_trichotomy x.rank 0 with h | h | h
    · rw [if_neg (by omega), if_pos (by omega), if_pos h]
      decide
    · rw [if_neg (by omega), if_neg (by omega), if_neg (by omega), if_neg (by omega)]
      decide
    · rw [if_pos (by omega), if_neg (by omega), if_pos h]
      decide
  monotone x y h := by
    obtain ⟨hx, hy, hle⟩ := Binary64.le_iff.1 h
    simp only [Binary64.sign, hx, hy, Bool.false_eq_true, if_false]
    rcases Int.lt_trichotomy x.rank 0 with h | h | h
    · rw [if_pos h]
      split
      · decide
      · split <;> decide
    · rw [if_neg (by omega), if_neg (by omega), if_neg (by omega : ¬y.rank < 0)]
      split <;> decide
    · rw [if_neg (by omega), if_pos h, if_neg (by omega : ¬y.rank < 0),
        if_pos (by omega : 0 < y.rank)]
      decide
  nan x hx := by simp [Binary64.sign, hx]

namespace Axis

variable {curve : Binary64 → Binary64} {a a' : Axis} {b : Backlash} {d p q s : Number} {v : Value}

/-! ### Moves along a curve -/

def pushAlong (curve : Binary64 → Binary64) : Number → Except Fault Number
  | .real x => .ok (.real (curve x))
  | .int n =>
    match Whole.toReal? n with
    | some x => .ok (.real (curve x))
    | none => .error (.type none)

def deadbandAlong (curve : Binary64 → Binary64) (b : Backlash) (a : Axis) (position : Number) :
    Except Fault Value :=
  if position.same a.drive.low then .ok b.home
  else do
    let delta ← Value.combine Number.sub (some position) (some a.origin)
    let push ← pushAlong curve (← Value.combine Number.mul b.scale (some delta))
    let moved ← Value.combine Number.add a.deadband (some push)
    return some (limitDeadband moved)

/-- A move with a curve in place of the hyperbolic tangent. -/
def moveAlong (curve : Binary64 → Binary64) (b : Backlash) (a : Axis) : Value → Except Fault Axis
  | none => .ok { a with position := none }
  | some target =>
    let position := a.drive.clip target
    if b.active && !a.position.any position.same then do
      let deadband ← a.deadbandAlong curve b position
      return { a with position := some position, deadband }
    else .ok { a with position := some position }

theorem moveAlong_tanh : moveAlong Binary64.tanh = moveTo := by
  funext b a v
  cases v <;> rfl

/-! ### Pushes -/

theorem same_origin (hp : a.position = some p) (hnum : p.isNaN = false) :
    p.same a.origin = true := by
  simp only [origin, hp]
  split
  · rename_i hzero
    obtain ⟨place, hplace, hint⟩ := (Number.same_iff _ _).1 hzero
    exact (Number.same_iff _ _).2 ⟨place, hplace, Number.place?_zero.trans hint⟩
  · exact Number.same_self hnum

/-- A push has no sign that what it follows has not, and is a number just if that is one. -/
theorem exists_of_pushAlong (hcurve : Sigmoid curve) (h : pushAlong curve d = .ok p) :
    ∃ y, p = .real y ∧ y.isNaN = d.isNaN ∧
      (d.lt (.int 0) = false → y.lt Binary64.zero = false) ∧
      ((Number.int 0).lt d = false → Binary64.zero.lt y = false) := by
  have hkept (x : Binary64) : (curve x).isNaN = x.isNaN := by
    cases hx : x.isNaN with
    | true => exact hcurve.nan x hx
    | false => exact hcurve.isNaN hx
  cases d with
  | real x =>
    obtain rfl := Except.ok.inj h
    rw [Number.lt_zero, Number.zero_lt]
    exact ⟨curve x, rfl, hkept x, hcurve.lt_zero, hcurve.zero_lt⟩
  | int n =>
    simp only [pushAlong] at h
    cases hx : Whole.toReal? n with
    | none => simp [hx] at h
    | some x =>
      rw [hx] at h
      obtain rfl := Except.ok.inj h
      obtain rfl := Option.some.inj (Option.ite_none_right_eq_some.1 hx).2
      refine ⟨_, rfl, (hkept _).trans (Binary64.isNaN_ofInt n), fun hn => ?_, fun hn => ?_⟩
      · exact hcurve.lt_zero (Number.ofInt_lt_zero hn)
      · exact hcurve.zero_lt (Number.zero_lt_ofInt hn)

/-- Deadbands within limits are doubles, whatever they are written as. -/
theorem Bounded.exists_real (h : Bounded d) : ∃ x : Binary64,
    d.toBinary64? = some x ∧ d.same (.real x) = true ∧ x.isFinite = true := by
  obtain ⟨hfloor, hlimit⟩ := h
  cases d with
  | real x =>
    rw [deadbandFloor, Number.le_real, Binary64.le_iff] at hfloor
    rw [deadbandLimit, Number.le_real, Binary64.le_iff] at hlimit
    have hbound : Binary64.half.neg.rank = -Binary64.half.rank ∧
        Binary64.half.rank < Binary64.infinityWord := by decide
    refine ⟨x, rfl, Number.same_self hlimit.1, Binary64.isFinite_iff.2 ?_⟩
    have hrank : x.rank = x.magnitude ∨ x.rank = -x.magnitude := by
      unfold Binary64.rank
      split <;> simp
    omega
  | int n =>
    have hlow : (Number.int (-1)).lt (.int n) = true :=
      Number.lt_of_lt_of_le (by decide +kernel) hfloor
    have hhigh : ¬1 ≤ n := by
      intro hle
      have hone : (Number.int 1).le (.int n) = true := by
        rw [Number.le, Bool.or_eq_true]
        simp only [Number.lt, Number.same, decide_eq_true_eq]
        omega
      have hlt : deadbandLimit.lt (.int n) = true :=
        Number.lt_of_lt_of_le (by decide +kernel) hone
      exact Bool.false_ne_true ((Number.not_lt_of_le hlimit).symm.trans hlt)
    obtain rfl : n = 0 := by
      have := of_decide_eq_true hlow
      omega
    exact ⟨Binary64.zero, by decide +kernel, by decide +kernel, by decide⟩

theorem limitDeadband_of_isNaN (h : d.isNaN = true) : limitDeadband d = deadbandLimit := by
  have hlt (c : Number) : d.lt c = false := by
    rw [← Bool.not_eq_true]
    intro hlt
    rw [Number.isNaN_of_lt hlt] at h
    cases h
  simp [limitDeadband, Number.larger, Number.smaller, hlt]

theorem Bounded.le_limitDeadband (h : Bounded d) (hle : d.le p = true) :
    d.le (limitDeadband p) = true := by
  have hlarger : d.le (p.larger deadbandFloor) = true := by
    unfold Number.larger
    split
    · exact Number.le_trans hle (Number.le_of_lt ‹_›)
    · exact hle
  unfold limitDeadband Number.smaller
  split
  · exact hlarger
  · exact h.2

theorem Bounded.limitDeadband_le (h : Bounded d) (hle : p.le d = true) :
    (limitDeadband p).le d = true := by
  have hlarger : (p.larger deadbandFloor).le d = true := by
    unfold Number.larger
    split
    · exact h.1
    · exact hle
  unfold limitDeadband Number.smaller
  split
  · exact hlarger
  · rename_i hlimit
    refine Number.le_trans ?_ hlarger
    exact Number.le_of_not_lt (Number.isNaN_left_of_le hlarger) (by decide)
      (Bool.eq_false_iff.2 hlimit)

/-- A deadband that is pushed goes where the push points, and to its upper limit
if the push is not a number. -/
theorem Bounded.pushed (h : Bounded d) {y : Binary64} (hadd : d.add (.real y) = some q) :
    (Binary64.zero.le y = true → d.le (limitDeadband q) = true) ∧
      (y.le Binary64.zero = true → (limitDeadband q).le d = true) ∧
      (y.isNaN = true → limitDeadband q = deadbandLimit) := by
  obtain ⟨x, hx, hsame, hfinite⟩ := h.exists_real
  obtain ⟨m, n, -, hint, -⟩ | ⟨x', y', hx', hy', -, rfl⟩ := Number.combine_cases hadd
  · cases hint
  obtain rfl := Option.some.inj (hx.symm.trans hx')
  obtain rfl := Option.some.inj hy'
  refine ⟨fun hy => h.le_limitDeadband ?_, fun hy => h.limitDeadband_le ?_, fun hy => ?_⟩
  · rw [(Number.le_of_same hsame).2, Number.le_real]
    exact Binary64.le_add hfinite hy
  · rw [(Number.le_of_same hsame).1, Number.le_real]
    exact Binary64.add_le hfinite hy
  · exact limitDeadband_of_isNaN (Binary64.isNaN_add_of_isNaN hy)

/-! ### One move -/

/-- A move for which the scale times the distance is not a number. -/
def Unmeasured (s : Number) (a : Axis) (position : Number) : Prop :=
  ∃ delta ∈ position.sub a.origin, ∃ scaled ∈ s.mul delta, scaled.isNaN = true

/-- How far a move goes back can be measured with a scale that is positive and finite. -/
theorem not_unmeasured (hs : s.Proper) (hq : q.lt a.origin = true) : ¬a.Unmeasured s q := by
  rintro ⟨delta, hdelta, scaled, hscaled, hnan⟩
  have hnum := Number.isNaN_mul hs (Number.isNaN_sub hq hdelta) hscaled
  exact Bool.false_ne_true (hnum.symm.trans hnan)

theorem deadbandAlong_eq_ok (hscale : b.scale = some s) (hd : a.deadband = some d)
    (hq : q.same a.drive.low = false) (h : a.deadbandAlong curve b q = .ok v) :
    ∃ delta scaled push moved, q.sub a.origin = some delta ∧ s.mul delta = some scaled ∧
      pushAlong curve scaled = .ok push ∧ d.add push = some moved ∧
      v = some (limitDeadband moved) := by
  rw [deadbandAlong, hq, if_neg Bool.false_ne_true, hscale, hd] at h
  obtain ⟨delta, hdelta, h⟩ := Formula.bind_eq_ok_iff.1 h
  obtain ⟨scaled, hscaled, h⟩ := Formula.bind_eq_ok_iff.1 h
  obtain ⟨push, hpush, h⟩ := Formula.bind_eq_ok_iff.1 h
  obtain ⟨moved, hmoved, h⟩ := Formula.bind_eq_ok_iff.1 h
  exact ⟨delta, scaled, push, moved, Value.combine_some_eq_ok_iff.1 hdelta,
    Value.combine_some_eq_ok_iff.1 hscaled, hpush, Value.combine_some_eq_ok_iff.1 hmoved,
    (Except.ok.inj h).symm⟩

/-- A deadband goes up with a move up, and down with a move down that can be measured. -/
theorem direction_of_deadbandAlong (hcurve : Sigmoid curve) (hs : (Number.int 0).le s = true)
    (hscale : b.scale = some s) (hd : a.deadband = some d) (hbounded : Bounded d)
    (hq : q.same a.drive.low = false) (h : a.deadbandAlong curve b q = .ok v) :
    ∃ d', v = some d' ∧ Bounded d' ∧ (a.origin.le q = true → d.le d' = true) ∧
      (q.lt a.origin = true → d'.le d = true ∨ a.Unmeasured s q ∧ d' = deadbandLimit) := by
  obtain ⟨delta, scaled, push, moved, hdelta, hscaled, hpush, hmoved, rfl⟩ :=
    deadbandAlong_eq_ok hscale hd hq h
  obtain ⟨y, rfl, hnan, hup, hdown⟩ := exists_of_pushAlong hcurve hpush
  obtain ⟨hforth, hback, hlost⟩ := hbounded.pushed hmoved
  have hscaleSign := Number.not_lt_of_le hs
  refine ⟨_, rfl, bounded_limitDeadband moved, fun hle => ?_, fun hlt => ?_⟩
  · have hsign := hup (Number.mul_lt_zero hscaleSign (Number.sub_lt_zero hle hdelta) hscaled)
    cases hy : y.isNaN with
    | true => exact hlost hy ▸ hbounded.2
    | false => exact hforth ((Binary64.not_lt hy (by decide)).1 hsign)
  · have hle := Number.zero_lt_sub (Number.le_of_lt hlt) hdelta
    have hsign := hdown (Number.zero_lt_mul hscaleSign hle hscaled)
    cases hy : y.isNaN with
    | true => exact .inr ⟨⟨delta, hdelta, scaled, hscaled, hnan ▸ hy⟩, hlost hy⟩
    | false => exact .inl (hback ((Binary64.not_lt (by decide) hy).1 hsign))

/-- A move to another place than the one before. -/
theorem moveAlong_eq_ok {t : Number} (h : a.moveAlong curve b (some t) = .ok a') :
    a'.drive = a.drive ∧ a'.position = some (a.drive.clip t) ∧
      ((b.active && !a.position.any (a.drive.clip t).same) = true →
        a.deadbandAlong curve b (a.drive.clip t) = .ok a'.deadband) ∧
      ((b.active && !a.position.any (a.drive.clip t).same) = false →
        a'.deadband = a.deadband) := by
  unfold moveAlong at h
  cases hmoves : b.active && !a.position.any (a.drive.clip t).same with
  | true =>
    simp only [hmoves, if_true] at h
    obtain ⟨deadband, hdeadband, h⟩ := Formula.bind_eq_ok_iff.1 h
    obtain rfl := Except.ok.inj h
    exact ⟨rfl, rfl, fun _ => hdeadband, nofun⟩
  | false =>
    simp only [hmoves, Bool.false_eq_true, if_false] at h
    obtain rfl := Except.ok.inj h
    exact ⟨rfl, rfl, nofun, fun _ => rfl⟩

/-! ### Steps of a run -/

/-- An axis goes up. -/
def Rises (a a' : Axis) : Prop := ∃ p ∈ a.position, ∃ q ∈ a'.position, p.lt q = true

/-- An axis goes down, and not to its lower limit. -/
def Falls (a a' : Axis) : Prop :=
  ∃ p ∈ a.position, ∃ q ∈ a'.position, q.lt p = true ∧ q.same a.drive.low = false

/-- The deadband does not go down. -/
def Gains (a a' : Axis) : Prop := ∃ d ∈ a.deadband, ∃ d' ∈ a'.deadband, d.le d' = true

instance : DecidableRel Rises := fun a a' => by
  unfold Rises
  infer_instance

instance : DecidableRel Falls := fun a a' => by
  unfold Falls
  infer_instance

instance : DecidableRel Gains := fun a a' => by
  unfold Gains
  infer_instance

/-- An axis at a known place with a deadband, neither of them too low or, in the
case of the deadband, too high. -/
structure Known (a : Axis) : Prop where
  position : ∃ p ∈ a.position, a.drive.low.le p = true
  deadband : ∃ d ∈ a.deadband, Bounded d

/-- At the lower limit the deadband becomes that of home, unless the axis stood
there before; a deadband stays as it is where the axis does. -/
def Settles (b : Backlash) (a a' : Axis) : Prop := ∀ q ∈ a'.position,
  (a.position.any q.same = false → q.same a.drive.low = true → a'.deadband = b.home) ∧
    (a.position.any q.same = true → a'.deadband = a.deadband)

/-- An axis is left alone or moved. -/
def Step (curve : Binary64 → Binary64) (b : Backlash) (a a' : Axis) : Prop :=
  a' = a ∨ ∃ v, a.moveAlong curve b v = .ok a'

theorem Step.drive (h : Step curve b a a') : a'.drive = a.drive := by
  obtain rfl | ⟨v, hmove⟩ := h
  · rfl
  · cases v with
    | none =>
      obtain rfl := Except.ok.inj hmove
      rfl
    | some t => exact (moveAlong_eq_ok hmove).1

theorem Step.settles (hactive : b.active = true) (h : Step curve b a a') : Settles b a a' := by
  obtain rfl | ⟨v, hmove⟩ := h
  · refine fun q hq => ⟨fun hother hlow => ?_, fun _ => rfl⟩
    rw [hq, Option.any_some, Number.same_self (Number.isNaN_left_of_le (Number.same_le hlow))]
      at hother
    cases hother
  · cases v with
    | none =>
      obtain rfl := Except.ok.inj hmove
      intro q hq
      cases hq
    | some t =>
      obtain ⟨-, hposition, hmoved, hstayed⟩ := moveAlong_eq_ok hmove
      rw [Settles, hposition]
      rintro q ⟨⟩
      refine ⟨fun hother hlow => ?_, fun hsame => hstayed (by rw [hsame, Bool.not_true, Bool.and_false])⟩
      have hdeadband := hmoved (by rw [hactive, hother]; rfl)
      rw [deadbandAlong, hlow, if_pos rfl] at hdeadband
      exact (Except.ok.inj hdeadband).symm

/-- A step to another place. -/
theorem Step.pushed (hactive : b.active = true) (h : Step curve b a a') (hp : a.position = some p)
    (hq : a'.position = some q) (hnum : p.isNaN = false) (hne : q.same p = false) :
    a.drive.low.le q = true ∧ a.deadbandAlong curve b q = .ok a'.deadband := by
  obtain rfl | ⟨v, hmove⟩ := h
  · obtain rfl := Option.some.inj (hp.symm.trans hq)
    rw [Number.same_self hnum] at hne
    cases hne
  · cases v with
    | none =>
      obtain rfl := Except.ok.inj hmove
      cases hq
    | some t =>
      obtain ⟨-, hposition, hmoved, -⟩ := moveAlong_eq_ok hmove
      obtain rfl := Option.some.inj (hposition.symm.trans hq)
      exact ⟨a.drive.le_clip t, hmoved (by rw [hactive, hp, Option.any_some, hne]; rfl)⟩

theorem Step.rises (hcurve : Sigmoid curve) (hactive : b.active = true)
    (hscale : b.scale = some s) (hs : (Number.int 0).le s = true) (hstep : Step curve b a a')
    (hknown : a.Known) (hrises : a.Rises a') : a.Gains a' ∧ a'.Known := by
  obtain ⟨p, hp, q, hq, hlt⟩ := hrises
  obtain ⟨⟨p', hp', hlow⟩, d, hd, hbounded⟩ := hknown
  obtain rfl := Option.some.inj (hp.symm.trans hp')
  have hnum := Number.isNaN_of_lt hlt
  obtain ⟨hlimit, hdeadband⟩ :=
    hstep.pushed hactive hp hq hnum (Number.same_eq_false_of_lt hlt).2
  have hoff : q.same a.drive.low = false :=
    (Number.same_eq_false_of_lt (Number.lt_of_le_of_lt hlow hlt)).2
  obtain ⟨d', hd', hbounded', hup, -⟩ :=
    direction_of_deadbandAlong hcurve hs hscale hd hbounded hoff hdeadband
  have horigin := (Number.le_of_same (same_origin hp hnum)).2.1 (Number.le_of_lt hlt)
  exact ⟨⟨d, hd, d', hd', hup horigin⟩, ⟨q, hq, hstep.drive ▸ hlimit⟩, d', hd', hbounded'⟩

theorem Step.falls (hcurve : Sigmoid curve) (hactive : b.active = true)
    (hscale : b.scale = some s) (hs : (Number.int 0).le s = true) (hstep : Step curve b a a')
    (hknown : a.Known) (hfalls : a.Falls a') :
    (a'.Gains a ∨ (∃ q ∈ a'.position, q.lt a.origin = true ∧ a.Unmeasured s q) ∧
      a'.deadband = some deadbandLimit) ∧ a'.Known := by
  obtain ⟨p, hp, q, hq, hlt, hoff⟩ := hfalls
  obtain ⟨-, d, hd, hbounded⟩ := hknown
  have hnum := Number.isNaN_of_le (Number.le_of_lt hlt)
  obtain ⟨hlimit, hdeadband⟩ :=
    hstep.pushed hactive hp hq hnum (Number.same_eq_false_of_lt hlt).1
  obtain ⟨d', hd', hbounded', -, hdown⟩ :=
    direction_of_deadbandAlong hcurve hs hscale hd hbounded hoff hdeadband
  have horigin : q.lt a.origin = true :=
    Number.lt_of_lt_of_le hlt (Number.same_le (same_origin hp hnum))
  refine ⟨(hdown horigin).imp (fun hle => ⟨d', hd', d, hd, hle⟩) ?_,
    ⟨q, hq, hstep.drive ▸ hlimit⟩, d', hd', hbounded'⟩
  rintro ⟨hlost, rfl⟩
  exact ⟨⟨q, hq, horigin, hlost⟩, hd'⟩

end Axis

namespace Frame

open Axis

variable {curve : Binary64 → Binary64} {f : Frame} {i : Nat} {a : Axis} {c : Command} {s : Number}

/-! ### Runs -/

/-- Moves axes in order along a curve, up to the first that fails. -/
def moveAxesAlong (curve : Binary64 → Binary64) (b : Backlash) : List Axis → List Value → List Axis
  | a :: as, v :: vs =>
    match a.moveAlong curve b v with
    | .error _ => a :: as
    | .ok a => a :: moveAxesAlong curve b as vs
  | as, _ => as

/-- The frame after a command that moves axes, with a curve in place of the
hyperbolic tangent. -/
def obeyAlong (curve : Binary64 → Binary64) (f : Frame) (c : Command) : Frame :=
  match f.aims c with
  | none => f
  | some targets =>
    if targets.length ≠ f.axes.length then f
    else { f with axes := moveAxesAlong curve f.backlash f.axes targets }

/-- A command that is a move, and neither forgets positions nor goes on a walk. -/
def Command.Moves : Command → Prop
  | .clear | .examples _ => False
  | _ => True

instance : DecidablePred Command.Moves
  | .clear | .examples _ => inferInstanceAs (Decidable False)
  | .home | .homeAxis _ | .moveTo _ | .setPositions _ => inferInstanceAs (Decidable True)

theorem moveAxesAlong_tanh (b : Backlash) (axes : List Axis) (targets : List Value) :
    moveAxesAlong Binary64.tanh b axes targets = (moveAxes b axes targets).2 := by
  induction axes, targets using moveAxes.induct b with
  | case1 a as v vs e hfails => simp [moveAxesAlong, moveAxes, moveAlong_tanh, hfails]
  | case2 a as v vs a' hmoved r rest hrest ih =>
    simp [moveAxesAlong, moveAxes, moveAlong_tanh, hmoved, ih]
  | case3 axes targets hne =>
    rw [moveAxes.eq_2 b axes targets hne, moveAxesAlong.eq_2 Binary64.tanh b axes targets hne]

/-- With the hyperbolic tangent itself moves are what they are. -/
theorem obeyAlong_tanh (hc : c.Moves) : f.obeyAlong Binary64.tanh c = f.obey c := by
  have hclear : c ≠ .clear := by
    rintro rfl
    exact hc
  have hwalk (survey : Survey) : c ≠ .examples survey := by
    rintro rfl
    exact hc
  cases haims : f.aims c with
  | none => rw [obey_of_aims_eq_none haims hclear hwalk, obeyAlong, haims]
  | some targets =>
    rw [obey_of_aims_eq_some haims]
    simp only [obeyAlong, haims, setPositions, moveAxesAlong_tanh]
    split <;> rfl

theorem foldl_obeyAlong_tanh {commands : List Command} (h : ∀ c ∈ commands, c.Moves) :
    commands.foldl (obeyAlong Binary64.tanh) f = f.obeyAll commands := by
  induction commands generalizing f with
  | nil => rfl
  | cons c commands ih =>
    rw [List.forall_mem_cons] at h
    rw [List.foldl_cons, obeyAlong_tanh h.1, ih h.2]
    rfl

theorem backlash_obeyAlong (curve : Binary64 → Binary64) (f : Frame) (c : Command) :
    (f.obeyAlong curve c).backlash = f.backlash := by
  unfold obeyAlong
  split
  · rfl
  · split <;> rfl

/-- Moving axes leaves an axis alone or moves it to its target. -/
theorem getElem?_moveAxesAlong {b : Backlash} {axes : List Axis} {targets : List Value} {v : Value}
    (ha : axes[i]? = some a) (hv : targets[i]? = some v) :
    ∃ a', (moveAxesAlong curve b axes targets)[i]? = some a' ∧
      (a' = a ∨ a.moveAlong curve b v = .ok a') := by
  induction i generalizing axes targets with
  | zero =>
    cases axes with
    | nil => cases ha
    | cons first axes =>
      cases targets with
      | nil => cases hv
      | cons target targets =>
        obtain rfl := Option.some.inj ha
        obtain rfl := Option.some.inj hv
        cases hmove : first.moveAlong curve b target <;> simp [moveAxesAlong, hmove]
  | succ i ih =>
    cases axes with
    | nil => cases ha
    | cons first axes =>
      cases targets with
      | nil => cases hv
      | cons target targets =>
        cases hmove : first.moveAlong curve b target with
        | error e => exact ⟨a, by simpa [moveAxesAlong, hmove] using ha, .inl rfl⟩
        | ok first' => simpa [moveAxesAlong, hmove] using ih ha hv

/-- A command leaves an axis alone or moves it to its target. -/
theorem getElem?_obeyAlong (curve : Binary64 → Binary64) (ha : f.axes[i]? = some a) (c : Command) :
    ∃ a', (f.obeyAlong curve c).axes[i]? = some a' ∧ (a' = a ∨ ∃ targets v,
      f.aims c = some targets ∧ targets[i]? = some v ∧
        a.moveAlong curve f.backlash v = .ok a') := by
  cases haims : f.aims c with
  | none => exact ⟨a, by simpa [obeyAlong, haims] using ha, .inl rfl⟩
  | some targets =>
    by_cases hlength : targets.length = f.axes.length
    · obtain ⟨hi, -⟩ := List.getElem?_eq_some_iff.1 ha
      obtain ⟨v, hv⟩ : ∃ v, targets[i]? = some v :=
        ⟨_, List.getElem?_eq_getElem (hlength ▸ hi)⟩
      obtain ⟨a', hget, hcases⟩ := getElem?_moveAxesAlong (b := f.backlash) ha hv
      refine ⟨a', by simpa [obeyAlong, haims, hlength] using hget, hcases.imp_right fun hmove => ?_⟩
      exact ⟨targets, v, rfl, hv, hmove⟩
    · exact ⟨a, by simpa [obeyAlong, haims, hlength] using ha, .inl rfl⟩

/-- One axis of a frame, at first and after each of some commands. -/
def trail (curve : Binary64 → Binary64) (i : Nat) : Frame → List Command → List Axis
  | f, [] => f.axes[i]?.toList
  | f, c :: commands => f.axes[i]?.toList ++ trail curve i (f.obeyAlong curve c) commands

theorem exists_trail_eq_cons (curve : Binary64 → Binary64) (ha : f.axes[i]? = some a)
    (commands : List Command) : ∃ rest, f.trail curve i commands = a :: rest := by
  cases commands <;> simp [trail, ha]

/-- What every step has that continues what is known of an axis, a run has. -/
theorem isChain_trail {P : Axis → Prop} {R S : Axis → Axis → Prop} {b : Backlash}
    (hstep : ∀ a a', P a → Step curve b a a' → R a a' → S a a' ∧ P a')
    (hb : f.backlash = b) (ha : f.axes[i]? = some a) (hP : P a) (commands : List Command)
    (hR : (f.trail curve i commands).IsChain R) : (f.trail curve i commands).IsChain S := by
  induction commands generalizing f a with
  | nil => simp [trail, ha]
  | cons c commands ih =>
    obtain ⟨a', ha', hcases⟩ := getElem?_obeyAlong curve ha c
    obtain ⟨rest, hrest⟩ := exists_trail_eq_cons curve ha' commands
    rw [trail, ha, Option.toList_some, List.singleton_append, hrest] at hR ⊢
    rw [List.isChain_cons_cons] at hR ⊢
    have hmoved : Step curve b a a' := hcases.imp_right fun ⟨_, v, _, _, hmove⟩ => ⟨v, hb ▸ hmove⟩
    obtain ⟨hS, hP'⟩ := hstep a a' hP hmoved hR.1
    have hchain := ih ((backlash_obeyAlong curve f c).trans hb) ha' hP' (hrest ▸ hR.2)
    exact ⟨hS, hrest ▸ hchain⟩

/-- Deadbands follow the direction of moves, if the scale is not negative. From a
known place on, no deadband goes down along moves upwards. Along moves downwards
that stay off the lower limit none goes up, except to its upper limit in a move
that cannot be measured, which with a scale that is positive and finite every
move can. A move to the lower limit leaves the deadband of home, and one whose
target is where the axis stands leaves the axis as it is. With the hyperbolic
tangent as the curve these runs are those of the frame. -/
theorem deadband_follows_direction (hcurve : Sigmoid curve) (hactive : f.backlash.active = true)
    (hscale : f.backlash.scale = some s) (hs : (Number.int 0).le s = true)
    (ha : f.axes[i]? = some a) (commands : List Command) :
    (a.Known → (f.trail curve i commands).IsChain Rises →
      (f.trail curve i commands).IsChain Gains) ∧
    (a.Known → (f.trail curve i commands).IsChain Falls →
      ((f.trail curve i commands).IsChain fun a a' => a'.Gains a ∨
        (∃ q ∈ a'.position, a.Unmeasured s q) ∧ a'.deadband = some deadbandLimit) ∧
      (s.Proper → (f.trail curve i commands).IsChain fun a a' => a'.Gains a)) ∧
    (f.trail curve i commands).IsChain (Settles f.backlash) ∧
    (∀ c targets v p, f.aims c = some targets → targets[i]? = some (some v) →
      a.position = some p → p.same (a.drive.clip v) = true →
      ∃ a', (f.obeyAlong curve c).axes[i]? = some a' ∧ a.StandsAs a') ∧
    (curve = Binary64.tanh → (∀ c ∈ commands, c.Moves) →
      commands.foldl (obeyAlong curve) f = f.obeyAll commands) := by
  refine ⟨fun hknown hrises => ?_, fun hknown hfalls => ⟨?_, fun hproper => ?_⟩, ?_, ?_, ?_⟩
  · refine isChain_trail (fun a a' hP hstep hR => ?_) rfl ha hknown commands hrises
    exact hstep.rises hcurve hactive hscale hs hP hR
  · refine isChain_trail (fun a a' hP hstep hR => ?_) rfl ha hknown commands hfalls
    obtain ⟨hS, hP'⟩ := hstep.falls hcurve hactive hscale hs hP hR
    exact ⟨hS.imp_right (And.imp_left fun ⟨q, hq, _, hlost⟩ => ⟨q, hq, hlost⟩), hP'⟩
  · refine isChain_trail (fun a a' hP hstep hR => ?_) rfl ha hknown commands hfalls
    obtain ⟨hS, hP'⟩ := hstep.falls hcurve hactive hscale hs hP hR
    refine ⟨hS.resolve_right ?_, hP'⟩
    rintro ⟨⟨q, -, hlt, hlost⟩, -⟩
    exact not_unmeasured hproper hlt hlost
  · refine isChain_trail (P := fun _ => True) (R := fun _ _ => True)
      (fun a a' _ hstep _ => ⟨hstep.settles hactive, trivial⟩) rfl ha trivial commands ?_
    exact (List.pairwise_of_forall fun _ _ => trivial).isChain
  · intro c targets v p haims hv hp hsame
    obtain ⟨a', hget, rfl | ⟨targets', v', haims', hv', hmove⟩⟩ :=
      getElem?_obeyAlong curve ha c
    · exact ⟨_, hget, .refl _⟩
    · obtain rfl := Option.some.inj (haims.symm.trans haims')
      obtain rfl := Option.some.inj (hv.symm.trans hv')
      obtain ⟨-, hposition, -, hstayed⟩ := moveAlong_eq_ok hmove
      refine ⟨a', hget, ?_, hstayed ?_⟩
      · rw [hp, hposition]
        exact .some (.inr hsame)
      · rw [hp, Option.any_some, Number.same_symm hsame, Bool.not_true, Bool.and_false]
  · rintro rfl hmoves
    exact foldl_obeyAlong_tanh hmoves

/-- An axis halfway between its limits, with a deadband in the middle too. -/
def halfway : Frame where
  axes := [⟨⟨.int 0, .int 100, some "X", rfl⟩, some (.int 50), some (.real .zero)⟩]
  backlash := ⟨true, some (.int 3), some (.real .half)⟩
  stream := .ofSeed 0
  calibration := none

/-- Up beyond the upper limit, and down to somewhere above the lower one. -/
theorem deadband_follows_direction_halfway :
    let up := halfway.trail .sign 0 [.moveTo [some (.int 70)], .setPositions [some (.int 120)]]
    let down := halfway.trail .sign 0 [.moveTo [some (.int 30)], .moveTo [some (.int 10)]]
    up.IsChain Rises ∧ up.IsChain Gains ∧ down.IsChain Falls ∧
      down.IsChain fun a a' => a'.Gains a := by
  have hknown : (halfway.axes[0]).Known :=
    ⟨⟨.int 50, rfl, by decide⟩, .real .zero, rfl, by decide +kernel⟩
  have hup := deadband_follows_direction sigmoid_sign (f := halfway) rfl rfl (by decide +kernel)
    (i := 0) rfl [.moveTo [some (.int 70)], .setPositions [some (.int 120)]]
  have hdown := deadband_follows_direction sigmoid_sign (f := halfway) rfl rfl (by decide +kernel)
    (i := 0) rfl [.moveTo [some (.int 30)], .moveTo [some (.int 10)]]
  have hrises : (halfway.trail .sign 0
      [.moveTo [some (.int 70)], .setPositions [some (.int 120)]]).IsChain Rises := by
    decide +kernel
  have hfalls : (halfway.trail .sign 0
      [.moveTo [some (.int 30)], .moveTo [some (.int 10)]]).IsChain Falls := by
    decide +kernel
  exact ⟨hrises, hup.1 hknown hrises, hfalls,
    (hdown.2.1 hknown hfalls).2 (by decide +kernel)⟩

/-- The largest distances are beyond the range of doubles, and the scale is zero. -/
def vast : Frame where
  axes := [⟨⟨.real ⟨0xffee42d130773b76⟩, .real ⟨0x7fee42d130773b76⟩, some "X", by decide +kernel⟩,
    none, some (.real .zero)⟩]
  backlash := ⟨true, some (.real .zero), some (.real .zero)⟩
  stream := .ofSeed 0
  calibration := none

/-- Far up to the upper limit, and then down to near the lower one. -/
def farAndBack : List Command :=
  [.setPositions [some (.real ⟨0x7fee42d130773b76⟩)],
    .setPositions [some (.real ⟨0xffec7b1f3cac7433⟩)]]

/-- A deadband goes up on the way down, where the distance is infinite and the
scale is zero. -/
theorem deadband_rises_on_the_way_down :
    Sigmoid Binary64.sign ∧
      make (vast.drives.map fun d => { d with name := none }) vast.backlash (.ofSeed 0) .null none =
        .ok vast ∧
      ((vast.trail .sign 0 farAndBack).map fun a => (a.position, a.deadband)) =
        [(none, some (.real .zero)),
          (some (.real ⟨0x7fee42d130773b76⟩), some (.real .zero)),
          (some (.real ⟨0xffec7b1f3cac7433⟩), some (.real .half))] ∧
      (((vast.trail .sign 0 farAndBack).drop 1).IsChain fun a a' => a.Falls a' ∧ ¬a'.Gains a) :=
  ⟨sigmoid_sign, rfl, by decide +kernel, by decide +kernel⟩

end Frame

end Gantry
