import Gantry.Proofs.Frame.Independence

/-!
Axes that are left out. A command that leaves an axis out moves it too, to
where it is, and a state that is put into a frame can place an axis anywhere.
So such an axis stands as before just when its drive would put it there: the
main statement says so for numbers as they are written and for their values.
-/

namespace Gantry

namespace Drive

variable (d : Drive) {p : Number}

/-- A position within the limits stays, or is written as the lower limit. -/
theorem clip_cases (hlow : d.low.le p = true) (hhigh : p.le d.high = true) :
    d.clip p = p ∨ d.clip p = d.low ∧ d.low.same p = true := by
  have hbelow : d.high.lt p = false := Number.not_lt_of_le hhigh
  have hlimits : d.high.lt d.low = false := Number.not_lt_of_le (Number.le_of_lt d.low_lt_high)
  cases hlt : d.low.lt p with
  | true => exact .inl (by simp [clip, Number.larger, Number.smaller, hlt, hbelow])
  | false =>
      have hsame : d.low.same p = true := by simpa [Number.le, hlt] using hlow
      exact .inr ⟨by simp [clip, Number.larger, Number.smaller, hlt, hlimits], hsame⟩

/-- A position within the limits keeps its value. -/
theorem same_clip (hlow : d.low.le p = true) (hhigh : p.le d.high = true) :
    p.same (d.clip p) = true := by
  obtain heq | ⟨heq, hsame⟩ := d.clip_cases hlow hhigh
  · rw [heq]
    exact Number.same_self (Number.isNaN_of_le hlow)
  · rw [heq]
    exact Number.same_symm hsame

end Drive

namespace Axis

variable {a a' : Axis} {b : Backlash}

/-- An axis within its limits, or nowhere. -/
def Inside (a : Axis) : Prop :=
  ∀ p, a.position = some p → a.drive.low.le p = true ∧ p.le a.drive.high = true

instance (a : Axis) : Decidable a.Inside :=
  decidable_of_iff (∀ p ∈ a.position, a.drive.low.le p = true ∧ p.le a.drive.high = true) Iff.rfl

/-- An axis stands as another: at the same place, however that is written, and
with the same deadband. -/
def StandsAs (a a' : Axis) : Prop :=
  Option.Rel (fun p q => p = q ∨ p.same q = true) a.position a'.position ∧
    a'.deadband = a.deadband

theorem StandsAs.refl (a : Axis) : a.StandsAs a := by
  refine ⟨?_, rfl⟩
  cases a.position with
  | none => exact .none
  | some p => exact .some (.inl rfl)

theorem Settled.inside (h : a.Settled) : a.Inside := fun p hp =>
  h p hp ▸ ⟨a.drive.le_clip p, a.drive.clip_le p⟩

/-- An axis that is moved to where it is keeps its drive, and stays just when
its drive would put it there. -/
theorem moveTo_position (h : a.moveTo b a.position = .ok a') :
    a'.drive = a.drive ∧ (a' = a ↔ a.Settled) ∧ (a.StandsAs a' ↔ a.Inside) := by
  obtain ⟨deadband, heq, -⟩ := exists_eq_of_moveTo h
  have hposition : a'.position = a.position.map a.drive.clip := by rw [heq]
  refine ⟨drive_of_moveTo h, ⟨fun hstays p hp => ?_, fun hsettled => ?_⟩,
    fun hstands p hp => ?_, fun hinside => ?_⟩
  · rw [hstays, hp] at hposition
    exact (Option.some.inj hposition).symm
  · have hmoved := hsettled.moved_position (b := b)
    rwa [moved, h] at hmoved
  · have hplaced := hstands.1
    rw [hposition, hp] at hplaced
    obtain hplaced := Option.rel_some_some.1 hplaced
    obtain hclip | hsame := hplaced
    · exact hclip ▸ ⟨a.drive.le_clip p, a.drive.clip_le p⟩
    · have hle {q : Number} := Number.le_of_same (a := q) hsame
      exact ⟨hle.1.2 (a.drive.le_clip p), hle.2.2 (a.drive.clip_le p)⟩
  · cases hp : a.position with
    | none =>
        rw [hp] at h hposition
        obtain rfl := Except.ok.inj h
        exact ⟨by rw [hp]; exact .none, rfl⟩
    | some p =>
        obtain ⟨hlow, hhigh⟩ := hinside p hp
        have hsame := a.drive.same_clip hlow hhigh
        rw [hp] at h hposition
        have hstay : a.moveTo b (some p) = .ok { a with position := some (a.drive.clip p) } := by
          simp [Axis.moveTo, hp, Number.same_symm hsame]
        obtain rfl := Except.ok.inj (hstay.symm.trans h)
        exact ⟨by rw [hp]; exact .some (.inr hsame), rfl⟩

end Axis

namespace Frame

open Axis

variable {f : Frame} {b : Backlash} {i : Nat} {c : Command} {a : Axis}

/-- A command that says nothing to an axis: it homes another one, or has no
target for it. -/
def Command.Omits (n i : Nat) : Command → Prop
  | .homeAxis axis => axis.same (.int i) = false
  | .moveTo targets => targets.length = n ∧ targets[i]? = some none
  | _ => False

instance (n i : Nat) : (c : Command) → Decidable (c.Omits n i)
  | .homeAxis axis => inferInstanceAs (Decidable (axis.same (.int i) = false))
  | .moveTo targets => inferInstanceAs (Decidable (targets.length = n ∧ targets[i]? = some none))
  | .home | .setPositions _ | .clear | .examples _ => inferInstanceAs (Decidable False)

/-- An axis that is left out is to be moved to where it is. -/
theorem aims_of_omits (ha : f.axes[i]? = some a) (hc : c.Omits f.axes.length i)
    {targets : List Value} (haims : f.aims c = some targets) :
    targets.length = f.axes.length ∧ targets[i]? = some a.position := by
  have hfits : c.Fits f.axes.length := by
    cases c with
    | homeAxis axis => trivial
    | moveTo given => exact hc.1
    | _ => exact hc.elim
  have honly : c.only i = none := by
    cases c with
    | homeAxis axis => exact if_neg (Bool.eq_false_iff.1 hc)
    | moveTo given =>
        simp only [Command.only, List.getD_eq_getElem?_getD, hc.2]
        rfl
    | _ => exact hc.elim
  have hclear : c ≠ .clear := by
    rintro rfl
    exact hc
  obtain ⟨-, -, c', -, -, -, hsome, -⟩ | ⟨-, htargets⟩ :=
    aims_only (g := { f with axes := [a.renamed none] }) ha rfl hfits hclear
  · rw [honly] at hsome
    cases hsome
  · exact htargets targets haims

/-- Moving axes comes past one that it moves, or leaves that one as it was. -/
theorem getElem?_moveAxes_cases {axes : List Axis} {targets : List Value} {v : Value}
    (ha : axes[i]? = some a) (hv : targets[i]? = some v) :
    ∃ a', (moveAxes b axes targets).2[i]? = some a' ∧
      ((moveAxes b (axes.take (i + 1)) (targets.take (i + 1))).1 = .ok () ∧
          a.moveTo b v = .ok a' ∨
        (moveAxes b (axes.take (i + 1)) (targets.take (i + 1))).1 ≠ .ok () ∧ a' = a) := by
  induction i generalizing axes targets with
  | zero =>
      cases axes with
      | nil => cases ha
      | cons first axes =>
          cases targets with
          | nil => cases hv
          | cons target targets =>
              obtain rfl := Option.some.inj ha
              obtain rfl := Option.some.inj hv
              cases hmove : first.moveTo b target <;> simp [moveAxes, hmove]
  | succ i ih =>
      cases axes with
      | nil => cases ha
      | cons first axes =>
          cases targets with
          | nil => cases hv
          | cons target targets =>
              cases hmove : first.moveTo b target with
              | error e => exact ⟨a, by simpa [moveAxes, hmove] using ha, by simp [moveAxes, hmove]⟩
              | ok first' =>
                  obtain ⟨a', hget, hcases⟩ := ih ha hv
                  exact ⟨a', by simpa [moveAxes, hmove] using hget,
                    by simpa [moveAxes, hmove] using hcases⟩

/-- A command that moves axes and comes past one of them. -/
def Passes (f : Frame) (i : Nat) (c : Command) : Prop := ∃ targets, f.aims c = some targets ∧
  (moveAxes f.backlash (f.axes.take (i + 1)) (targets.take (i + 1))).1 = .ok ()

/-- What becomes of an axis that a command leaves out. -/
theorem exists_axis_obey_omits (ha : f.axes[i]? = some a) (hc : c.Omits f.axes.length i) :
    ∃ a', (f.obey c).axes[i]? = some a' ∧
      (f.Passes i c ∧ a.moveTo f.backlash a.position = .ok a' ∨ ¬f.Passes i c ∧ a' = a) := by
  cases haims : f.aims c with
  | none =>
      rw [obey_of_aims_eq_none haims (by rintro rfl; exact hc) (by rintro survey rfl; exact hc)]
      refine ⟨a, ha, .inr ⟨?_, rfl⟩⟩
      rintro ⟨targets, hsome, -⟩
      rw [haims] at hsome
      cases hsome
  | some targets =>
      obtain ⟨hlength, hv⟩ := aims_of_omits ha hc haims
      obtain ⟨a', hget, hcases⟩ := getElem?_moveAxes_cases (b := f.backlash) ha hv
      have hpasses : f.Passes i c ↔
          (moveAxes f.backlash (f.axes.take (i + 1)) (targets.take (i + 1))).1 = .ok () :=
        ⟨fun ⟨given, hgiven, hok⟩ => Option.some.inj (haims.symm.trans hgiven) ▸ hok,
          fun hok => ⟨targets, haims, hok⟩⟩
      rw [obey_of_aims_eq_some haims, setPositions, if_neg (not_not.2 hlength), hpasses]
      exact ⟨a', hget, hcases⟩

/-- An axis that a command leaves out keeps its drive. It stays exactly as it is
just when its drive would put it where it is, or the command fails before it
comes past it; and it keeps its place and its deadband, however the place is
written, just when it was nowhere or within its limits, or the command fails. -/
theorem axis_obey_omits (ha : f.axes[i]? = some a) (hc : c.Omits f.axes.length i) :
    ∃ a', (f.obey c).axes[i]? = some a' ∧ a'.drive = a.drive ∧
      (a' = a ↔ a.Settled ∨ ¬f.Passes i c) ∧ (a.StandsAs a' ↔ a.Inside ∨ ¬f.Passes i c) := by
  obtain ⟨a', hget, ⟨hpasses, hmove⟩ | ⟨hfails, rfl⟩⟩ := exists_axis_obey_omits ha hc
  · obtain ⟨hdrive, hsettled, hinside⟩ := moveTo_position hmove
    simp only [hpasses, not_true_eq_false, or_false]
    exact ⟨a', hget, hdrive, hsettled, hinside⟩
  · exact ⟨a', hget, rfl, iff_of_true rfl (.inr hfails), iff_of_true (.refl a') (.inr hfails)⟩

/-- Two axes with deadbands, the first of which some state has put below its limits. -/
def astray : Frame where
  axes := placeAxes pair.axes [some (.int (-5)), some (.int 3)] [some (.int 0), some (.int 0)]
  backlash := pair.backlash
  stream := pair.stream
  calibration := none

/-- The second axis is left out of a move of the first, and stays. -/
theorem axis_obey_omits_astray : ∃ a a',
    astray.axes[1]? = some a ∧ Command.Omits astray.axes.length 1 (.moveTo [some (.int 0), none]) ∧
      (astray.obey (.moveTo [some (.int 0), none])).axes[1]? = some a' ∧ a.StandsAs a' := by
  have ha : astray.axes[1]? =
      some ⟨⟨.int (-5), .int 5, some "Y", rfl⟩, some (.int 3), some (.int 0)⟩ := rfl
  have homits : Command.Omits astray.axes.length 1 (.moveTo [some (.int 0), none]) := by decide
  obtain ⟨a', hget, -, -, hstands⟩ := axis_obey_omits ha homits
  exact ⟨_, a', ha, homits, hget, hstands.2 (.inl (by decide +kernel))⟩

/-- A state that can be put into a frame, and in which an axis that a move leaves
out does not stay: neither its place nor its deadband. -/
theorem not_standsAs_astray :
    pair.setState [some (.int (-5)), some (.int 3), some (.int 0), some (.int 0)] = .ok astray ∧
      Command.Omits astray.axes.length 0 (.moveTo [none, none]) ∧
      astray.state = [some (.int (-5)), some (.int 3), some (.int 0), some (.int 0)] ∧
      (astray.obey (.moveTo [none, none])).state =
        [some (.int 0), some (.int 3), some (.real .half), some (.int 0)] :=
  ⟨rfl, by decide, by decide +kernel, by decide +kernel⟩

end Frame

end Gantry
