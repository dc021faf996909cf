import Gantry.Frame.Walk
import Gantry.Proofs.Formula.Arithmetic
import Gantry.Proofs.Number.Order

/-!
Where axes can be. Whatever a frame is told to do, and however far it gets, an
axis is at a position that its drive allows or at none that is known, its
deadband stays within limits, and at the lower limit the deadband is the one of
axes at home. So homing a frame always leads to one and the same state.
-/

namespace Gantry

namespace Drive

variable (d : Drive)

theorem le_clip (position : Number) : d.low.le (d.clip position) = true :=
  (Number.between_smaller_larger d.low_lt_high position).1

theorem clip_le (position : Number) : (d.clip position).le d.high = true :=
  (Number.between_smaller_larger d.low_lt_high position).2

theorem isNaN_low : d.low.isNaN = false := Number.isNaN_of_lt d.low_lt_high

@[simp] theorem clip_low : d.clip d.low = d.low := by
  have hhigh : d.high.lt d.low = false := Number.not_lt_of_le (Number.le_of_lt d.low_lt_high)
  simp [clip, Number.larger, Number.smaller, hhigh]

end Drive

namespace Axis

variable {a a' : Axis} {b : Backlash}

/-- A deadband within its limits. -/
def Bounded (d : Number) : Prop := deadbandFloor.le d = true ∧ d.le deadbandLimit = true

instance (d : Number) : Decidable (Bounded d) := by unfold Bounded; infer_instance

theorem bounded_limitDeadband (d : Number) : Bounded (limitDeadband d) :=
  Number.between_smaller_larger_symm (by decide) d

/-- An axis within the limits of its drive, whose deadband is within limits too
and tells whether the axis is at home. -/
structure Sound (b : Backlash) (a : Axis) : Prop where
  position : ∀ p, a.position = some p → a.drive.low.le p = true ∧ p.le a.drive.high = true
  deadband : b.active = true → ∃ d, a.deadband = some d ∧ Bounded d
  home : b.active = true → ∀ p, a.position = some p → p.same a.drive.low = true →
    a.deadband = b.home

/-- An axis at its lower limit. -/
def homed (b : Backlash) (a : Axis) : Axis :=
  { a with position := some a.drive.low, deadband := if b.active then b.home else a.deadband }

/-- The deadband after a move is the one at home exactly as it should be. -/
theorem bounded_deadbandAt (hhome : ∃ h, b.home = some h ∧ Bounded h) {position : Number}
    {deadband : Value} (h : a.deadbandAt b position = .ok deadband) :
    (∃ d, deadband = some d ∧ Bounded d) ∧
      (position.same a.drive.low = true → deadband = b.home) := by
  unfold deadbandAt at h
  split at h
  · obtain rfl := Except.ok.inj h
    exact ⟨hhome, fun _ => rfl⟩
  · rename_i hlow
    obtain ⟨delta, -, h⟩ := Formula.bind_eq_ok_iff.1 h
    obtain ⟨scaled, -, h⟩ := Formula.bind_eq_ok_iff.1 h
    obtain ⟨push, -, h⟩ := Formula.bind_eq_ok_iff.1 h
    obtain ⟨moved, -, h⟩ := Formula.bind_eq_ok_iff.1 h
    obtain rfl := Except.ok.inj h
    exact ⟨⟨_, rfl, bounded_limitDeadband moved⟩, fun hsame => absurd hsame hlow⟩

/-- What moving an axis changes. -/
theorem exists_eq_of_moveTo {target : Value} (h : a.moveTo b target = .ok a') :
    ∃ deadband, a' = { a with position := target.map a.drive.clip, deadband } ∧
      (b.active = false → deadband = a.deadband) := by
  unfold Axis.moveTo at h
  cases target with
  | none => exact ⟨a.deadband, (Except.ok.inj h).symm, fun _ => rfl⟩
  | some target =>
      simp only at h
      split at h
      · rename_i hactive
        obtain ⟨deadband, -, h⟩ := Formula.bind_eq_ok_iff.1 h
        exact ⟨deadband, (Except.ok.inj h).symm, fun hb => by simp [hb] at hactive⟩
      · exact ⟨a.deadband, (Except.ok.inj h).symm, fun _ => rfl⟩

theorem drive_of_moveTo {target : Value} (h : a.moveTo b target = .ok a') :
    a'.drive = a.drive := by
  obtain ⟨deadband, rfl, -⟩ := exists_eq_of_moveTo h
  rfl

/-- Moving an axis keeps it sound. -/
theorem Sound.moveTo (hhome : ∃ h, b.home = some h ∧ Bounded h) (h : a.Sound b) {target : Value}
    (hmove : a.moveTo b target = .ok a') : a'.Sound b := by
  unfold Axis.moveTo at hmove
  cases target with
  | none =>
      obtain rfl := Except.ok.inj hmove
      exact ⟨by simp, h.deadband, by simp⟩
  | some target =>
      have hlimits : ∀ p, some (a.drive.clip target) = some p →
          a.drive.low.le p = true ∧ p.le a.drive.high = true := by
        rintro p ⟨⟩
        exact ⟨a.drive.le_clip target, a.drive.clip_le target⟩
      simp only at hmove
      split at hmove
      · obtain ⟨deadband, hd, hmove⟩ := Formula.bind_eq_ok_iff.1 hmove
        obtain rfl := Except.ok.inj hmove
        obtain ⟨hbounded, hlow⟩ := bounded_deadbandAt hhome hd
        refine ⟨hlimits, fun _ => hbounded, ?_⟩
        rintro - p ⟨⟩ hsame
        exact hlow hsame
      · rename_i hstay
        obtain rfl := Except.ok.inj hmove
        refine ⟨hlimits, h.deadband, ?_⟩
        -- The deadband is left alone because the axis was there before.
        rintro hactive p ⟨⟩ hsame
        cases hold : a.position with
        | none => simp [hactive, hold] at hstay
        | some old =>
            simp only [hactive, hold, Option.any_some, Bool.true_and, Bool.not_eq_true',
              Bool.not_eq_false] at hstay
            exact h.home hactive old hold (Number.same_trans (Number.same_symm hstay) hsame)

/-- An axis can always be moved to its lower limit. -/
theorem Sound.moveTo_low (h : a.Sound b) :
    a.moveTo b (some a.drive.low) = .ok (a.homed b) := by
  have hself : a.drive.low.same a.drive.low = true := Number.same_self a.drive.isNaN_low
  have hat : a.deadbandAt b a.drive.low = .ok b.home := by simp [deadbandAt, hself]
  cases hactive : b.active with
  | false => simp [Axis.moveTo, homed, hactive]
  | true =>
      simp only [Axis.moveTo, Drive.clip_low, hactive, Bool.true_and, hat, homed, if_true]
      split
      · rfl
      · rename_i hstay
        cases hold : a.position with
        | none => simp [hold] at hstay
        | some old =>
            simp only [hold, Option.any_some, Bool.not_eq_true', Bool.not_eq_false] at hstay
            rw [h.home hactive old hold (Number.same_symm hstay)]

theorem sound_homed (hhome : ∃ h, b.home = some h ∧ Bounded h) (h : a.Sound b) :
    (a.homed b).Sound b :=
  h.moveTo hhome h.moveTo_low

end Axis

namespace Frame

open Axis

variable {f f' f'' : Frame}

theorem length_state (f : Frame) : f.state.length = f.width := by
  cases hactive : f.backlash.active <;>
    simp [state, positions, deadbands, width, hactive, Nat.mul_two]

/-- A frame whose axes are sound. -/
structure Sound (f : Frame) : Prop where
  home : ∃ h, f.backlash.home = some h ∧ Bounded h
  axes : ∀ a ∈ f.axes, a.Sound f.backlash

/-- What stays of a frame through anything it is told to do. -/
structure Leads (f f' : Frame) : Prop where
  backlash : f'.backlash = f.backlash
  drives : f'.drives = f.drives
  sound : f'.Sound

theorem Leads.trans (h : f.Leads f') (h' : f'.Leads f'') : f.Leads f'' :=
  ⟨h'.backlash.trans h.backlash, h'.drives.trans h.drives, h'.sound⟩

theorem Sound.leads (h : f.Sound) : f.Leads f := ⟨rfl, rfl, h⟩

/-- The stream does not matter to where axes are. -/
theorem Leads.withStream (h : f.Leads f') (stream : Random.Stream) :
    f.Leads { f' with stream } :=
  ⟨h.backlash, h.drives, h.sound.home, h.sound.axes⟩

/-- The state at home depends on nothing that a command changes. -/
theorem homeState_congr (hbacklash : f'.backlash = f.backlash) (hdrives : f'.drives = f.drives) :
    f'.homeState = f.homeState := by
  have hstate (g : Frame) : g.homeState = g.drives.map (fun d => some d.low) ++
      if g.backlash.active then g.drives.map fun _ => g.backlash.home else [] := by
    simp [Frame.homeState, lows, Frame.drives, Function.comp_def]
  rw [hstate, hstate, hbacklash, hdrives]

theorem Leads.homeState (h : f.Leads f') : f'.homeState = f.homeState :=
  homeState_congr h.backlash h.drives

/-! ### Moves -/

/-- What moving one axis keeps, a move of several axes keeps, also one that
fails half way. -/
theorem forall_moveAxes {b : Backlash} {P : Axis → Prop}
    (hmove : ∀ a v a', P a → a.moveTo b v = .ok a' → P a') {axes : List Axis}
    (h : ∀ a ∈ axes, P a) (targets : List Value) : ∀ a ∈ (moveAxes b axes targets).2, P a := by
  induction axes, targets using moveAxes.induct b with
  | case1 a as v vs f hfails => simpa [moveAxes, hfails] using h
  | case2 a as v vs a' hmoved r rest hrest ih =>
      rw [List.forall_mem_cons] at h
      simp only [moveAxes, hmoved]
      exact List.forall_mem_cons.2 ⟨hmove a v a' h.1 hmoved, ih h.2⟩
  | case3 as targets hne => simpa only [moveAxes.eq_2 b as targets hne] using h

theorem drives_moveAxes (b : Backlash) (axes : List Axis) (targets : List Value) :
    (moveAxes b axes targets).2.map Axis.drive = axes.map Axis.drive := by
  induction axes, targets using moveAxes.induct b with
  | case1 a as v vs f hfails => simp [moveAxes, hfails]
  | case2 a as v vs a' hmoved r rest hrest ih =>
      simp [moveAxes, hmoved, ih, drive_of_moveTo hmoved]
  | case3 as targets hne => rw [moveAxes.eq_2 b as targets hne]

theorem Sound.setPositions (h : f.Sound) (targets : List Value) :
    f.Leads (f.setPositions targets).2 := by
  unfold Frame.setPositions
  split
  · exact h.leads
  · refine ⟨rfl, drives_moveAxes .., h.home, forall_moveAxes ?_ h.axes targets⟩
    exact fun a v a' ha hmove => ha.moveTo h.home hmove

/-- Every axis at its lower limit. -/
def homed (f : Frame) : Frame := { f with axes := f.axes.map (Axis.homed f.backlash) }

theorem moveAxes_lows {b : Backlash} {axes : List Axis} (h : ∀ a ∈ axes, a.Sound b) :
    moveAxes b axes (axes.map fun a => some a.drive.low) = (.ok (), axes.map (Axis.homed b)) := by
  induction axes with
  | nil => rfl
  | cons a as ih =>
      rw [List.forall_mem_cons] at h
      simp [moveAxes, h.1.moveTo_low, ih h.2]

theorem Sound.home_eq (h : f.Sound) : f.home = (.ok (), f.homed) := by
  simp [Frame.home, Frame.setPositions, lows, moveAxes_lows h.axes, homed, Except.mapError]

theorem Sound.leads_homed (h : f.Sound) : f.Leads f.homed :=
  ⟨rfl, by simp [drives, homed, Axis.homed], h.home,
    by simpa [homed] using fun a ha => sound_homed h.home (h.axes a ha)⟩

/-- Every axis at its lower limit is the state at home. -/
theorem state_homed (f : Frame) : f.homed.state = f.homeState := by
  cases hactive : f.backlash.active <;>
    simp [state, positions, deadbands, homed, Axis.homed, Frame.homeState, lows, hactive,
      Function.comp_def]

theorem placeAxes_homed (b : Backlash) (hactive : b.active = true) (axes : List Axis) :
    placeAxes axes (axes.map fun a => some a.drive.low) (.replicate axes.length b.home) =
      axes.map (Axis.homed b) := by
  induction axes with
  | nil => rfl
  | cons a as ih => simp [placeAxes, List.replicate_succ, ih, Axis.homed, hactive]

theorem placeAxes_homed_of_inactive (b : Backlash) (hactive : b.active = false)
    (axes : List Axis) :
    placeAxes axes (axes.map fun a => some a.drive.low) [] = axes.map (Axis.homed b) := by
  induction axes with
  | nil => rfl
  | cons a as ih => simp [placeAxes, ih, Axis.homed, hactive]

/-- The state at home can be set, and puts every axis at its lower limit. -/
theorem setState_homeState (f : Frame) : f.setState f.homeState = .ok f.homed := by
  cases hactive : f.backlash.active with
  | false =>
      have hplace := placeAxes_homed_of_inactive f.backlash hactive f.axes
      simp [setState, Frame.homeState, width, hactive, homed, lows, hplace, List.take_of_length_le,
        List.drop_of_length_le]
  | true =>
      have hplace := placeAxes_homed f.backlash hactive f.axes
      simp [setState, Frame.homeState, width, hactive, homed, Nat.mul_two, lows, hplace]

/-! ### Walks -/

section

variable {P : Frame → Prop} (hmove : ∀ g targets, P g → P (g.setPositions targets).2)
  (hstream : ∀ g stream, P g → P { g with stream })
  (hhome : ∀ g g', P g → g.setState g.homeState = .ok g' → P g')

include hmove

include hhome in
theorem startWalk_induction (h : P f) : P f.startWalk.2 := by
  have hhomed : P f.home.2 := hmove f f.lows h
  unfold Frame.startWalk
  split
  · rename_i heq
    simpa [heq] using hhomed
  · rename_i heq
    rw [heq] at hhomed
    split
    · exact hhomed
    · exact hhome _ _ hhomed ‹_›

include hstream

theorem wander_induction (h : P f) (survey : Survey) : P (f.wander survey).2 := by
  unfold Frame.wander
  split
  · exact h
  · split
    · exact hstream f _ h
    · exact hmove _ _ (hstream f _ h)

theorem walkOn_induction (h : P f) (survey : Survey) (n : Nat) : P (walkOn survey n f).2 := by
  induction n generalizing f with
  | zero => exact h
  | succ n ih =>
      have hstep := wander_induction hmove hstream h survey
      unfold Frame.walkOn
      split
      · rename_i heq
        simpa [heq] using hstep
      · rename_i heq
        rw [heq] at hstep
        split
        · exact hstep
        · exact ih hstep

include hhome

/-- What moves, drawn numbers and the state at home keep, a walk keeps, however
far it comes. -/
theorem examples_induction (h : P f) (survey : Survey) : P (f.examples survey).2 := by
  unfold Frame.examples
  split
  · exact h
  · split
    · exact h
    · have hstart := startWalk_induction hmove hhome h
      split
      · rename_i heq
        simpa [heq] using hstart
      · rename_i heq
        rw [heq] at hstart
        split
        · exact hstart
        · exact walkOn_induction hmove hstream hstart survey _

end

theorem Sound.examples (h : f.Sound) (survey : Survey) : f.Leads (f.examples survey).2 := by
  refine examples_induction (fun g targets hg => hg.trans (hg.sound.setPositions targets))
    (fun g stream hg => hg.withStream stream) (fun g g' hg hstate => ?_) h.leads survey
  obtain rfl := Except.ok.inj ((setState_homeState g).symm.trans hstate)
  exact hg.trans hg.sound.leads_homed

/-! ### Commands -/

/-- What a frame can be told to do with its axes. -/
inductive Command where
  | home
  | homeAxis (axis : Number)
  | moveTo (targets : List Value)
  | setPositions (targets : List Value)
  | clear
  | examples (survey : Survey)

/-- The frame after a command, whether or not that fails. -/
def obey (f : Frame) : Command → Frame
  | .home => f.home.2
  | .homeAxis axis => (f.homeAxis axis).2
  | .moveTo targets => (f.moveTo targets).2
  | .setPositions targets => (f.setPositions targets).2
  | .clear => f.clear
  | .examples survey => (f.examples survey).2

/-- Where a command moves the axes, if it moves any. -/
def aims (f : Frame) : Command → Option (List Value)
  | .home => some f.lows
  | .homeAxis axis =>
    if (Number.int 0).le axis && axis.lt (.int f.axes.length) then some (lowered axis 0 f.axes)
    else none
  | .moveTo targets => (resolve f.positions targets).toOption
  | .setPositions targets => some targets
  | .clear => none
  | .examples _ => none

theorem obey_of_aims_eq_some {c : Command} {targets : List Value} (h : f.aims c = some targets) :
    f.obey c = (f.setPositions targets).2 := by
  cases c with
  | home =>
      obtain rfl := Option.some.inj h
      rfl
  | homeAxis axis =>
      simp only [aims] at h
      split at h
      · obtain rfl := Option.some.inj h
        rw [obey, homeAxis, if_pos ‹_›]
      · cases h
  | moveTo given =>
      simp only [aims] at h
      cases hresolve : resolve f.positions given with
      | error e => simp [hresolve, Except.toOption] at h
      | ok resolved =>
          obtain rfl : resolved = targets := by simpa [hresolve, Except.toOption] using h
          simp [obey, moveTo, hresolve]
  | setPositions given =>
      obtain rfl := Option.some.inj h
      rfl
  | clear => cases h
  | examples survey => cases h

theorem obey_of_aims_eq_none {c : Command} (h : f.aims c = none) (hclear : c ≠ .clear)
    (hwalk : ∀ survey, c ≠ .examples survey) : f.obey c = f := by
  cases c with
  | home => cases h
  | homeAxis axis =>
      simp only [aims] at h
      split at h
      · cases h
      · rw [obey, homeAxis, if_neg ‹_›]
  | moveTo given =>
      simp only [aims] at h
      cases hresolve : resolve f.positions given with
      | error e => simp [obey, moveTo, hresolve]
      | ok resolved => simp [hresolve, Except.toOption] at h
  | setPositions given => cases h
  | clear => exact (hclear rfl).elim
  | examples survey => exact (hwalk survey rfl).elim

/-- What a command does: nothing, or axes are moved, or all positions are
forgotten, or the frame goes on a walk. -/
theorem obey_cases (f : Frame) (c : Command) :
    f.obey c = f ∨ (∃ targets, f.aims c = some targets ∧ f.obey c = (f.setPositions targets).2) ∨
      c = .clear ∨ ∃ survey, c = .examples survey := by
  by_cases hclear : c = .clear
  · exact .inr (.inr (.inl hclear))
  · by_cases hwalk : ∃ survey, c = .examples survey
    · exact .inr (.inr (.inr hwalk))
    · cases haims : f.aims c with
      | none => exact .inl (obey_of_aims_eq_none haims hclear (not_exists.1 hwalk))
      | some targets => exact .inr (.inl ⟨targets, rfl, obey_of_aims_eq_some haims⟩)

def obeyAll (f : Frame) (commands : List Command) : Frame := commands.foldl obey f

theorem Sound.clear (h : f.Sound) : f.Leads f.clear := by
  refine ⟨rfl, by simp [drives, Frame.clear], h.home, ?_⟩
  simp only [Frame.clear, List.forall_mem_map]
  exact fun a _ => ⟨by simp, fun _ => h.home, by simp⟩

theorem Sound.obey (h : f.Sound) (c : Command) : f.Leads (f.obey c) := by
  obtain heq | ⟨targets, -, heq⟩ | rfl | ⟨survey, rfl⟩ := obey_cases f c
  · rw [heq]
    exact h.leads
  · rw [heq]
    exact h.setPositions targets
  · exact h.clear
  · exact h.examples survey

theorem Sound.obeyAll (h : f.Sound) (commands : List Command) : f.Leads (f.obeyAll commands) := by
  induction commands generalizing f with
  | nil => exact h.leads
  | cons c commands ih =>
      have hstep := h.obey c
      exact hstep.trans (ih hstep.sound)

/-! ### Frames at first -/

/-- A frame that has just been made: its drives have names, and it does not
know where they are. -/
def fresh (drives : List Drive) (b : Backlash) (stream : Random.Stream) : Frame where
  axes := (nameDrives 0 drives).map fun d => ⟨d, none, b.home⟩
  backlash := b
  stream := stream
  calibration := none

theorem length_nameDrives (i : Nat) (ds : List Drive) : (nameDrives i ds).length = ds.length := by
  induction ds generalizing i with
  | nil => rfl
  | cons d ds ih => simp [nameDrives, ih]

theorem make_cases {drives : List Drive} {b : Backlash} {unseeded : Random.Stream}
    {seed : Datum} {state : Option (List Value)} (h : make drives b unseeded seed state = .ok f) :
    drives ≠ [] ∧ ∃ stream, (state = none ∧ f = fresh drives b stream) ∨
      ∃ given, state = some given ∧ (fresh drives b stream).setState given = .ok f := by
  unfold make at h
  split at h
  · cases h
  · rename_i hdrives
    refine ⟨by simpa using hdrives, ?_⟩
    split at h
    · cases h
    · rename_i stream _
      cases state with
      | none => exact ⟨stream, .inl ⟨rfl, (Except.ok.inj h).symm⟩⟩
      | some given => exact ⟨stream, .inr ⟨given, rfl, h⟩⟩

theorem make_none {drives : List Drive} {b : Backlash} {unseeded : Random.Stream} {seed : Datum}
    (h : make drives b unseeded seed none = .ok f) : ∃ stream, f = fresh drives b stream := by
  obtain ⟨-, stream, ⟨-, hf⟩ | ⟨given, hnone, -⟩⟩ := make_cases h
  · exact ⟨stream, hf⟩
  · cases hnone

/-- A frame that is made without a state. -/
theorem sound_make {drives : List Drive} {b : Backlash} {unseeded : Random.Stream} {seed : Datum}
    (hhome : ∃ h, b.home = some h ∧ Bounded h) (hmake : make drives b unseeded seed none = .ok f) :
    f.Sound ∧ f.backlash = b := by
  obtain ⟨stream, rfl⟩ := make_none hmake
  refine ⟨⟨hhome, ?_⟩, rfl⟩
  simp only [fresh, List.forall_mem_map]
  exact fun d _ => ⟨by simp, fun _ => hhome, by simp⟩

/-- Whatever a frame made without a state is told to do, its axes are sound,
and homing it then leads to the state at home. -/
theorem sound_obeyAll_make {drives : List Drive} {b : Backlash} {unseeded : Random.Stream}
    {seed : Datum} {h : Number}
    (hhome : b.home = some h) (hfloor : deadbandFloor.le h = true)
    (hlimit : h.le deadbandLimit = true) (hmake : make drives b unseeded seed none = .ok f)
    (commands : List Command) :
    (f.obeyAll commands).backlash = b ∧ (f.obeyAll commands).drives = f.drives ∧
      (∀ a ∈ (f.obeyAll commands).axes, a.Sound b) ∧
      ∃ f', (f.obeyAll commands).home = (.ok (), f') ∧ f'.state = f.homeState := by
  obtain ⟨hsound, hbacklash⟩ := sound_make ⟨h, hhome, hfloor, hlimit⟩ hmake
  have hafter := hsound.obeyAll commands
  refine ⟨hafter.backlash.trans hbacklash, hafter.drives, ?_, _, hafter.sound.home_eq, ?_⟩
  · rw [← hbacklash, ← hafter.backlash]
    exact hafter.sound.axes
  · rw [state_homed, hafter.homeState]

/-- Two axes with deadbands, nowhere yet. -/
def pair : Frame where
  axes := [⟨⟨.int 0, .int 10, some "X", rfl⟩, none, some (.real .half)⟩,
    ⟨⟨.int (-5), .int 5, some "Y", rfl⟩, none, some (.real .half)⟩]
  backlash := ⟨true, some (.int 3), some (.real .half)⟩
  stream := .ofSeed 0
  calibration := none

/-- Home, to a place beyond the limits and to no number, and on a walk. -/
theorem sound_obeyAll_make_pair :
    let f := pair.obeyAll [.home, .moveTo [some (.int 12), none],
      .setPositions [some (.real .nan), some (.int 3)], .homeAxis (.int 1), .examples .standard,
      .clear, .setPositions [none, some (.int (-9))]]
    (∀ a ∈ f.axes, a.Sound pair.backlash) ∧ ∃ f', f.home = (.ok (), f') ∧
      f'.state = [some (.int 0), some (.int (-5)), some (.real .half), some (.real .half)] := by
  have hmake : make [⟨.int 0, .int 10, none, rfl⟩, ⟨.int (-5), .int 5, none, rfl⟩]
      ⟨true, some (.int 3), some (.real .half)⟩ (.ofSeed 0) .null none = .ok pair := rfl
  obtain ⟨-, -, haxes, hhome⟩ := sound_obeyAll_make rfl (by decide) (by decide) hmake
    [.home, .moveTo [some (.int 12), none], .setPositions [some (.real .nan), some (.int 3)],
      .homeAxis (.int 1), .examples .standard, .clear, .setPositions [none, some (.int (-9))]]
  exact ⟨haxes, hhome⟩

end Frame

end Gantry
