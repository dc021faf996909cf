import Gantry.Frame.Document
import Gantry.Proofs.Calibration.Persistence
import Gantry.Proofs.Formula.Evaluation
import Gantry.Proofs.Frame.Positions

/-!
Frames saved and restored. Drives with their names, the state, the backlash and
the calibration are all that the data of a frame tell: a frame that is read
back stands where the saved one stood, corrects as it did, and from then on
moves as it does. Only the random stream begins anew.
-/

namespace Gantry.Frame

open Axis

variable {f f' g : Frame} {b : Backlash}

/-! ### Calibrating -/

/-- A network of one affine layer that is trained makes a calibration that can
be read back. -/
theorem lasting_of_fit [Memo.Stack] [Algebra.Engine] {width : Nat} {net : Network}
    {s : Training.Settings}
    {examples : List (Training.Example Binary64)} {observer : Training.Observer}
    {result : Option (Training.Result Binary64)} {offset scale : List Binary64} {c : Calibration}
    (hnet : affineNetwork width = .ok net)
    (hmake : Calibration.make (Training.fit net s examples observer).network result
      (some (.vector offset)) (some (.vector scale)) = .ok c) : c.Lasting := by
  obtain ⟨layer, hlayer, hnet⟩ := Formula.bind_eq_ok_iff.1 hnet
  obtain ⟨net₀, hempty, hnet⟩ := Formula.bind_eq_ok_iff.1 hnet
  obtain ⟨-, -, hnet⟩ := Formula.bind_eq_ok_iff.1 hnet
  have hstart := Network.kept_of_empty hempty
  obtain ⟨hwidth, rfl⟩ := Network.empty_eq_ok_iff.1 hempty
  let acts : List Network.Act :=
    [.call (.add (.loose (.dense layer)) default), .calibrate s examples observer]
  have hacts : ∀ a ∈ acts, a.Offers ∧ a.Adds Network.LayerKind.Textual := by
    simp only [acts, List.forall_mem_cons, List.not_mem_nil, false_implies, implies_true, and_true]
    exact ⟨⟨.inr (.dense hlayer), trivial⟩, trivial, trivial⟩
  have htrained : (Training.fit net s examples observer).network =
      Network.actAll ⟨true, (width : Int).toNat, [], .empty⟩ acts := by
    rw [← Except.ok.inj hnet]
    rfl
  have hkept := Network.kept_actAll hstart fun a ha => (hacts a ha).1
  have htextual := Network.forall_kind_actAll hstart (by simp) hacts
  obtain ⟨hnetwork, hfits⟩ := Calibration.make_eq_ok hmake
  have hsquare := Calibration.square_of_make hmake
  rw [← htrained, ← hnetwork] at hkept htextual
  rw [← hnetwork] at hfits hsquare
  refine ⟨hkept.inputs_eq ▸ hkept, htextual, ?_, hsquare, hfits⟩
  rw [hkept.inputs_eq]
  omega

/-- Calibrating leaves a frame as it was, or gives it a calibration that can be
read back. -/
theorem calibrate_cases [Memo.Stack] [Algebra.Engine] (f : Frame) (s : Training.Settings)
    (examples : List (Training.Example Binary64)) (observer : Training.Observer) :
    (f.calibrate s examples observer).frame = f ∨ ∃ c, c.Lasting ∧
      (f.calibrate s examples observer).frame = { f with calibration := some c } := by
  unfold calibrate
  split
  · exact .inl rfl
  · rename_i t htask
    dsimp only
    split
    · exact .inl rfl
    · split
      · exact .inl rfl
      · rename_i c hmake
        refine .inr ⟨c, ?_, rfl⟩
        obtain ⟨n, -, htask⟩ := Formula.bind_eq_ok_iff.1 htask
        obtain ⟨given, -, htask⟩ := Formula.bind_eq_ok_iff.1 htask
        obtain ⟨net, hnet, htask⟩ := Formula.bind_eq_ok_iff.1 htask
        obtain rfl := Except.ok.inj htask
        exact lasting_of_fit (mapError_eq_ok_iff.1 hnet) hmake

/-! ### Reading what was written -/

theorem valueOf_valueDatum (v : Value) : valueOf (valueDatum v) = .ok v := by
  cases v <;> rfl

theorem driveOf_datum {d : Drive} (hname : d.name.isSome = true) : driveOf d.datum = .ok d := by
  obtain ⟨low, high, name, hlt⟩ := d
  obtain ⟨s, rfl⟩ := Option.isSome_iff_exists.1 hname
  have hmake : Drive.make? low high (some s) = some ⟨low, high, some s, hlt⟩ := by
    simp [Drive.make?, hlt]
  simp [driveOf, Drive.datum, Datum.member, Datum.require, Datum.members, Datum.toNumber,
    List.lookup_cons, nameOf, Datum.shown, hmake, Except.mapError, Bind.bind, Except.bind, pure,
    Except.pure]

theorem nameDrives_of_named {ds : List Drive} (h : ∀ d ∈ ds, d.name.isSome = true) (i : Nat) :
    nameDrives i ds = ds := by
  induction ds generalizing i with
  | nil => rfl
  | cons d ds ih =>
      rw [List.forall_mem_cons] at h
      obtain ⟨s, hs⟩ := Option.isSome_iff_exists.1 h.1
      simp [nameDrives, Drive.withName, hs, ih h.2]

/-! ### Frames that can be read back -/

/-- An axis with a drive that has a name, and with no more of a deadband than
is written. -/
structure Told (b : Backlash) (a : Axis) : Prop where
  named : a.drive.name.isSome = true
  deadband : b.active = false → a.deadband = b.home

/-- A frame of which its data tell everything but the random stream. -/
structure Lasting [Memo.Stack] [Algebra.Engine] (f : Frame) : Prop where
  nonempty : f.axes ≠ []
  axes : ∀ a ∈ f.axes, Told f.backlash a
  calibration : ∀ c ∈ f.calibration, c.Lasting

/-- The frame that is read back, with a stream that begins anew. -/
def restored (f : Frame) (stream : Random.Stream) : Frame :=
  { f with stream, calibration := f.calibration.map Calibration.restored }

theorem placeAxes_told {axes : List Axis} (h : ∀ a ∈ axes, Told b a) :
    placeAxes ((axes.map Axis.drive).map fun d => ⟨d, none, b.home⟩) (axes.map Axis.position)
      (if b.active then axes.map Axis.deadband else []) = axes := by
  induction axes with
  | nil => rfl
  | cons a as ih =>
      rw [List.forall_mem_cons] at h
      have hrest := ih h.2
      cases hactive : b.active with
      | false =>
          have hdeadband := h.1.deadband hactive
          simp only [hactive, Bool.false_eq_true, if_false] at hrest ⊢
          rw [List.map_cons, List.map_cons, List.map_cons, placeAxes, hrest, ← hdeadband]
      | true =>
          simp only [hactive, if_true] at hrest ⊢
          rw [List.map_cons, List.map_cons, List.map_cons, List.map_cons, placeAxes, hrest]

section

variable [Memo.Stack] [Algebra.Engine]

/-- From its drives, its backlash and its state a frame is made again. -/
theorem Lasting.make_state (h : f.Lasting) (stream : Random.Stream) :
    make f.drives f.backlash stream .null (some f.state) =
      .ok { f with stream, calibration := none } := by
  have hnonempty : f.drives.isEmpty = false := by simpa [drives] using h.nonempty
  have hnames : nameDrives 0 f.drives = f.drives :=
    nameDrives_of_named (by simpa [drives] using fun a ha => (h.axes a ha).named) 0
  have hplace := placeAxes_told h.axes
  have hwidth : f.state.length = f.width := length_state f
  have hsplit : f.state.take f.axes.length = f.positions ∧
      f.state.drop f.axes.length = f.deadbands := by
    have hlength : f.positions.length = f.axes.length := by simp [positions]
    simp [state, ← hlength]
  unfold make
  simp only [hnonempty, Bool.false_eq_true, if_false, streamOf, hnames]
  unfold setState
  simp only [drives, List.length_map, hsplit]
  rw [if_neg (by simpa [width] using hwidth)]
  simp only [positions, deadbands, hplace]

/-- What reading makes of the data of a frame, up to its calibration. -/
theorem Lasting.ofDatum_object (h : f.Lasting)
    (stream : Random.Stream) (fresh : Nat → Random.Stream) (d : Datum) :
    ofDatum stream fresh (.object [("type", .text "DriveFrame"), ("state", .list (f.state.map valueDatum)),
      ("backlash", .flag f.backlash.active), ("deadband_scale", valueDatum f.backlash.scale),
      ("deadband_home", valueDatum f.backlash.home), ("drives", .list (f.drives.map Drive.datum)),
      ("calibration", d)]) =
      match d with
      | .null => .ok { f with stream, calibration := none }
      | d => ((Calibration.ofDatum fresh d).mapError .calibration).map fun c =>
        { f with stream, calibration := some c } := by
  have hdrives : (f.drives.map Drive.datum).mapM driveOf = .ok f.drives := by
    have heach : ∀ d ∈ f.drives, driveOf d.datum = .ok (id d) := by
      simp only [drives, List.forall_mem_map]
      exact fun a ha => driveOf_datum (h.axes a ha).named
    rw [Network.mapM_map_eq_ok heach, List.map_id]
  have hstate : (f.state.map valueDatum).mapM valueOf = .ok f.state := by
    have heach : ∀ v ∈ f.state, valueOf (valueDatum v) = .ok (id v) :=
      fun v _ => valueOf_valueDatum v
    rw [Network.mapM_map_eq_ok heach, List.map_id]
  have hnonempty : f.drives.isEmpty = false := by simpa [drives] using h.nonempty
  have hmake := h.make_state stream
  simp [ofDatum, Datum.member, Datum.require, Datum.members, List.lookup_cons, Network.itemsOf,
    hdrives, hnonempty, stateOf, hstate, hmake, valueOf_valueDatum, Datum.isTrue, Except.mapError,
    Bind.bind, Except.bind, pure, Except.pure]
  cases d <;> rfl

/-- A frame can be written, and is read back from its data. -/
theorem Lasting.exists_datum (h : f.Lasting) :
    ∃ d, f.datum = .ok d ∧ ∀ stream fresh, ofDatum stream fresh d = .ok (f.restored stream) := by
  cases hc : f.calibration with
  | none =>
      refine ⟨_, by simp only [datum, calibrationDatum, hc]; rfl, fun stream fresh => ?_⟩
      rw [h.ofDatum_object, restored, hc]
      rfl
  | some c =>
      obtain ⟨ms, hd, hcalibration⟩ := (h.calibration c hc).exists_datum
      refine ⟨_, by simp only [datum, calibrationDatum, hc, hd]; rfl, fun stream fresh => ?_⟩
      rw [h.ofDatum_object, restored, hc]
      simp only [hcalibration fresh]
      rfl

theorem Lasting.restored (h : f.Lasting) (stream : Random.Stream) :
    (f.restored stream).Lasting := by
  refine ⟨h.nonempty, h.axes, fun c hc => ?_⟩
  obtain ⟨c₀, hc₀, rfl⟩ := Option.map_eq_some_iff.1 hc
  exact (h.calibration c₀ hc₀).restored

end

theorem datum_restored (f : Frame) (stream : Random.Stream) :
    (f.restored stream).datum = f.datum := by
  have hcalibration : (f.restored stream).calibrationDatum = f.calibrationDatum := by
    cases hc : f.calibration with
    | none => simp [calibrationDatum, restored, hc]
    | some c => simp [calibrationDatum, restored, hc, Calibration.datum_restored]
  rw [datum, datum, hcalibration]
  rfl

/-! ### Events -/

/-- What can happen to a frame. -/
inductive Event where
  | command (c : Command)
  | setState (state : List Value)
  | sample
  | calibrate (s : Training.Settings) (examples : List (Training.Example Binary64))
      (observer : Training.Observer)
  | toActual (state : List Binary64)
  | toNominal (effort : Calibration.Effort) (actual : List Binary64)
  /-- The frame is replaced by the one that is read back from its data, which draws from fresh
  streams. -/
  | reload (stream : Random.Stream) (fresh : Nat → Random.Stream)

def reload (f : Frame) (stream : Random.Stream) (fresh : Nat → Random.Stream) :
    Except Failure Frame := do
  let d ← f.datum.mapError fun e => .fault e.asFault
  ofDatum stream fresh d

/-- The frame after an event, whether or not that fails. -/
def undergo [Memo.Stack] [Algebra.Engine] (f : Frame) : Event → Frame
  | .command c => f.obey c
  | .setState state => (f.setState state).toOption.getD f
  | .sample => f.sample.2
  | .calibrate s examples observer => (f.calibrate s examples observer).frame
  | .toActual state => { f with calibration := f.calibration.map fun c => (c.toActual state).2 }
  | .toNominal effort actual =>
    { f with calibration := f.calibration.map fun c => (c.toNominal effort actual).2 }
  | .reload stream fresh => (f.reload stream fresh).toOption.getD f

def undergoAll [Memo.Stack] [Algebra.Engine] (f : Frame) (events : List Event) :
    Frame := events.foldl undergo f

/-! ### What events keep -/

theorem Lasting.reload [Memo.Stack] [Algebra.Engine] (h : f.Lasting) (stream : Random.Stream)
    (fresh : Nat → Random.Stream) : f.reload stream fresh = .ok (f.restored stream) := by
  obtain ⟨d, hd, hread⟩ := h.exists_datum
  rw [Frame.reload, hd]
  exact hread stream fresh

theorem Told.moveTo {a a' : Axis} (h : Told b a) {target : Value}
    (hmove : a.moveTo b target = .ok a') : Told b a' := by
  obtain ⟨deadband, rfl, hdeadband⟩ := exists_eq_of_moveTo hmove
  exact ⟨h.named, fun hb => (hdeadband hb).trans (h.deadband hb)⟩

theorem Lasting.setPositions [Memo.Stack] [Algebra.Engine] (h : f.Lasting) (targets : List Value) :
    (f.setPositions targets).2.Lasting := by
  unfold Frame.setPositions
  split
  · exact h
  · refine ⟨?_, forall_moveAxes (fun a v a' ha hmove => ha.moveTo hmove) h.axes targets,
      h.calibration⟩
    have hdrives := congrArg List.length (drives_moveAxes f.backlash f.axes targets)
    simp only [List.length_map] at hdrives
    exact List.ne_nil_of_length_pos (hdrives ▸ List.length_pos_iff.2 h.nonempty)

/-- Values put into axes change positions, and deadbands where there are values
for these. -/
theorem told_placeAxes {axes : List Axis} (h : ∀ a ∈ axes, Told b a) {ps ds : List Value}
    (hds : b.active = false → ds = []) : ∀ a ∈ placeAxes axes ps ds, Told b a := by
  induction axes, ps, ds using placeAxes.induct with
  | case1 a as p ps d ds ih =>
      rw [List.forall_mem_cons] at h
      have hactive : b.active ≠ false := fun hb => List.cons_ne_nil d ds (hds hb)
      exact List.forall_mem_cons.2 ⟨⟨h.1.named, fun hb => absurd hb hactive⟩,
        ih h.2 fun hb => absurd hb hactive⟩
  | case2 a as p ps ih =>
      rw [List.forall_mem_cons] at h
      exact List.forall_mem_cons.2 ⟨⟨h.1.named, h.1.deadband⟩, ih h.2 hds⟩
  | case3 axes ps ds hne hne' =>
      rw [placeAxes.eq_3 _ _ _ hne hne']
      exact h

theorem length_placeAxes (axes : List Axis) (ps ds : List Value) :
    (placeAxes axes ps ds).length = axes.length := by
  induction axes, ps, ds using placeAxes.induct with
  | case1 a as p ps d ds ih => simp [placeAxes, ih]
  | case2 a as p ps ih => simp [placeAxes, ih]
  | case3 axes ps ds hne hne' => rw [placeAxes.eq_3 _ _ _ hne hne']

section

variable [Memo.Stack] [Algebra.Engine]

theorem Lasting.setState (h : f.Lasting) {state : List Value}
    (hset : f.setState state = .ok g) :
    g.Lasting := by
  unfold Frame.setState at hset
  split at hset
  · cases hset
  · rename_i hlength
    obtain rfl := Except.ok.inj hset
    refine ⟨List.ne_nil_of_length_pos ?_, told_placeAxes h.axes fun hb => ?_, h.calibration⟩
    · simpa [length_placeAxes] using List.length_pos_iff.2 h.nonempty
    · rw [List.drop_eq_nil_iff]
      simp [width, hb] at hlength
      omega

theorem Lasting.withStream (h : f.Lasting) (stream : Random.Stream) :
    Lasting { f with stream } := ⟨h.nonempty, h.axes, h.calibration⟩

theorem Lasting.withCalibration (h : f.Lasting)
    {calibration : Option Calibration}
    (hc : ∀ c ∈ calibration, c.Lasting) : Lasting { f with calibration } :=
  ⟨h.nonempty, h.axes, hc⟩

theorem Lasting.obey (h : f.Lasting) (c : Command) :
    (f.obey c).Lasting := by
  obtain heq | ⟨targets, -, heq⟩ | rfl | ⟨survey, rfl⟩ := obey_cases f c
  · rw [heq]
    exact h
  · rw [heq]
    exact h.setPositions targets
  · refine ⟨by simpa [Frame.obey, Frame.clear] using h.nonempty, ?_, h.calibration⟩
    simp only [Frame.obey, Frame.clear, List.forall_mem_map]
    exact fun a ha => ⟨(h.axes a ha).named, fun _ => rfl⟩
  · exact examples_induction (fun g targets hg => hg.setPositions targets)
      (fun g stream hg => hg.withStream stream) (fun g g' hg hset => hg.setState hset) h survey

theorem Lasting.undergo (h : f.Lasting) (e : Event) :
    (f.undergo e).Lasting := by
  have hconsulted : ∀ c ∈ f.calibration.map fun c => { c with network := c.network.forward.2 },
      c.Lasting := by
    intro c hc
    obtain ⟨c₀, hc₀, rfl⟩ := Option.map_eq_some_iff.1 hc
    exact (h.calibration c₀ hc₀).consulted
  cases e with
  | command c => exact h.obey c
  | setState state =>
      cases hset : f.setState state with
      | error e =>
          rw [Frame.undergo, hset]
          exact h
      | ok g =>
          rw [Frame.undergo, hset]
          exact h.setState hset
  | sample => exact h.withStream _
  | calibrate s examples observer =>
      obtain heq | ⟨c, hc, heq⟩ := calibrate_cases f s examples observer
      · rw [Frame.undergo, heq]
        exact h
      · rw [Frame.undergo, heq]
        refine h.withCalibration fun c' hc' => ?_
        rwa [← Option.some.inj hc']
  | toActual state => exact h.withCalibration hconsulted
  | toNominal effort actual => exact h.withCalibration hconsulted
  | reload stream fresh =>
      rw [Frame.undergo, h.reload]
      exact h.restored stream

theorem Lasting.undergoAll (h : f.Lasting) (events : List Event) :
    (f.undergoAll events).Lasting := by
  induction events generalizing f with
  | nil => exact h
  | cons e events ih => exact ih (h.undergo e)

end

theorem named_of_mem_nameDrives {ds : List Drive} {i : Nat} :
    ∀ d ∈ nameDrives i ds, d.name.isSome = true := by
  induction ds generalizing i with
  | nil => simp [nameDrives]
  | cons d ds ih =>
      refine List.forall_mem_cons.2 ⟨?_, ih⟩
      unfold Drive.withName
      cases hname : d.name <;> simp [hname]

theorem lasting_of_make [Memo.Stack] [Algebra.Engine] {ds : List Drive}
    {unseeded : Random.Stream} {seed : Datum} {state : Option (List Value)}
    (hmake : make ds b unseeded seed state = .ok f) : f.Lasting := by
  obtain ⟨hds, stream, hcases⟩ := make_cases hmake
  have hfresh : Lasting (fresh ds b stream) := by
    refine ⟨?_, ?_, by simp [fresh]⟩
    · rw [fresh, ne_eq, List.map_eq_nil_iff, ← List.length_eq_zero_iff, length_nameDrives]
      exact mt List.length_eq_zero_iff.1 hds
    · simp only [fresh, List.forall_mem_map]
      exact fun d hd => ⟨named_of_mem_nameDrives d hd, fun _ => rfl⟩
  obtain ⟨-, rfl⟩ | ⟨given, -, hset⟩ := hcases
  · exact hfresh
  · exact hfresh.setState hset

/-! ### Frames side by side -/

/-- Two frames that stand alike. -/
structure Alongside (f g : Frame) : Prop where
  axes : g.axes = f.axes
  backlash : g.backlash = f.backlash

theorem alongside_restored (f : Frame) (stream : Random.Stream) : f.Alongside (f.restored stream) :=
  ⟨rfl, rfl⟩

theorem Alongside.trans {k : Frame} (h : f.Alongside g) (h' : g.Alongside k) : f.Alongside k :=
  ⟨h'.axes.trans h.axes, h'.backlash.trans h.backlash⟩

theorem Alongside.symm (h : f.Alongside g) : g.Alongside f := ⟨h.axes.symm, h.backlash.symm⟩

theorem Alongside.state (h : f.Alongside g) : g.state = f.state := by
  simp only [Frame.state, positions, deadbands, h.axes, h.backlash]

theorem Alongside.setPositions (h : f.Alongside g) (targets : List Value) :
    (f.setPositions targets).2.Alongside (g.setPositions targets).2 := by
  unfold Frame.setPositions
  rw [h.axes, h.backlash]
  split
  · exact h
  · exact ⟨rfl, rfl⟩

/-- Calibrating leaves axes where they are. -/
theorem alongside_calibrate [Memo.Stack] [Algebra.Engine] (f : Frame) (s : Training.Settings)
    (examples : List (Training.Example Binary64)) (observer : Training.Observer) :
    f.Alongside (f.calibrate s examples observer).frame := by
  obtain heq | ⟨c, -, heq⟩ := calibrate_cases f s examples observer <;> rw [heq]
  · exact ⟨rfl, rfl⟩
  · exact ⟨rfl, rfl⟩

/-- Everything but a walk, which draws numbers. -/
def Event.Steady : Event → Prop
  | .command (.examples _) => False
  | _ => True

theorem Alongside.aims (h : f.Alongside g) (c : Command) : g.aims c = f.aims c := by
  cases c <;> simp only [Frame.aims, lows, positions, h.axes]

theorem Alongside.undergo [Memo.Stack] [Algebra.Engine] (h : f.Alongside g) (hf : f.Lasting)
    (hg : g.Lasting) {e : Event}
    (he : e.Steady) : (f.undergo e).Alongside (g.undergo e) := by
  cases e with
  | command c =>
      cases haims : f.aims c with
      | some targets =>
          rw [Frame.undergo, Frame.undergo, obey_of_aims_eq_some haims,
            obey_of_aims_eq_some ((h.aims c).trans haims)]
          exact h.setPositions targets
      | none =>
          cases c with
          | clear => exact ⟨by simp [Frame.undergo, obey, clear, h.axes, h.backlash], h.backlash⟩
          | examples survey => exact he.elim
          | _ =>
              rw [Frame.undergo, Frame.undergo, obey_of_aims_eq_none haims (by simp) (by simp),
                obey_of_aims_eq_none ((h.aims _).trans haims) (by simp) (by simp)]
              exact h
  | setState state =>
      have hwidth : g.width = f.width := by simp only [width, h.axes, h.backlash]
      simp only [Frame.undergo, Frame.setState, hwidth, h.axes]
      split
      · exact h
      · exact ⟨rfl, h.backlash⟩
  | sample => exact ⟨h.axes, h.backlash⟩
  | calibrate s examples observer =>
      exact (alongside_calibrate f s examples observer).symm.trans
        (h.trans (alongside_calibrate g s examples observer))
  | toActual state => exact ⟨h.axes, h.backlash⟩
  | toNominal effort actual => exact ⟨h.axes, h.backlash⟩
  | reload stream fresh =>
      have hreload {k : Frame} (hk : k.Lasting) : k.Alongside (k.undergo (.reload stream fresh)) := by
        rw [Frame.undergo, hk.reload]
        exact alongside_restored k stream
      exact (hreload hf).symm.trans (h.trans (hreload hg))

theorem Alongside.undergoAll [Memo.Stack] [Algebra.Engine] (h : f.Alongside g) (hf : f.Lasting)
    (hg : g.Lasting)
    {events : List Event} (hevents : ∀ e ∈ events, e.Steady) :
    (f.undergoAll events).Alongside (g.undergoAll events) := by
  induction events generalizing f g with
  | nil => exact h
  | cons e events ih =>
      rw [List.forall_mem_cons] at hevents
      exact ih (h.undergo hf hg hevents.1) (hf.undergo e) (hg.undergo e) hevents.2

/-! ### Reading back -/

/-- A frame has been read back from its data. -/
structure Restores [Memo.Stack] [Algebra.Engine] (f f' : Frame) : Prop where
  datum : f'.datum = f.datum
  state : f'.state = f.state
  /-- Neither has a calibration, or both have, and these correct alike. -/
  calibration : Option.Rel (fun c c' => ∀ state, (c'.toActual state).1 = (c.toActual state).1)
    f.calibration f'.calibration
  /-- Whatever happens to both, walks apart, they go through the same states. -/
  later : ∀ events, (∀ e ∈ events, e.Steady) →
    (f'.undergoAll events).state = (f.undergoAll events).state

theorem Lasting.restores [Memo.Stack] [Algebra.Engine] (h : f.Lasting) (stream : Random.Stream) :
    f.Restores (f.restored stream) where
  datum := datum_restored f stream
  state := (alongside_restored f stream).state
  calibration := by
    rw [Frame.restored]
    cases hc : f.calibration with
    | none => exact .none
    | some c => exact .some (Calibration.toActual_restored (h.calibration c hc).kept.faithful)
  later events hevents :=
    ((alongside_restored f stream).undergoAll h (h.restored stream) hevents).state

/-- Whatever has happened to a frame, it can be written and is read back from
its data, whatever there is to draw from, and the frame that is read back is
told from it by nothing but the numbers that it draws. -/
theorem ofDatum_datum_undergoAll [Memo.Stack] [Algebra.Engine] {ds : List Drive}
    {unseeded : Random.Stream} {seed : Datum} {state : Option (List Value)}
    (hmake : make ds b unseeded seed state = .ok f) (events : List Event) :
    ∃ d, (f.undergoAll events).datum = .ok d ∧
      ∀ stream fresh, ∃ f', ofDatum stream fresh d = .ok f' ∧
        (f.undergoAll events).Restores f' := by
  have hlasting := (lasting_of_make hmake).undergoAll events
  obtain ⟨d, hd, hread⟩ := hlasting.exists_datum
  exact ⟨d, hd, fun stream fresh => ⟨_, hread stream fresh, hlasting.restores stream⟩⟩

/-- A state that no move leads to, and one axis homed. -/
def tour : List Event :=
  [.setState [some (.int 3), some (.int (-5)), some (.int 0), some (.int 0)],
    .command (.homeAxis (.int 0))]

/-- Training on one example. -/
def lesson : Event :=
  .calibrate .standard [⟨[.zero, .zero, .half, .half], [.zero, .half, .half, .half]⟩] .silent

theorem ofDatum_datum_undergoAll_tour : ∃ d f',
    (pair.undergoAll (tour ++ [lesson])).datum = .ok d ∧ ofDatum (.ofSeed 1) default d = .ok f' ∧
      (pair.undergoAll (tour ++ [lesson])).Restores f' ∧
      f'.state = [some (.int 0), some (.int (-5)), some (.real .half), some (.int 0)] := by
  have hmake : make [⟨.int 0, .int 10, none, rfl⟩, ⟨.int (-5), .int 5, none, rfl⟩]
      ⟨true, some (.int 3), some (.real .half)⟩ (.ofSeed 0) .null none = .ok pair := rfl
  obtain ⟨d, hd, hread⟩ := ofDatum_datum_undergoAll hmake (tour ++ [lesson])
  obtain ⟨f', hf', hrestores⟩ := hread (.ofSeed 1) default
  refine ⟨d, f', hd, hf', hrestores, ?_⟩
  have htour : (pair.undergoAll tour).state =
      [some (.int 0), some (.int (-5)), some (.real .half), some (.int 0)] := by
    decide +kernel
  have hlesson (k : Frame) : k.Alongside (k.undergo lesson) := alongside_calibrate k ..
  have hlast : pair.undergoAll (tour ++ [lesson]) = (pair.undergoAll tour).undergo lesson :=
    List.foldl_concat ..
  rw [hrestores.state, hlast, (hlesson _).state, htour]

end Gantry.Frame
