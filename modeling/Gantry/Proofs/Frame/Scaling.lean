import Gantry.Frame.Calibration
import Gantry.Proofs.Calibration.Numerics
import Gantry.Proofs.Calibration.Persistence

/-!
Frames calibrated with the numbers left open. A network of one affine layer is trained and asked in
the coordinates that the drives give; with machine numbers this is how frames are calibrated
anyway.
-/

namespace Gantry

open Gantry.Training

/-- An example in coordinates. -/
def Normalization.ofExample {α : Type} [Scalar α] (n : Normalization α) (e : Example α) :
    Except Fault (Example α) := do
  let coordinates (xs : List α) := (n.coordinates? xs).elim (.error (.value none)) .ok
  let input ← coordinates e.input
  let target ← coordinates e.target
  return ⟨input, target⟩

namespace Frame

/-- What numbers are when a frame is calibrated: besides training and prediction, what they make of
drives, and of the weights that training begins with. -/
structure Scaling (ε β α : Type) extends Numerics ε β α where
  /-- The middle of the range of a drive. -/
  middle : Drive → Except Fault α
  /-- Half of the range of a drive. -/
  reach : Drive → Except Fault α
  isZero : α → Bool
  weight : Binary64 → α

namespace Scaling

/-- Machine numbers. -/
def machine : Scaling EvalFailure Operand Binary64 where
  toNumerics := Numerics.machine
  middle d := halfOf Number.add d.low d.high
  reach d := halfOf Number.sub d.high d.low
  isZero := Binary64.isZero
  weight := id

variable {ε β α : Type} [Scalar α] (R : Scaling ε β α)

/-- Coordinates centred on the middle of each range, in units of half of it; deadbands stay as they
are. -/
def normalization (f : Frame) : Except Fault (Normalization α) := do
  let middles ← f.drives.mapM R.middle
  let ranges ← f.drives.mapM R.reach
  let deadbands (x : α) := if f.backlash.active then f.axes.map fun _ => x else []
  return ⟨middles ++ deadbands Scalar.zero, ranges ++ deadbands Scalar.one⟩

/-- Trains a network in some coordinates, to the result of the training and the correction by the
network, if there is one. -/
def train [Memo.Stack] [Algebra.Engine] (n : Normalization α) (net : Network) (s : Settings)
    (given : List (Example α))
    (observer : Observer) : Option (Result α × Correction α) := do
  let run ← (R.fit net s given observer (net.weightValues.map R.weight)).toOption
  let result ← run.outcome.toOption
  if observer.interruptsAtEnd || n.scale.any R.isZero then none
  else some (result, ⟨net, run.weights, n⟩)

/-- What calibrating a frame comes to, if it succeeds. -/
def calibrate [Memo.Stack] [Algebra.Engine] (f : Frame) (s : Settings) (examples : List (Example α))
    (observer : Observer) :
    Option (Result α × Correction α) := do
  let n ← (R.normalization f).toOption
  let given ← (examples.mapM n.ofExample).toOption
  let net ← (affineNetwork n.offset.length).toOption
  R.train n net s given observer

/-! ### Behind a correction -/

section Corrections

variable {R : Scaling ε β α} {f : Frame} {net : Network} {s : Settings} {observer : Observer}
  {n : Normalization α} {r : Result α} {c : Correction α}

theorem length_normalization (h : R.normalization f = .ok n) :
    n.offset.length = f.width ∧ n.scale.length = f.width := by
  obtain ⟨middles, hmiddles, h⟩ := Formula.bind_eq_ok_iff.1 h
  obtain ⟨ranges, hranges, h⟩ := Formula.bind_eq_ok_iff.1 h
  obtain rfl := Except.ok.inj h
  have hlow := (mapM_eq_ok_iff.1 hmiddles).length_eq
  have hrange := (mapM_eq_ok_iff.1 hranges).length_eq
  rw [drives, List.length_map] at hlow hrange
  cases hactive : f.backlash.active <;>
    simp [width, hactive, ← hlow, ← hrange, Nat.mul_two]

theorem train_eq_some_iff [Memo.Stack] [Algebra.Engine] {given : List (Example α)} :
    R.train n net s given observer = some (r, c) ↔
      ((∃ run, R.fit net s given observer (net.weightValues.map R.weight) = .ok run ∧
        run.outcome = .ok r) ∧ observer.interruptsAtEnd = false) ∧
        n.scale.any R.isZero = false ∧ c = ⟨net, r.weights, n⟩ := by
  simp only [train, Option.bind_eq_bind, Option.bind_eq_some_iff, toOption_eq_some_iff]
  constructor
  · rintro ⟨run, hrun, result, hresult, h⟩
    split at h
    · cases h
    · rename_i hgoes
      obtain ⟨rfl, rfl⟩ := Prod.mk.inj (Option.some.inj h)
      rw [Bool.not_eq_true, Bool.or_eq_false_iff] at hgoes
      rw [Numerics.weights_of_fit hrun hresult]
      exact ⟨⟨⟨run, hrun, hresult⟩, hgoes.1⟩, hgoes.2, rfl⟩
  · rintro ⟨⟨⟨run, hrun, hresult⟩, hend⟩, hzero, rfl⟩
    refine ⟨run, hrun, r, hresult, ?_⟩
    rw [hend, hzero, Numerics.weights_of_fit hrun hresult]
    rfl

/-- What is behind a correction that calibrating gives a frame. -/
structure Calibrates [Memo.Stack] [Algebra.Engine] (R : Scaling ε β α) (f : Frame) (s : Settings)
    (examples : List (Example α)) (observer : Observer) (r : Result α) (c : Correction α) : Prop where
  normalization : R.normalization f = .ok c.normalization
  network : affineNetwork c.normalization.offset.length = .ok c.network
  weights : c.weights = r.weights
  nonzero : c.normalization.scale.any R.isZero = false
  training : ∃ given run, examples.mapM c.normalization.ofExample = .ok given ∧
    R.fit c.network s given observer (c.network.weightValues.map R.weight) = .ok run ∧
    run.outcome = .ok r

theorem calibrates_of_calibrate [Memo.Stack] [Algebra.Engine] {examples : List (Example α)}
    (h : R.calibrate f s examples observer = some (r, c)) :
    R.Calibrates f s examples observer r c := by
  simp only [calibrate, Option.bind_eq_bind, Option.bind_eq_some_iff, toOption_eq_some_iff] at h
  obtain ⟨n, hn, given, hgiven, net, hnet, htrain⟩ := h
  obtain ⟨⟨⟨run, hrun, hr⟩, -⟩, hzero, rfl⟩ := train_eq_some_iff.1 htrain
  exact ⟨hn, hnet, rfl, hzero, given, run, hgiven, hrun, hr⟩

end Corrections

end Scaling

/-! ### Networks of one affine layer -/

/-- A network of one affine layer has as many outputs as inputs. -/
theorem affineNetwork_eq_ok [Memo.Stack] [Algebra.Engine] {width : Nat} {net : Network}
    (h : affineNetwork width = .ok net) :
    net.Linear width ∧ (∃ l, net.layers = [l]) ∧ net.outputs = width := by
  obtain ⟨layer, hlayer, h⟩ := Formula.bind_eq_ok_iff.1 h
  obtain ⟨start, hempty, h⟩ := Formula.bind_eq_ok_iff.1 h
  obtain ⟨-, -, h⟩ := Formula.bind_eq_ok_iff.1 h
  obtain ⟨hwidth, -⟩ := Network.empty_eq_ok_iff.1 hempty
  obtain rfl : ⟨width, .identity, .identity, none, []⟩ = layer := by
    rw [Network.Dense.make, if_neg (by omega)] at hlayer
    exact Except.ok.inj hlayer
  have hnet : start.perform (.add (.loose (.dense ⟨width, .identity, .identity, none, []⟩)) default) =
      net := Except.ok.inj h
  obtain ⟨hlinear, l, hlayers, hkind⟩ :=
    Network.linear_single hempty (Int.ofNat_lt.1 hwidth) default
  rw [hnet] at hlinear hlayers
  refine ⟨hlinear, ⟨l, hlayers⟩, ?_⟩
  rw [Network.outputs_eq, hlayers, Network.outputsOf_cons, Network.outputsOf_nil,
    Network.Layer.outputs, hkind]

namespace Scaling

/-! ### Machine numbers -/

theorem machine_normalization (f : Frame) : machine.normalization f = f.normalization := rfl

theorem machine_ofExample (n : Normalization Binary64) : n.ofExample = normalizeExample n := by
  have hcoordinates : (fun xs : List Binary64 => (n.coordinates? xs).elim (.error (.value none)) .ok) =
      normalize n := by
    funext xs
    rw [normalize]
    cases n.coordinates? xs <;> rfl
  unfold Normalization.ofExample
  rw [hcoordinates]
  rfl

theorem toOption_bind {ε α β : Type} (x : Except ε α) (g : α → Except ε β) :
    (x >>= g).toOption = x.toOption.bind fun a => (g a).toOption := by
  cases x <;> rfl

theorem toOption_mapError {ε ε' α : Type} (x : Except ε α) (g : ε → ε') :
    (x.mapError g).toOption = x.toOption := by
  cases x <;> rfl

/-- With machine numbers it is the task of a frame that is trained for. -/
theorem machine_calibrate_eq [Memo.Stack] [Algebra.Engine] (f : Frame) (s : Settings)
    (examples : List (Example Binary64))
    (observer : Observer) : machine.calibrate f s examples observer =
      (f.task examples).toOption.bind fun t =>
        machine.train t.normalization t.network s t.examples observer := by
  rw [calibrate, machine_normalization]
  simp only [machine_ofExample, task, toOption_bind, toOption_mapError, Option.bind_assoc,
    Option.bind_eq_bind]
  rfl

/-- A calibration does what a correction says. -/
structure Enacts [Memo.Stack] [Algebra.Engine] (c : Calibration) (c' : Correction Binary64) :
    Prop where
  normalization : c.normalization = c'.normalization
  weights : c.network.weightValues = c'.weights
  toActual : ∀ state, (c.toActual state).1 = machine.actual c' state

variable {width : Nat} {net : Network} {s : Settings} {given : List (Example Binary64)}
  {observer : Observer} {n : Normalization Binary64} {r : Result Binary64}

section

variable [Memo.Stack] [Algebra.Engine]

/-- What a trained network of one affine layer keeps of the network. -/
theorem fit_affineNetwork (hnet : affineNetwork width = .ok net)
    (s : Settings)
    (given : List (Example Binary64)) (observer : Observer) :
    net.Alike (Training.fit net s given observer).network ∧
      (Training.fit net s given observer).network.Faithful := by
  obtain ⟨hlinear, -, -⟩ := affineNetwork_eq_ok hnet
  obtain ⟨cache, hfaithful, f, hf, htrained⟩ :=
    exists_mapWeights_of_fit hlinear.kept.faithful hlinear.wellNamed.distinct s given observer
  have halike := Network.Alike.mapWeights { net with cache } hf
  rw [htrained]
  exact ⟨⟨halike.sequential, halike.inputs, halike.layers⟩, hfaithful.congr halike rfl⟩

/-- A calibration by the trained network does what the correction by the network says that has the
weights of the result. -/
theorem enacts_of_outcome (hnet : affineNetwork width = .ok net)
    (h : (Training.fit net s given observer).outcome = .ok r) :
    Enacts ⟨(Training.fit net s given observer).network, some r, n⟩ ⟨net, r.weights, n⟩ := by
  obtain ⟨hlinear, -, -⟩ := affineNetwork_eq_ok hnet
  obtain ⟨halike, hfaithful⟩ := fit_affineNetwork hnet s given observer
  have hweights := Numerics.weightValues_of_outcome h
  refine ⟨rfl, hweights, fun state => ?_⟩
  have hactual := Numerics.actual_congr (R := Numerics.machine) halike hlinear.kept.faithful
    hfaithful r.weights n
  rw [Numerics.machine_toActual, Calibration.correction, hweights, hactual]
  rfl

/-- A network of one affine layer makes a calibration, unless a scale is zero. -/
theorem make_of_affineNetwork (hnet : affineNetwork width = .ok net)
    (s : Settings)
    (given : List (Example Binary64)) (observer : Observer) (result : Option (Result Binary64))
    (hoffset : n.offset.length = width) (hscale : n.scale.length = width) :
    Calibration.make (Training.fit net s given observer).network result
      (some (.vector n.offset)) (some (.vector n.scale)) =
      if n.scale.any Binary64.isZero then .error .zeroScale
      else .ok ⟨(Training.fit net s given observer).network, result, n⟩ := by
  obtain ⟨hlinear, -, houtputs⟩ := affineNetwork_eq_ok hnet
  obtain ⟨halike, -⟩ := fit_affineNetwork hnet s given observer
  have hinputs := halike.inputs.symm.trans hlinear.kept.inputs_eq
  have hsquare := hinputs.trans (houtputs.symm.trans halike.outputs)
  rw [Calibration.make_coordinates (hoffset.trans hinputs.symm) (hscale.trans hinputs.symm),
    if_pos hsquare]

/-- With machine numbers a network is trained in coordinates as it is anyway. -/
theorem machine_train_eq_some_iff {c : Correction Binary64} :
    machine.train n net s given observer = some (r, c) ↔
      (Training.fit net s given observer).outcome = .ok r ∧ n.scale.any Binary64.isZero = false ∧
        c = ⟨net, r.weights, n⟩ := by
  have hstart : net.weightValues.map machine.weight = net.weightValues := List.map_id _
  rw [train_eq_some_iff, hstart, Numerics.outcome_fit_eq_ok_iff]
  rfl

end

theorem task_eq_ok {f : Frame} {examples : List (Example Binary64)} {t : Task}
    (h : f.task examples = .ok t) : f.normalization = .ok t.normalization ∧
      affineNetwork t.normalization.offset.length = .ok t.network := by
  obtain ⟨n, hn, h⟩ := Formula.bind_eq_ok_iff.1 h
  obtain ⟨given, -, h⟩ := Formula.bind_eq_ok_iff.1 h
  obtain ⟨net, hnet, h⟩ := Formula.bind_eq_ok_iff.1 h
  obtain rfl := Except.ok.inj h
  exact ⟨mapError_eq_ok_iff.1 hn, mapError_eq_ok_iff.1 hnet⟩

/-- A frame that is calibrated gets a calibration that does what the calculation with machine
numbers says; one that is not is left as it was. -/
theorem machine_calibrate [Memo.Stack] [Algebra.Engine] (f : Frame) (s : Settings)
    (examples : List (Example Binary64))
    (observer : Observer) :
    (∀ e, (f.calibrate s examples observer).result = .error e →
      (f.calibrate s examples observer).frame = f ∧
        machine.calibrate f s examples observer = none) ∧
    ∀ r, (f.calibrate s examples observer).result = .ok r →
      ∃ c c', (f.calibrate s examples observer).frame = { f with calibration := some c } ∧
        c.result = some r ∧ machine.calibrate f s examples observer = some (r, c') ∧ Enacts c c' := by
  rw [machine_calibrate_eq]
  unfold Frame.calibrate
  cases htask : f.task examples with
  | error e => simp [Except.toOption]
  | ok t =>
      obtain ⟨hn, hnet⟩ := task_eq_ok htask
      obtain ⟨hoffset, hscale⟩ := length_normalization (R := machine) hn
      have hnone (h : ∀ r, (Training.fit t.network s t.examples observer).outcome = .ok r →
          t.normalization.scale.any Binary64.isZero = true) :
          machine.train t.normalization t.network s t.examples observer = none := by
        refine Option.eq_none_iff_forall_ne_some.2 fun p hp => ?_
        obtain ⟨houtcome, hzero, -⟩ := machine_train_eq_some_iff.1 hp
        exact Bool.false_ne_true (hzero.symm.trans (h _ houtcome))
      dsimp only [Except.toOption, Option.bind]
      cases houtcome : (Training.fit t.network s t.examples observer).outcome with
      | error e => exact ⟨fun _ _ => ⟨rfl, hnone (by simp [houtcome])⟩, nofun⟩
      | ok r =>
          dsimp only
          -- Only a zero scale keeps a network that was trained from making a calibration.
          rw [make_of_affineNetwork hnet s t.examples observer _ rfl (hscale.trans hoffset.symm)]
          cases hzero : t.normalization.scale.any Binary64.isZero with
          | true => exact ⟨fun _ _ => ⟨rfl, hnone fun _ _ => hzero⟩, nofun⟩
          | false =>
              refine ⟨nofun, fun r' hr => ?_⟩
              obtain rfl := Except.ok.inj hr
              exact ⟨_, _, rfl, rfl, machine_train_eq_some_iff.2 ⟨houtcome, hzero, rfl⟩,
                enacts_of_outcome hnet houtcome⟩

end Scaling

end Frame

end Gantry
