import Mathlib.Tactic.FieldSimp
import Mathlib.Tactic.Ring
import Gantry.Proofs.Frame.Scaling
import Gantry.Proofs.Network.Breadth
import Gantry.Proofs.Training.Exactness

/-!
What training a frame achieves, in exact arithmetic. Training and corrections use the same
coordinates, so the loss over the examples in coordinates is the mean square of what the correction
misses on the examples, each component in units of its scale. Without a loss nothing is missed.
-/

namespace Gantry

open Gantry.Training

attribute [-instance] Scalar.toAdd Scalar.toSub Scalar.toMul Scalar.toDiv

/-! ### Means of squares -/

/-- The mean of the squares of numbers. -/
def squareMean (xs : List ℚ) : ℚ := (xs.map (· ^ 2)).sum / xs.length

/-- The mean over lists of one length, of the mean squares of these, is that of all their entries. -/
theorem squareMean_flatten {width : Nat} {xss : List (List ℚ)} (h : ∀ xs ∈ xss, xs.length = width) :
    (xss.map squareMean).sum / xss.length = squareMean xss.flatten := by
  have hlength : xss.flatten.length = xss.length * width := by
    rw [List.length_flatten, List.map_congr_left h, List.map_const', List.sum_replicate, smul_eq_mul]
  have hsum : (xss.map squareMean).sum = (xss.flatten.map (· ^ 2)).sum / width := by
    clear hlength
    induction xss with
    | nil => simp
    | cons xs xss ih =>
        rw [List.forall_mem_cons] at h
        rw [List.map_cons, List.sum_cons, ih h.2, squareMean, h.1, List.flatten_cons, List.map_append,
          List.sum_append, add_div]
  rw [hsum, squareMean, hlength, div_div, Nat.cast_mul, mul_comm (width : ℚ)]

theorem forall_eq_zero_of_squareMean {xs : List ℚ} (h : squareMean xs = 0) : ∀ x ∈ xs, x = 0 := by
  intro x hx
  have hsome : (xs.length : ℚ) ≠ 0 := Nat.cast_ne_zero.2 (List.length_pos_of_mem hx).ne'
  have hsum : (xs.map (· ^ 2)).sum = 0 := (div_eq_zero_iff.1 h).resolve_right hsome
  have hnonneg : ∀ y ∈ xs.map (· ^ 2), 0 ≤ y := List.forall_mem_map.2 fun y _ => sq_nonneg y
  have hsquare : x ^ 2 = 0 := List.all_zero_of_le_zero_le_of_sum_eq_zero hnonneg hsum
    (List.mem_map_of_mem hx)
  exact (pow_eq_zero_iff two_ne_zero).1 hsquare

/-- The mean loss of examples that can all be measured. -/
theorem meanLoss_map {β : Type} {gauge : Gauge ℚ} {w : List ℚ} {es : List β}
    {given : β → Example ℚ} {loss : β → ℚ} (h : ∀ e ∈ es, ∃ ds, gauge w (given e) = .ok (loss e, ds)) :
    meanLoss gauge (es.map given) w = .ok ((es.map loss).sum / es.length) := by
  -- Losses are added up one after the other, so the induction is for any total so far.
  have htotal (total : ℚ) : (es.map given).foldlM (fun total e => return total + (← gauge w e).1)
      total = (.ok (total + (es.map loss).sum) : Except Fault ℚ) := by
    induction es generalizing total with
    | nil =>
        rw [List.map_nil, List.map_nil, List.sum_nil, add_zero]
        rfl
    | cons e es ih =>
        obtain ⟨⟨ds, hds⟩, hrest⟩ := List.forall_mem_cons.1 h
        rw [List.map_cons, List.foldlM_cons, hds]
        refine (ih hrest _).trans ?_
        rw [List.map_cons, List.sum_cons, add_assoc]
  have hzero : (Scalar.zero : ℚ) = 0 := Nat.cast_zero
  rw [meanLoss, hzero, htotal, zero_add, List.length_map]
  rfl

/-! ### Coordinates -/

namespace Normalization

variable {n : Normalization ℚ} {width : Nat}

/-- Coordinates of some width without a zero scale. -/
structure Regular (n : Normalization ℚ) (width : Nat) : Prop where
  offset : n.offset.length = width
  scale : n.scale.length = width
  nonzero : ∀ x ∈ n.scale, x ≠ 0

/-- The coordinates of a state of the right length. -/
def centred (n : Normalization ℚ) (xs : List ℚ) : List ℚ :=
  List.zipWith (· / ·) (List.zipWith (· - ·) xs n.offset) n.scale

/-- An example of states of the right length, in coordinates. -/
def centre (n : Normalization ℚ) (e : Example ℚ) : Example ℚ :=
  ⟨n.centred e.input, n.centred e.target⟩

/-- The state at coordinates of the right length. -/
def placed (n : Normalization ℚ) (ys : List ℚ) : List ℚ :=
  List.zipWith (· + ·) (List.zipWith (· * ·) ys n.scale) n.offset

variable (h : n.Regular width) {xs ys : List ℚ}

include h

theorem Regular.length_centred (hxs : xs.length = width) : (n.centred xs).length = width := by
  simp [centred, h.offset, h.scale, hxs]

theorem Regular.length_placed (hys : ys.length = width) : (n.placed ys).length = width := by
  simp [placed, h.offset, h.scale, hys]

theorem Regular.coordinates?_eq (hxs : xs.length = width) :
    n.coordinates? xs = some (n.centred xs) := by
  have hcentred : (List.zipWith (· - ·) xs n.offset).length = n.scale.length := by
    simp [h.offset, h.scale, hxs]
  rw [coordinates?, entrywise_of_length _ (hxs.trans h.offset.symm), Option.bind_some]
  exact entrywise_of_length _ hcentred

theorem Regular.state?_eq (hys : ys.length = width) : n.state? ys = some (n.placed ys) := by
  have hscaled : (List.zipWith (· * ·) ys n.scale).length = n.offset.length := by
    simp [h.offset, h.scale, hys]
  rw [state?, entrywise_of_length _ (hys.trans h.scale.symm), Option.bind_some]
  exact entrywise_of_length _ hscaled

theorem Regular.ofExample_eq {e : Example ℚ} (hinput : e.input.length = width)
    (htarget : e.target.length = width) :
    n.ofExample e = .ok (n.centre e) := by
  unfold ofExample
  dsimp only
  rw [h.coordinates?_eq hinput, h.coordinates?_eq htarget]
  rfl

/-- What a state at some coordinates misses, in units of the scale, is what the coordinates miss. -/
theorem Regular.scaled_placed (hys : ys.length = width) (hxs : xs.length = width) :
    List.zipWith (· / ·) (List.zipWith (· - ·) (n.placed ys) xs) n.scale =
      List.zipWith (· - ·) ys (n.centred xs) := by
  refine List.ext_getElem ?_ fun i hi hi' => ?_
  · simp [placed, centred, h.offset, h.scale, hxs, hys]
  · rw [List.length_zipWith, lt_min_iff] at hi
    have hscale := h.nonzero _ (List.getElem_mem hi.2)
    simp only [placed, centred, List.getElem_zipWith]
    field_simp
    ring

/-- A state is placed where it is, by its coordinates. -/
theorem Regular.placed_centred (hxs : xs.length = width) : n.placed (n.centred xs) = xs := by
  refine List.ext_getElem ?_ fun i hi hi' => ?_
  · rw [h.length_placed (h.length_centred hxs), hxs]
  · have hi'' : i < n.scale.length := by rwa [h.scale, ← hxs]
    have hscale := h.nonzero _ (List.getElem_mem hi'')
    simp only [placed, centred, List.getElem_zipWith]
    field_simp
    ring

end Normalization

namespace Frame

namespace Scaling

/-! ### Exact arithmetic -/

/-- The limits of a drive as they are, unless they are infinite. -/
def exactLimits (d : Drive) : Except Fault (ℚ × ℚ) := do
  let low ← (Arithmetic.exact.literal d.low).mapError Numerics.exact.fault
  let high ← (Arithmetic.exact.literal d.high).mapError Numerics.exact.fault
  return (low, high)

/-- Numbers that are not rounded. -/
def exact : Scaling Unit ℚ ℚ where
  toNumerics := Numerics.exact
  middle d := (exactLimits d).map fun limits => (limits.1 + limits.2) / 2
  reach d := (exactLimits d).map fun limits => (limits.2 - limits.1) / 2
  isZero x := x = 0
  weight := Binary64.ratio

variable {width : Nat} {net : Network} {gauge : Gauge ℚ} {names : List String} {w xs : List ℚ}

/-- A network of one affine layer that can be trained predicts what its layer makes of inputs. -/
theorem exact_predict_affineNetwork (hnet : affineNetwork width = .ok net)
    (hmeasure : exact.measure net = .ok (gauge, names)) (hw : w.length = net.weights.length)
    (hxs : xs.length = width) :
    ∃ ys, net.layerwise w xs = .ok ys ∧ ys.length = width ∧ exact.predict net w xs = .ok ys := by
  obtain ⟨hlinear, ⟨l, hlayers⟩, houtputs⟩ := affineNetwork_eq_ok hnet
  obtain ⟨ev, htraining⟩ := Numerics.exists_training_of_measure hmeasure
  -- The loss has at least as many levels as the outputs, so what trains is not too deep to predict.
  have hshallow := hlinear.not_tooDeep_of_training hlayers houtputs.ge htraining
  have hshort := hlinear.not_tooNested_of_training hlayers houtputs.ge htraining
  obtain ⟨ys, hys, hlength, hpredict⟩ := exact_predict hlinear
    (hlinear.predictionAnew_single hlayers) hshallow hshort hw
    (hxs.trans hlinear.kept.inputs_eq.symm)
  exact ⟨ys, hys, hlength.trans houtputs, hpredict⟩

/-- What a correction misses of the target of an example, in units of the scale. -/
def misses (c : Correction ℚ) (e : Example ℚ) : Except Network.Failure (List ℚ) := do
  let reached ← exact.actual c e.input
  return List.zipWith (· / ·) (List.zipWith (· - ·) reached e.target) c.normalization.scale

theorem meanSquareOver_eq {ys ts : List ℚ} (h : ys.length = ts.length) :
    Network.meanSquareOver ys ts = squareMean (List.zipWith (· - ·) ys ts) := by
  rw [Network.meanSquareOver, squareMean, List.map_zipWith, List.length_zipWith, h, Nat.min_self]

/-- The loss of an example in coordinates is the mean square of what is missed. -/
theorem exists_misses {c : Correction ℚ} (hnet : affineNetwork width = .ok c.network)
    (hmeasure : exact.measure c.network = .ok (gauge, names))
    (hweights : c.weights.length = c.network.weights.length)
    (hn : c.normalization.Regular width) {e : Example ℚ} (hinput : e.input.length = width)
    (htarget : e.target.length = width) :
    ∃ missed ds, misses c e = .ok missed ∧ missed.length = width ∧
      gauge c.weights (c.normalization.centre e) = .ok (squareMean missed, ds) ∧
      ((∀ x ∈ missed, x = 0) → exact.actual c e.input = .ok e.target) := by
  obtain ⟨hlinear, -, houtputs⟩ := affineNetwork_eq_ok hnet
  have hinputs := hlinear.kept.inputs_eq
  obtain ⟨ys, hys, hlength, hpredict⟩ :=
    exact_predict_affineNetwork hnet hmeasure hweights (hn.length_centred hinput)
  have hactual : exact.actual c e.input = .ok (c.normalization.placed ys) := by
    rw [Numerics.actual, Normalization.predictActual, hn.coordinates?_eq hinput, hinputs, houtputs]
    dsimp only
    rw [hpredict, beq_self_eq_true]
    dsimp only
    rw [if_pos rfl, hn.state?_eq hlength]
  have hmisses : misses c e = .ok (List.zipWith (· - ·) ys (c.normalization.centred e.target)) := by
    rw [misses, hactual]
    exact congrArg Except.ok (hn.scaled_placed hlength htarget)
  have hgiven := hn.length_centred htarget
  obtain ⟨ds, hgauge, -⟩ := measures_of_measure hlinear hmeasure c.weights (c.normalization.centre e)
    hweights ((hn.length_centred hinput).trans hinputs.symm) (hgiven.trans houtputs.symm)
  have hloss : c.network.lossOver c.weights (c.normalization.centred e.input)
      (c.normalization.centred e.target) =
        squareMean (List.zipWith (· - ·) ys (c.normalization.centred e.target)) := by
    rw [Network.lossOver, hys]
    exact meanSquareOver_eq (hlength.trans hgiven.symm)
  refine ⟨_, ds, hmisses, ?_, ?_, fun hnone => ?_⟩
  · rw [List.length_zipWith, hlength, hgiven, Nat.min_self]
  · rw [hgauge]
    exact congrArg (fun loss => Except.ok (loss, ds)) hloss
  · have hsame : ys = c.normalization.centred e.target := by
      refine List.ext_getElem (hlength.trans hgiven.symm) fun i hi hi' => sub_eq_zero.1 ?_
      exact hnone _ (List.mem_iff_getElem.2 ⟨i, by simp [hi, hi'], List.getElem_zipWith ..⟩)
    rw [hactual, hsame, hn.placed_centred htarget]

section Calibrated

variable {f : Frame} {s : Settings} {examples : List (Example ℚ)} {observer : Observer}
  {r : Result ℚ} {c : Correction ℚ} (h : exact.Calibrates f s examples observer r c)

include h

theorem Calibrates.regular : c.normalization.Regular f.width := by
  obtain ⟨hoffset, hscale⟩ := length_normalization h.normalization
  refine ⟨hoffset, hscale, fun x hx hzero => ?_⟩
  exact List.any_eq_false.1 h.nonzero x hx (decide_eq_true hzero)

theorem Calibrates.length_weights : c.weights.length = c.network.weights.length := by
  obtain ⟨given, run, -, hrun, hr⟩ := h.training
  rw [h.weights, ← Numerics.weights_of_fit hrun hr]
  exact Numerics.length_weights_of_fit hrun (by simp [Network.weightValues])

/-- The mean loss of the final weights is the mean square of what the correction misses. -/
theorem Calibrates.exists_missed
    (hwidth : ∀ e ∈ examples, e.input.length = f.width ∧ e.target.length = f.width) :
    ∃ given gauge missed, examples.mapM c.normalization.ofExample = .ok given ∧
      (∃ run, exact.fit c.network s given observer (c.network.weightValues.map Binary64.ratio) =
        .ok run ∧ run.outcome = .ok r) ∧
      exact.measure c.network = .ok (gauge, c.network.weightNames) ∧
      examples.mapM (misses c) = .ok missed ∧ (∀ m ∈ missed, m.length = f.width) ∧
      meanLoss gauge given c.weights = .ok (squareMean missed.flatten) ∧
      (meanLoss gauge given c.weights = .ok 0 →
        ∀ e ∈ examples, exact.actual c e.input = .ok e.target) := by
  have hregular := h.regular
  obtain ⟨given, run, hgiven, hrun, hr⟩ := h.training
  obtain ⟨options, gauge, -, hmeasure, -⟩ := Numerics.fit_eq_ok hrun
  have hnet := h.network
  rw [hregular.offset] at hnet
  have hmisses (e : Example ℚ) (he : e ∈ examples) :=
    exists_misses hnet hmeasure h.length_weights hregular (hwidth e he).1 (hwidth e he).2
  choose! missed ds hmissed hlength hgauge hnone using hmisses
  have hexamples := mapM_eq_ok_map fun e he => hregular.ofExample_eq (hwidth e he).1 (hwidth e he).2
  obtain rfl := Except.ok.inj (hgiven.symm.trans hexamples)
  have hmean := squareMean_flatten (List.forall_mem_map.2 hlength)
  rw [List.map_map, List.length_map] at hmean
  have hloss := (meanLoss_map fun e he => ⟨ds e, hgauge e he⟩).trans (congrArg Except.ok hmean)
  refine ⟨_, gauge, _, hgiven, ⟨run, hrun, hr⟩, hmeasure, mapM_eq_ok_map hmissed,
    List.forall_mem_map.2 hlength, hloss, fun hzero e he => hnone e he fun x hx => ?_⟩
  exact forall_eq_zero_of_squareMean (Except.ok.inj (hloss.symm.trans hzero)) x
    (List.mem_flatten.2 ⟨_, List.mem_map_of_mem he, hx⟩)

end Calibrated

/-- Training a frame and correcting with it use one normalization. A frame that cannot be calibrated
is left as it was; one that is calibrated gets a calibration in its own coordinates, with the final
weights, which does what the calculation says. In exact arithmetic, the mean loss of the final
weights over the examples in coordinates is the mean square of what the correction misses, over all
examples and components, each in units of its scale; if there is no loss, every input is corrected
to its target. -/
theorem accuracy_of_calibrate (f : Frame) (s : Settings) (observer : Observer) :
    (∀ examples : List (Example Binary64),
      (∀ e, (f.calibrate s examples observer).result = .error e →
        (f.calibrate s examples observer).frame = f ∧
          machine.calibrate f s examples observer = none) ∧
      ∀ r, (f.calibrate s examples observer).result = .ok r →
        ∃ c c', (f.calibrate s examples observer).frame = { f with calibration := some c } ∧
          c.result = some r ∧ f.normalization = .ok c.normalization ∧
          c.network.weightValues = r.weights ∧
          machine.calibrate f s examples observer = some (r, c') ∧ Enacts c c') ∧
    ∀ examples : List (Example ℚ),
      (∀ e ∈ examples, e.input.length = f.width ∧ e.target.length = f.width) →
      ∀ r c, exact.calibrate f s examples observer = some (r, c) →
        exact.normalization f = .ok c.normalization ∧ c.weights = r.weights ∧
        ∃ given gauge missed, examples.mapM c.normalization.ofExample = .ok given ∧
          (∃ run, exact.fit c.network s given observer (c.network.weightValues.map Binary64.ratio) =
            .ok run ∧ run.outcome = .ok r) ∧
          exact.measure c.network = .ok (gauge, c.network.weightNames) ∧
          examples.mapM (misses c) = .ok missed ∧ (∀ m ∈ missed, m.length = f.width) ∧
          meanLoss gauge given c.weights = .ok (squareMean missed.flatten) ∧
          (meanLoss gauge given c.weights = .ok 0 →
            ∀ e ∈ examples, exact.actual c e.input = .ok e.target) := by
  refine ⟨fun examples => ?_, fun examples hwidth r c hcalibrate => ?_⟩
  · obtain ⟨herror, hok⟩ := machine_calibrate f s examples observer
    refine ⟨herror, fun r hr => ?_⟩
    obtain ⟨c, c', hframe, hresult, hcalibrate, henacts⟩ := hok r hr
    have hcalibrates := calibrates_of_calibrate hcalibrate
    have hnormalization := hcalibrates.normalization
    rw [← henacts.normalization, machine_normalization] at hnormalization
    exact ⟨c, c', hframe, hresult, hnormalization, henacts.weights.trans hcalibrates.weights,
      hcalibrate, henacts⟩
  · have hcalibrates := calibrates_of_calibrate hcalibrate
    exact ⟨hcalibrates.normalization, hcalibrates.weights, hcalibrates.exists_missed hwidth⟩

/-- One axis without backlash. -/
def rail : Frame :=
  ⟨[⟨⟨.int 0, .int 4, some "X", rfl⟩, none, none⟩], ⟨false, none, none⟩, .ofSeed 0, none⟩

/-- What was measured at the limits of the axis. -/
def railExamples : List (Example ℚ) := [⟨[0], [1]⟩, ⟨[4], [3]⟩]

theorem accuracy_of_calibrate_rail :
    (∀ e ∈ railExamples, e.input.length = rail.width ∧ e.target.length = rail.width) ∧
      ∃ r c, exact.calibrate rail (lineSettings .half .zero .epoch) railExamples .silent =
          some (r, c) ∧
        exact.normalization rail = .ok c.normalization ∧
        ∃ given gauge missed, railExamples.mapM (misses c) = .ok missed ∧
          meanLoss gauge given c.weights = .ok (squareMean missed.flatten) := by
  have hwidth : ∀ e ∈ railExamples, e.input.length = rail.width ∧ e.target.length = rail.width := by
    simp [railExamples, rail, width]
  have hnormalization : exact.normalization rail = .ok ⟨[2], [2]⟩ := by
    have hlimits : exact.normalization rail =
        .ok ⟨[((0 : ℤ) + (4 : ℤ) : ℚ) / 2], [((4 : ℤ) - (0 : ℤ) : ℚ) / 2]⟩ := rfl
    norm_num at hlimits
    exact hlimits
  have hregular : Normalization.Regular ⟨[2], [2]⟩ 1 := ⟨rfl, rfl, by simp⟩
  have hgiven : railExamples.mapM (Normalization.ofExample ⟨[2], [2]⟩) =
      .ok (railExamples.map (Normalization.centre ⟨[2], [2]⟩)) :=
    mapM_eq_ok_map fun e he => hregular.ofExample_eq (hwidth e he).1 (hwidth e he).2
  have hnet : affineNetwork 1 = .ok line := rfl
  obtain ⟨gauge, hmeasure, hmeasures⟩ := exists_exact_measure_line
  have hchecked : checked line (lineSettings .half .zero .epoch)
      ((railExamples.map (Normalization.centre ⟨[2], [2]⟩)).map Example.outline) =
      .ok ⟨5, .real .zero, .constant (.ofReal .half), .epoch⟩ := rfl
  have hweights : (line.weightValues.map Binary64.ratio).length = line.weights.length := rfl
  have hsilent : ∀ k, Observer.silent.interruptsAfter k = false := fun _ => rfl
  obtain ⟨run, r, hrun, hr⟩ := exists_exact_result hmeasure hmeasures hchecked hweights
    (fun k => ⟨.half, rfl⟩) hsilent
  have hcalibrate : exact.calibrate rail (lineSettings .half .zero .epoch) railExamples .silent =
      some (r, ⟨line, r.weights, ⟨[2], [2]⟩⟩) := by
    have hend : Observer.silent.interruptsAtEnd = false := rfl
    have hzero : ([2] : List ℚ).any exact.isZero = false := by simp [exact]
    have htrain : exact.train ⟨[2], [2]⟩ line (lineSettings .half .zero .epoch)
        (railExamples.map (Normalization.centre ⟨[2], [2]⟩)) .silent =
          some (r, ⟨line, r.weights, ⟨[2], [2]⟩⟩) :=
      train_eq_some_iff.2 ⟨⟨⟨run, hrun, hr⟩, hend⟩, hzero, rfl⟩
    simp only [calibrate, Option.bind_eq_bind, Option.bind_eq_some_iff, toOption_eq_some_iff]
    exact ⟨_, hnormalization, _, hgiven, line, hnet, htrain⟩
  obtain ⟨-, haccuracy⟩ := accuracy_of_calibrate rail (lineSettings .half .zero .epoch) .silent
  obtain ⟨hcoordinates, -, given, gauge, missed, -, -, -, hmissed, -, hloss, -⟩ :=
    haccuracy railExamples hwidth _ _ hcalibrate
  exact ⟨hwidth, r, _, hcalibrate, hcoordinates, given, gauge, missed, hmissed, hloss⟩

end Scaling

end Frame

end Gantry
