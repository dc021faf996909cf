import Gantry.Proofs.Formula.Depth
import Gantry.Proofs.Network.Restoration
import Gantry.Proofs.Number.Exact
import Gantry.Proofs.Training.Numerics

/-!
Training in exact arithmetic. A network of linear layers is measured by its loss and the partial
derivatives of it, unless its formulas are too large to be compiled. As nothing runs out of range,
training then ends with a result as long as there are learning rates and no observer objects.
-/

namespace Gantry

open Training

/-- The value of a finite double. -/
def Binary64.ratio (x : Binary64) : ℚ := x.units / 2 ^ 1074

namespace Numerics

/-- Numbers that are not rounded. An improvement of any size is below a tolerance that is not
finite. -/
def exact : Numerics Unit ℚ ℚ where
  arithmetic := Arithmetic.exact
  fault _ := .value none
  value := id
  number v := v.elim (.error (.type none)) .ok
  loss v := v.elim (.error (.type none)) .ok
  rate options epoch := (options.plan.rate epoch).map Binary64.ratio
  settled options gain :=
    match Arithmetic.exact.literal options.tolerance with
    | .ok tolerance => gain < tolerance
    | .error _ => (Number.int 0).lt options.tolerance

end Numerics

namespace Numerics

variable {ε β α : Type} {R : Numerics ε β α} {ev : Memo.Evaluator} {net : Network} {n : Nat}

theorem length_of_runOver {A : Arithmetic ε α} {s : String → Option α} {vs : List (Option α)}
    (hsingle : ev.single = false) (h : ev.runOver A s = .ok vs) : vs.length = ev.targets.length := by
  unfold Memo.Evaluator.runOver at h
  split at h
  · cases hbind : Memo.Evaluator.bindAllOver A ev.entries s with
    | error f => simp [hbind, Except.map] at h
    | ok t =>
        obtain rfl : ev.results t = vs := by simpa [hbind, Except.map] using h
        simp [Memo.Evaluator.results, hsingle]
  · cases h

/-- Gradients have an entry for every weight. -/
theorem fits_gauge (htargets : ev.targets.length = n + 1) (hsingle : ev.single = false) :
    (R.gauge ev net).Fits n := by
  intro w e loss gradient _ hgauge
  unfold gauge at hgauge
  split at hgauge
  · cases hgauge
  · rename_i vs hrun
    obtain ⟨gradient', hgradient, hgauge⟩ := Formula.bind_eq_ok_iff.1 hgauge
    obtain ⟨loss', -, hgauge⟩ := Formula.bind_eq_ok_iff.1 hgauge
    cases hgauge
    rw [← (mapM_eq_ok_iff.1 hgradient).length_eq, List.length_tail, length_of_runOver hsingle hrun,
      htargets, Nat.add_sub_cancel]

theorem fits_measure {gauge : Gauge α} {names : List String}
    (h : R.measure net = .ok (gauge, names)) : gauge.Fits names.length := by
  unfold measure at h
  split at h
  · cases h
  · rename_i ev net' htraining
    obtain ⟨gs, hgradients, htargets, hsingle⟩ := training_eq_ok htraining
    rw [hgradients] at h
    cases h
    rw [List.length_map]
    exact fits_gauge htargets hsingle

/-- However training ends, it leaves as many weights as the network has. -/
theorem length_weights_of_fit [Scalar α] {s : Settings} {examples : List (Example α)}
    {observer : Observer} {weights : List α} {run : Run α}
    (h : R.fit net s examples observer weights = .ok run)
    (hstart : weights.length = net.weights.length) : run.weights.length = net.weights.length := by
  obtain ⟨options, gauge, -, hmeasure, rfl⟩ := fit_eq_ok h
  have hfits := fits_measure hmeasure
  rw [Network.weightNames, List.length_map] at hfits
  exact length_weights_descend _ _ _ hfits hstart

end Numerics

namespace Training

variable {net : Network} {inputs : Nat}

/-! ### Predictions -/

theorem exact_mapM_number (xs : List ℚ) : (xs.map some).mapM Numerics.exact.number = .ok xs := by
  have hnumber : ∀ x ∈ xs, Numerics.exact.number (some x) = .ok (id x) := fun _ _ => rfl
  rw [Network.mapM_map_eq_ok hnumber, List.map_id]

/-- What a linear network predicts exactly, unless its formulas are nested too deeply or take too
many brackets to write. -/
theorem exact_predict (h : net.Linear inputs) {ps : List Algebra.Expr}
    (hps : net.predictionAnew = .ok ps) (hshallow : ¬Network.TooDeep ps)
    (hshort : ¬Network.TooNested ps) {w xs : List ℚ} (hw : w.length = net.weights.length) (hxs : xs.length = net.inputs) :
    ∃ ys, net.layerwise w xs = .ok ys ∧ ys.length = net.outputs ∧
      Numerics.exact.predict net w xs = .ok ys := by
  obtain ⟨ps', hps', hcases⟩ := (h.exact Algebra.Engine.keepsValues_standard).prediction
  obtain rfl := Except.ok.inj (hps.symm.trans hps')
  obtain ⟨f, hlarge, -⟩ | ⟨-, -, ys, hys, hlength, hpredict⟩ := hcases w xs hw hxs
  · exact absurd (h.tooDeep_or_tooNested hps hlarge) (not_or.2 ⟨hshallow, hshort⟩)
  · refine ⟨ys, hys, hlength, ?_⟩
    have hvalues : net.predictOver Numerics.exact.arithmetic (w.map Numerics.exact.value)
        (xs.map Numerics.exact.value) = .ok (.ok (ys.map some)) := by
      simpa [Numerics.exact] using hpredict
    rw [Numerics.predict, hvalues, Numerics.answer, exact_mapM_number]
    rfl

/-! ### Measures -/

/-- Measures examples by the loss of a network and its partial derivatives in the weights. -/
def Measures (gauge : Gauge ℚ) (net : Network) : Prop :=
  ∀ w e, w.length = net.weights.length → e.input.length = net.inputs →
    e.target.length = net.outputs →
    ∃ ds, gauge w e = .ok (net.lossOver w e.input e.target, ds) ∧ ds.length = net.weights.length ∧
      ∀ k (hk : k < w.length) (hk' : k < ds.length),
        HasDerivAt (fun t => net.lossOver (w.set k t) e.input e.target) ds[k] w[k]

/-- What training compiles of a network. -/
def trained (net : Network) (loss : Algebra.Expr) : List Algebra.Expr :=
  loss :: net.weightNames.map fun x => Algebra.Engine.gradient x loss

theorem exact_gauge {ev : Memo.Evaluator} {w : List ℚ} {e : Example ℚ} {loss : ℚ} {ds : List ℚ}
    (hrun : ev.runOver Arithmetic.exact (net.scopeOver w e.input e.target) =
      .ok ((loss :: ds).map some)) :
    Numerics.exact.gauge ev net w e = .ok (loss, ds) := by
  have hgradient := exact_mapM_number ds
  unfold Numerics.gauge
  simp only [Numerics.exact, List.map_id] at hgradient ⊢
  rw [hrun, List.map_cons]
  dsimp only [List.tail_cons]
  rw [hgradient]
  rfl

/-- A linear network has an exact measure, unless what is compiled of it is too large. -/
theorem exact_measure_cases (h : net.Linear inputs) : ∃ loss, net.lossAnew = .ok loss ∧
    ((∃ f, Network.TooLarge (trained net loss) f ∧ Numerics.exact.measure net = .error f) ∨
      ¬Network.TooDeep (trained net loss) ∧ ¬Network.TooNested (trained net loss) ∧ ∃ gauge,
        Numerics.exact.measure net = .ok (gauge, net.weightNames) ∧ Measures gauge net) := by
  obtain ⟨loss, hloss, hcases⟩ := h.training_cases Algebra.Engine.keepsValues_standard
  obtain ⟨-, ⟨cache, hafter⟩, hfaithful⟩ := Network.derives_training h.kept.faithful
  refine ⟨loss, hloss, ?_⟩
  unfold Numerics.measure
  rcases htraining : net.training with ⟨result, after⟩
  rw [htraining] at hcases hafter hfaithful
  obtain rfl : after = { net with cache } := hafter
  obtain ⟨f, hlarge, rfl⟩ | ⟨hshallow, hshort, ev, rfl, hrun⟩ := hcases
  · exact .inl ⟨f, hlarge, rfl⟩
  · obtain ⟨hresult, ⟨cache', hafter'⟩, -⟩ := Network.derives_gradients hfaithful
    have hgradients : ({ net with cache } : Network).gradientsAnew =
        .ok (net.weightNames.map fun x => (x, Algebra.Engine.gradient x loss)) := by
      have hanew : ({ net with cache } : Network).lossAnew = .ok loss := hloss
      rw [Network.gradientsAnew, hanew]
      rfl
    rw [hgradients] at hresult
    refine .inr ⟨hshallow, hshort, Numerics.exact.gauge ev net, ?_, fun w e hw hinput htarget => ?_⟩
    · dsimp only
      rcases hpair : Network.gradients { net with cache } with ⟨gs, after⟩
      rw [hpair] at hresult hafter'
      obtain rfl := hresult
      obtain rfl : after = { net with cache := cache' } := hafter'
      dsimp only
      rw [List.map_map]
      exact congrArg (fun names => Except.ok (Numerics.exact.gauge ev net, names)) (List.map_id _)
    · obtain ⟨ds, hvalues, hlength, hderiv⟩ := hrun w e.input e.target hw hinput htarget
      exact ⟨ds, exact_gauge hvalues, hlength, hderiv⟩

theorem measures_of_measure (h : net.Linear inputs) {gauge : Gauge ℚ} {names : List String}
    (hmeasure : Numerics.exact.measure net = .ok (gauge, names)) : Measures gauge net := by
  obtain ⟨loss, -, ⟨f, -, hf⟩ | ⟨-, -, gauge', hgauge, hmeasures⟩⟩ := exact_measure_cases h
  · cases hmeasure.symm.trans hf
  · cases hmeasure.symm.trans hgauge
    exact hmeasures

/-- Formulas with short texts are neither too deep nor too nested. -/
theorem not_tooDeep {ps : List Algebra.Expr}
    (hshort : ∀ p ∈ ps, p.text.toList.length ≤ min Memo.depthLimit Code.bracketLimit) :
    ¬Network.TooDeep ps := by
  rintro ⟨p, hp, e, he, hdeep⟩
  have hlevels := (Formula.depth_le_length he).trans ((hshort p hp).trans (min_le_left _ _))
  exact absurd hlevels (not_le.2 hdeep)

theorem not_tooNested {ps : List Algebra.Expr}
    (hshort : ∀ p ∈ ps, p.text.toList.length ≤ min Memo.depthLimit Code.bracketLimit) :
    ¬Network.TooNested ps :=
  Network.not_tooNested_of_depth fun p hp _ he =>
    (Formula.depth_le_length he).trans ((hshort p hp).trans (min_le_right _ _))

/-- Nor are they too large, if they have short numerals only. -/
theorem not_tooLarge {ps : List Algebra.Expr} {f : Network.Failure}
    (hshort : ∀ p ∈ ps, p.text.toList.length ≤ min Memo.depthLimit Code.bracketLimit)
    (hnumerals : ∀ p ∈ ps, ∀ k ∈ p.numerals, k < 10 ^ wholeDigitLimit) :
    ¬Network.TooLarge ps f := by
  intro hlarge
  cases hlarge with
  | deep hdeep => exact not_tooDeep hshort hdeep
  | nested hnested => exact not_tooNested hshort hnested
  | long hp hk hlong => exact absurd (hnumerals _ hp _ hk) (not_lt.2 hlong)

theorem exists_exact_measure (h : net.Linear inputs) {loss : Algebra.Expr}
    (hloss : net.lossAnew = .ok loss)
    (hshort : ∀ p ∈ trained net loss,
      p.text.toList.length ≤ min Memo.depthLimit Code.bracketLimit)
    (hnumerals : ∀ p ∈ trained net loss, ∀ k ∈ p.numerals, k < 10 ^ wholeDigitLimit) :
    ∃ gauge, Numerics.exact.measure net = .ok (gauge, net.weightNames) ∧ Measures gauge net := by
  obtain ⟨loss', hloss', ⟨f, hlarge, -⟩ | ⟨-, -, hmeasure⟩⟩ := exact_measure_cases h
  · obtain rfl := Except.ok.inj (hloss.symm.trans hloss')
    exact absurd hlarge (not_tooLarge hshort hnumerals)
  · exact hmeasure

/-! ### Results -/

section Results

attribute [local instance] Scalar.ofField

variable {K : Type} [Field K] [LinearOrder K] {gauge : Gauge K} {examples : List (Example K)}
  {each : Bool} {rate : K} {epoch n : Nat} {start : List K}

/-- In exact arithmetic an epoch of examples that can be measured runs to its end. -/
theorem exists_runEpoch (hfits : gauge.Fits n) (hanswers : gauge.Answers n examples)
    (hstart : start.length = n) :
    ∃ after loss, runEpoch gauge each examples epoch rate start = .ok (after, loss) := by
  cases hrun : runEpoch gauge each examples epoch rate start with
  | ok ended => exact ⟨_, _, rfl⟩
  | error halt =>
      obtain ⟨_, _, -, hdiverges⟩ := runEpoch_eq_error hfits hanswers hstart hrun
      cases hdiverges with
      | measure _ _ _ hfinite => cases hfinite.symm.trans (by rw [Scalar.allFinite_ofField])
      | exampleUpdate _ _ _ _ hfinite => cases hfinite.symm.trans (Scalar.allFinite_ofField _)
      | epochUpdate _ _ hfinite => cases hfinite.symm.trans (Scalar.allFinite_ofField _)

/-- Training in exact arithmetic ends with a result, if examples can be measured, epochs have
learning rates, and nobody objects. -/
theorem exists_result {plan : Plan K} {interrupts : Nat → Bool} (hfits : gauge.Fits n)
    (hanswers : gauge.Answers n examples) (hstart : start.length = n)
    (hrate : ∀ k, ∃ rate, plan.rate k = .ok rate) (hsilent : ∀ k, interrupts k = false) :
    ∃ r, (descend plan gauge examples interrupts start).outcome = .ok r := by
  obtain ⟨hcourse, hending⟩ := descend_ending plan gauge examples interrupts start
  have hlength := hcourse.length_startOf hfits hstart (Nat.le_refl _)
  rw [startOf_length] at hlength
  cases houtcome : (descend plan gauge examples interrupts start).outcome with
  | ok r => exact ⟨r, rfl⟩
  | error stop =>
      rw [houtcome] at hending
      generalize (descend plan gauge examples interrupts start).reports = reports at *
      generalize (descend plan gauge examples interrupts start).weights = weights at *
      cases hending with
      | unrated _ _ hunrated =>
          obtain ⟨rate, hrated⟩ := hrate reports.length
          cases hunrated.symm.trans hrated
      | halted _ _ _ hhalted =>
          obtain ⟨after, loss, hrun⟩ := exists_runEpoch hfits hanswers hlength
          cases hhalted.symm.trans hrun
      | @interrupted done r _ _ hobjects => cases hobjects.symm.trans (hsilent done.length)

end Results

/-- Exact training of a network that has an exact measure ends with a result, if epochs have learning
rates and nobody objects. -/
theorem exists_exact_result {gauge : Gauge ℚ} {s : Settings} {options : Options}
    {examples : List (Example ℚ)} {observer : Observer} {weights : List ℚ}
    (hmeasure : Numerics.exact.measure net = .ok (gauge, net.weightNames))
    (hmeasures : Measures gauge net) (hchecked : checked net s (examples.map Example.outline) = .ok options)
    (hweights : weights.length = net.weights.length)
    (hrate : ∀ k, ∃ rate, options.plan.rate k = .ok rate)
    (hsilent : ∀ k, observer.interruptsAfter k = false) :
    ∃ run r, Numerics.exact.fit net s examples observer weights = .ok run ∧ run.outcome = .ok r := by
  have hshapes := (checked_eq_ok_iff.1 hchecked).2.2.1
  have hanswers : gauge.Answers net.weights.length examples := by
    intro w e hw he
    obtain ⟨hinput, htarget⟩ := hshapes _ (List.mem_map_of_mem he)
    obtain ⟨ds, hgauge, -⟩ := hmeasures w e hw (by simpa [Example.outline] using hinput)
      (by simpa [Example.outline] using htarget)
    exact ⟨_, _, hgauge⟩
  have hfits : gauge.Fits net.weights.length := by
    simpa [Network.weightNames] using Numerics.fits_measure hmeasure
  have hrates (k : Nat) : ∃ rate, (Numerics.exact.plan options).rate k = .ok rate := by
    obtain ⟨rate, hk⟩ := hrate k
    exact ⟨rate.ratio, by simp [Numerics.plan, Numerics.exact, hk, Except.map]⟩
  obtain ⟨r, hr⟩ := exists_result hfits hanswers hweights hrates hsilent
  refine ⟨_, r, ?_, hr⟩
  unfold Numerics.fit
  rw [hchecked, hmeasure]
  exact if_neg (not_not.2 rfl)

/-! ### A line -/

theorem linear_line : line.Linear 1 :=
  (Network.linear_single (rfl : Network.empty true 1 = .ok ⟨true, 1, [], .empty⟩) one_pos default).1

theorem exists_exact_measure_line : ∃ gauge,
    Numerics.exact.measure line = .ok (gauge, ["w0r0c0", "w0b0"]) ∧ Measures gauge line := by
  have hsmall : (line.lossAnew.map fun loss => (trained line loss).all fun p =>
      p.text.toList.length ≤ 200 && p.numerals.all (· < 10)) = .ok true := by
    decide +kernel
  obtain ⟨loss, hloss, -⟩ := linear_line.exists_loss Algebra.Engine.keepsValues_standard
  rw [hloss] at hsmall
  have hsmall := List.all_eq_true.1 (Except.ok.inj hsmall)
  simp only [Bool.and_eq_true, decide_eq_true_eq, List.all_eq_true] at hsmall
  refine exists_exact_measure linear_line hloss (fun p hp => (hsmall p hp).1) fun p hp k hk => ?_
  exact ((hsmall p hp).2 k hk).trans_le (Nat.le_self_pow (by decide) 10)

/-- A line predicts what its weights say. -/
theorem exact_predict_line (slope bias x : ℚ) :
    Numerics.exact.predict line [slope, bias] [x] = .ok [slope * x + bias] := by
  have hshort : (line.predictionAnew.map fun ps => ps.all fun p => p.text.toList.length ≤ 200) =
      .ok true := by
    decide +kernel
  obtain ⟨ps, hps, -⟩ := linear_line.exists_prediction Algebra.Engine.keepsValues_standard
  rw [hps] at hshort
  have hshort : ∀ p ∈ ps, p.text.toList.length ≤ min Memo.depthLimit Code.bracketLimit :=
    fun p hp => of_decide_eq_true (List.all_eq_true.1 (Except.ok.inj hshort) p hp)
  have hweights : [slope, bias].length = line.weights.length := rfl
  have hinputs : [x].length = line.inputs := rfl
  obtain ⟨ys, hys, -, hpredict⟩ := exact_predict linear_line hps (not_tooDeep hshort)
    (not_tooNested hshort) hweights hinputs
  have hlayerwise : line.layerwise [slope, bias] [x] = .ok [slope * x + 0 + bias] := rfl
  rw [hpredict, ← hys, hlayerwise, add_zero]

end Training

end Gantry
