import Gantry.Proofs.Algebra.Engine
import Gantry.Proofs.Network.Linear
import Gantry.Proofs.Network.Scope
import Gantry.Proofs.Network.Structure
import Gantry.Proofs.Network.Texts

/-!
What linear networks compute in exact arithmetic. The evaluator of the
prediction returns what the layers make of the inputs one after the other. The
evaluator of the loss and its gradients returns the mean of the squared
differences to the targets, and its partial derivative in each weight. Neither
is had of a network whose formulas are too large.
-/

namespace Gantry.Network

open Gantry.Algebra
open Gantry.Algebra.Expr (Polynomial Signal)

variable {ε α : Type} {net net₀ : Network} {inputs : Nat} {ps : List Expr} {N : String → Prop}
  {u u' : String → ℚ} {w xs ts : List ℚ} {ls : List Layer} {l : Layer}

/-! ### What is to be computed -/

/-- The values of weights by their names. -/
def weightsOver (net : Network) (w : List ℚ) : String → ℚ := fun x =>
  (bindOver net.weightNames w (fun _ => none) x).getD 0

/-- What the layers make of inputs, one after the other. -/
def layerwise (net : Network) (w xs : List ℚ) : Except Failure (List ℚ) :=
  linearThrough (net.weightsOver w) net.layers xs

/-- The mean of squared differences, as a number. -/
def meanSquareOver (ys ts : List ℚ) : ℚ :=
  (List.zipWith (fun y t => (y - t) ^ 2) ys ts).sum / ts.length

/-- The loss, from what the layers make of the inputs. -/
def lossOver (net : Network) (w xs ts : List ℚ) : ℚ :=
  match net.layerwise w xs with
  | .ok ys => meanSquareOver ys ts
  | .error _ => 0

section

variable [Memo.Stack] [Engine]

/-- Prediction with the arithmetic left open. -/
def predictOver (A : Arithmetic ε α) (net : Network) (w xs : List α) :
    Except Failure (Except ε (List (Option α))) :=
  if xs.length ≠ net.inputs then .error (.inputs net.inputs xs.length)
  else net.forward.1.map fun ev => ev.runOver A (net.scopeOver w xs [])

/-- Networks that are alike predict the same with the same weights. -/
theorem predictOver_congr {net' : Network} (halike : net.Alike net') (h : net.Faithful)
    (h' : net'.Faithful) (A : Arithmetic ε α) (w xs : List α) :
    net'.predictOver A w xs = net.predictOver A w xs := by
  have hforward : net'.forward.1 = net.forward.1 := by
    rw [(derives_forward h).result, (derives_forward h').result, halike.forwardAnew]
  have hscope : net'.scopeOver w xs [] = net.scopeOver w xs [] := by
    simp only [scopeOver, targetNames, inputNames, ← halike.outputs, ← halike.inputs,
      ← halike.weightNames]
  rw [predictOver, predictOver, hforward, hscope, halike.inputs]

/-- The loss and its gradients with the arithmetic left open. -/
def trainingOver (A : Arithmetic ε α) (net : Network) (w xs ts : List α) :
    Except Failure (Except ε (List (Option α))) :=
  net.training.1.map fun ev => ev.runOver A (net.scopeOver w xs ts)

/-- What a network computes in exact arithmetic. -/
structure Exact (net : Network) : Prop where
  /-- The prediction is what the layers make of the inputs, unless its texts are
  too large. -/
  prediction : ∃ ps, net.predictionAnew = .ok ps ∧
    ∀ w xs, w.length = net.weights.length → xs.length = net.inputs →
      (∃ f, TooLarge ps f ∧ net.predictOver Arithmetic.exact w xs = .error f) ∨
      ¬TooDeep ps ∧ ¬TooNested ps ∧ ∃ ys, net.layerwise w xs = .ok ys ∧ ys.length = net.outputs ∧
        net.predictOver Arithmetic.exact w xs = .ok (.ok (ys.map some))
  /-- The loss comes first and is followed by its partial derivatives in the
  order of the weights, unless their texts are too large. -/
  training : ∃ e, net.lossAnew = .ok e ∧
    ∀ w xs ts, w.length = net.weights.length → xs.length = net.inputs → ts.length = net.outputs →
      (∃ f, TooLarge (e :: net.weightNames.map fun x => Engine.gradient x e) f ∧
        net.trainingOver Arithmetic.exact w xs ts = .error f) ∨
      ¬TooDeep (e :: net.weightNames.map fun x => Engine.gradient x e) ∧
      ¬TooNested (e :: net.weightNames.map fun x => Engine.gradient x e) ∧
      ∃ ds, net.trainingOver Arithmetic.exact w xs ts =
          .ok (.ok ((net.lossOver w xs ts :: ds).map some)) ∧ ds.length = net.weights.length ∧
        ∀ k (hk : k < w.length) (hk' : k < ds.length),
          HasDerivAt (fun t => net.lossOver (w.set k t) xs ts) ds[k] w[k]

end

/-! ### Machine numbers -/

/-- What a run with machine numbers comes to. -/
def answerOf (result : Except Failure (Except EvalFailure (List (Option Operand)))) :
    Except Failure (List Binary64) :=
  match result with
  | .error f => .error f
  | .ok (.error f) => .error (.fault f.fault)
  | .ok (.ok vs) => (Value.ofOperands (vs.map (Option.getD · none))).mapError .fault

theorem answerOf_run (ev : Memo.Evaluator) (net : Network) (weights : List Binary64)
    (inputs targets : List Value) :
    answerOf (.ok (ev.runOver Meaning.compiled.arithmetic
        (net.scopeOver (weights.map fun w => some (.real w)) (inputs.map Value.operand)
          (targets.map Value.operand)))) =
      match (ev.run (net.scopeAt weights inputs targets)).1 with
      | .error f => .error (.fault f.fault)
      | .ok answer => (Value.ofOperands answer.values).mapError .fault := by
  have hrun := ev.runOver_arithmetic (net.scopeAt weights inputs targets)
  rw [← scopeOver_scopeAt] at hrun
  cases hover : ev.runOver Meaning.compiled.arithmetic
      (net.scopeOver (weights.map fun w => some (.real w)) (inputs.map Value.operand)
        (targets.map Value.operand)) <;>
    cases hanswer : (ev.run (net.scopeAt weights inputs targets)).1 <;>
      simp_all [answerOf, Except.map]

theorem predict_eq_answerOf [Memo.Stack] [Engine] (net : Network) (xs : List Value) :
    (net.predict xs).1 = answerOf (net.predictOver Meaning.compiled.arithmetic
      (net.weightValues.map fun w => some (.real w)) (xs.map Value.operand)) := by
  have hpredict : (net.predict xs).1 = net.predictWith net.forward.1 xs := rfl
  rw [hpredict, predictOver, List.length_map]
  unfold predictWith
  split
  · rfl
  · cases net.forward.1 with
    | error f => rfl
    | ok ev => exact (answerOf_run ev net net.weightValues xs []).symm

theorem evaluateTraining_eq_answerOf [Memo.Stack] [Engine] (h : net.Faithful) (xs ts : List Value) :
    (net.evaluateTraining xs ts).1 = answerOf (net.trainingOver Meaning.compiled.arithmetic
      (net.weightValues.map fun w => some (.real w)) (xs.map Value.operand)
      (ts.map Value.operand)) := by
  obtain ⟨-, ⟨cache, hnet⟩, -⟩ := derives_training h
  rw [trainingOver]
  unfold evaluateTraining
  cases htraining : net.training with
  | mk result after =>
      rw [htraining] at hnet
      obtain rfl : after = { net with cache } := hnet
      cases result with
      | error f => rfl
      | ok ev =>
          refine Eq.trans ?_ (answerOf_run ev net net.weightValues xs ts).symm
          have hscope : Network.scopeAt { net with cache } (weightValues { net with cache }) xs ts =
              net.scopeAt net.weightValues xs ts := rfl
          dsimp only
          rw [hscope]
          cases (ev.run (net.scopeAt net.weightValues xs ts)).1 <;> rfl

/-! ### Mean squares -/

/-- The mean square of polynomials against symbols. -/
theorem meanSquare_polynomial [Engine] (hvalues : Engine.KeepsValues) {names : List String}
    (hps : ∀ p ∈ ps, Polynomial N p) (hnames : ∀ y ∈ names, N y) (hpos : 0 < names.length) :
    Polynomial N (meanSquare ps (names.map fun y => .symbol y true)) ∧
      ∀ u : String → ℚ, (meanSquare ps (names.map fun y => .symbol y true)).valueAt u =
        meanSquareOver (ps.map (Expr.valueAt u)) (names.map u) := by
  have hsquare : ∀ q ∈ ps.zip names,
      Polynomial N (Engine.powerOf (Engine.minus q.1 (.symbol q.2 true)) (Expr.ofInt 2)) ∧
      ∀ u : String → ℚ,
        (Engine.powerOf (Engine.minus q.1 (.symbol q.2 true)) (Expr.ofInt 2)).valueAt u =
          (q.1.valueAt u - u q.2) ^ 2 := by
    rintro ⟨p, y⟩ hq
    obtain ⟨hp, hy⟩ := List.of_mem_zip hq
    obtain ⟨hminus, hdifference⟩ := hvalues.minus (hps p hp) (.symbol true (hnames y hy))
    obtain ⟨hpower, hvalue⟩ := hvalues.square hminus
    exact ⟨hpower, fun u => by rw [hvalue, hdifference, Expr.valueAt_symbol]⟩
  have hterms : List.zipWith (fun p t => Engine.powerOf (Engine.minus p t) (Expr.ofInt 2)) ps
      (names.map fun y => .symbol y true) = (ps.zip names).map
        fun q => Engine.powerOf (Engine.minus q.1 (.symbol q.2 true)) (Expr.ofInt 2) := by
    rw [List.zipWith_map_right, ← List.map_uncurry_zip_eq_zipWith]
    rfl
  have hpolynomials : ∀ e ∈ (ps.zip names).map
      fun q => Engine.powerOf (Engine.minus q.1 (.symbol q.2 true)) (Expr.ofInt 2),
      Polynomial N e :=
    List.forall_mem_map.2 fun q hq => (hsquare q hq).1
  obtain ⟨hsum, hvalue⟩ := hvalues.sumOf hpolynomials
  obtain ⟨hquotient, hmean⟩ := hvalues.quotientOf hsum hpos
  rw [meanSquare, hterms, List.length_map]
  refine ⟨hquotient, fun u => ?_⟩
  rw [hmean, hvalue, meanSquareOver, List.length_map, List.zipWith_map,
    ← List.map_uncurry_zip_eq_zipWith, List.map_map]
  congr 2
  exact List.map_congr_left fun q hq => (hsquare q hq).2 u

/-! ### Numbers of a network -/

/-- The numbers that the names of a network stand for. -/
def valuation (net : Network) (w xs ts : List ℚ) : String → ℚ := fun x =>
  (net.scopeOver w xs ts x).getD 0

/-- The names that the prediction is made of. -/
def Named (net : Network) (x : String) : Prop := x ∈ net.inputNames ∨ x ∈ net.weightNames

theorem eq_some_of_map_eq {names : List String} {values : List ℚ} {s : String → Option ℚ}
    (h : names.map s = values.map some) :
    names.map (fun x => (s x).getD 0) = values ∧ ∀ x ∈ names, s x = some ((s x).getD 0) := by
  refine ⟨?_, fun x hx => ?_⟩
  · have hvalues := congrArg (List.map (Option.getD · 0)) h
    simpa [Function.comp_def] using hvalues
  · obtain ⟨v, -, hv⟩ := List.mem_map.1 (h ▸ List.mem_map_of_mem hx)
    rw [← hv, Option.getD_some]

theorem wellNamed_of_kept [Memo.Stack] [Engine] {sequential : Bool}
    (h : net.Kept sequential inputs) : net.WellNamed where
  distinct := weightNames_eq net ▸ h.stacked.nodup
  head x hx := by
    rw [weightNames_eq] at hx
    obtain ⟨i, outputs, inputs, -, -, hmem⟩ := h.stacked.exists_name hx
    exact head?_of_mem_namesAt hmem

/-- The scope holds a number for every name that the prediction is made of. -/
theorem WellNamed.scopeOver_eq (h : net.WellNamed) (hw : w.length = net.weights.length)
    (hxs : xs.length = net.inputs) {x : String} (hx : net.Named x) :
    net.scopeOver w xs ts x = some (net.valuation w xs ts x) :=
  hx.elim ((eq_some_of_map_eq (net.map_inputNames hxs)).2 x)
    ((eq_some_of_map_eq (h.map_weightNames hw)).2 x)

theorem WellNamed.weightsOver_eq (h : net.WellNamed) {x : String} (hx : x ∈ net.weightNames) :
    net.weightsOver w x = net.valuation w xs ts x := by
  rw [weightsOver, valuation, scopeOver, bindOver_of_notMem (h.notMem hx).2,
    bindOver_of_notMem (h.notMem hx).1]

theorem WellNamed.valuation_weight (h : net.WellNamed) (hw : w.length = net.weights.length) {k : Nat}
    (hk : k < net.weightNames.length) (hk' : k < w.length) :
    net.valuation w xs ts net.weightNames[k] = w[k] := by
  have hmap : net.weightNames.map (net.valuation w xs ts) = w :=
    (eq_some_of_map_eq (h.map_weightNames hw)).1
  simpa [hk, hk'] using congrArg (·[k]?) hmap

/-- Changing one weight changes what its name stands for, and no more. -/
theorem WellNamed.valuation_set (h : net.WellNamed) (hw : w.length = net.weights.length)
    (hxs : xs.length = net.inputs) (hts : ts.length = net.outputs) {k : Nat}
    (hk : k < net.weightNames.length) (t : ℚ) {x : String}
    (hx : net.Named x ∨ x ∈ net.targetNames) :
    net.valuation (w.set k t) xs ts x =
      Function.update (net.valuation w xs ts) net.weightNames[k] t x := by
  have hsame {names : List String} {values : List ℚ} (hmem : x ∈ names)
      (hset : names.map (net.scopeOver (w.set k t) xs ts) = values.map some)
      (hold : names.map (net.scopeOver w xs ts) = values.map some)
      (hother : net.weightNames[k] ∉ names) : net.valuation (w.set k t) xs ts x =
        Function.update (net.valuation w xs ts) net.weightNames[k] t x := by
    have hne : x ≠ net.weightNames[k] := fun hname => hother (hname ▸ hmem)
    have heq := List.map_inj_left.1 (hset.trans hold.symm) x hmem
    rw [Function.update_of_ne hne, valuation, valuation, heq]
  have hnew := h.notMem (List.getElem_mem hk)
  rcases hx with (hx | hx) | hx
  · exact hsame hx (net.map_inputNames hxs) (net.map_inputNames hxs) hnew.1
  · obtain ⟨j, hj, rfl⟩ := List.getElem_of_mem hx
    have hjw : j < w.length := by simpa [weightNames, hw] using hj
    rw [h.valuation_weight (by simpa using hw) hj (by simpa using hjw), List.getElem_set]
    split
    · rename_i hkj
      subst hkj
      rw [Function.update_self]
    · rename_i hkj
      have hne : net.weightNames[j] ≠ net.weightNames[k] := fun hname =>
        hkj ((List.Nodup.getElem_inj_iff h.distinct).1 hname).symm
      rw [Function.update_of_ne hne, h.valuation_weight hw hj hjw]
  · exact hsame hx (net.map_targetNames hts) (net.map_targetNames hts) hnew.2

/-! ### The prediction -/

theorem Stacked.outputsOf_pos {index : Nat} (h : Stacked index inputs ls) (hpos : 0 < inputs) :
    0 < outputsOf inputs ls := by
  induction ls generalizing index inputs with
  | nil => exact hpos
  | cons l ls ih =>
      rw [outputsOf_cons]
      exact ih h.2 h.1.outputs

/-- Linear networks with at least one input. -/
structure Linear [Memo.Stack] [Engine] (inputs : Nat) (net : Network) : Prop where
  kept : net.Kept true inputs
  inputs_pos : 0 < inputs
  layers : ∀ l ∈ net.layers, l.IsLinear

theorem map_inputSymbols (hxs : xs.length = net.inputs) :
    net.inputSymbols.map (Expr.valueAt (net.valuation w xs ts)) = xs := by
  have hmap : net.inputNames.map (net.valuation w xs ts) = xs :=
    (eq_some_of_map_eq (net.map_inputNames hxs)).1
  rw [inputSymbols, List.map_map]
  refine Eq.trans (List.map_congr_left fun x _ => ?_) hmap
  rw [Function.comp_apply, Expr.valueAt_symbol]

theorem length_inputSymbols : net.inputSymbols.length = net.inputs := by
  simp [inputSymbols, inputNames]

namespace Linear

section

variable [Memo.Stack] [Engine] (h : net.Linear inputs)

include h

theorem wellNamed : net.WellNamed := wellNamed_of_kept h.kept

theorem outputs_pos : 0 < net.outputs := by
  rw [outputs_eq, h.kept.inputs_eq]
  exact h.kept.stacked.outputsOf_pos h.inputs_pos

theorem sharable {x : String} (hx : net.Named x) : Sharable x := by
  rcases hx with hx | hx
  · obtain ⟨i, -, rfl⟩ := List.mem_map.1 hx
    exact sharable_inputName i
  · rw [weightNames_eq] at hx
    obtain ⟨i, outputs, inputs, -, -, hmem⟩ := h.kept.stacked.exists_name hx
    exact sharable_of_mem_namesAt hmem

theorem not_named_of_target {y : String} (hy : y ∈ net.targetNames) : ¬net.Named y := by
  rintro (hx | hx)
  · exact notMem_inputNames_of_target hy hx
  · exact (h.wellNamed.notMem hx).2 hy

theorem sharable_or_target {x : String} (hx : net.Named x ∨ x ∈ net.targetNames) : Sharable x := by
  rcases hx with hx | hx
  · exact h.sharable hx
  · obtain ⟨i, -, rfl⟩ := List.mem_map.1 hx
    exact sharable_targetName i

theorem exists_prediction (hvalues : Engine.KeepsValues) :
    ∃ ps, net.predictionAnew = .ok ps ∧ ps.length = net.outputs ∧
      (∀ p ∈ ps, Polynomial net.Named p) ∧
      ∀ w xs ts, xs.length = net.inputs →
        net.layerwise w xs = .ok (ps.map (Expr.valueAt (net.valuation w xs ts))) := by
  have hsymbols : ∀ e ∈ net.inputSymbols, Polynomial net.Named e :=
    List.forall_mem_map.2 fun x hx => .symbol true (.inl hx)
  obtain ⟨ps, hps, hcount, hpolynomials, hvalue⟩ := h.kept.stacked.polynomials hvalues h.layers
    (length_inputSymbols.trans h.kept.inputs_eq) hsymbols fun x hx => .inr (weightNames_eq net ▸ hx)
  refine ⟨ps, h.kept.predictionAnew_eq.trans hps, ?_, hpolynomials, fun w xs ts hxs => ?_⟩
  · rw [outputs_eq, h.kept.inputs_eq, hcount]
  · rw [← hvalue, map_inputSymbols hxs, layerwise]
    exact h.kept.stacked.linearThrough_congr
      (fun x hx => h.wellNamed.weightsOver_eq (weightNames_eq net ▸ hx)) xs

/-! ### Evaluators -/

variable (hvalues : Engine.KeepsValues)

include hvalues

theorem forward_cases :
    ∃ ps, net.predictionAnew = .ok ps ∧ ((∃ f, TooLarge ps f ∧ net.forward.1 = .error f) ∨
      ¬TooDeep ps ∧ ¬TooNested ps ∧ ∃ ev, net.forward.1 = .ok ev ∧
        ∀ w xs, w.length = net.weights.length → xs.length = net.inputs →
          ∃ ys, net.layerwise w xs = .ok ys ∧ ys.length = net.outputs ∧
            ev.runOver Arithmetic.exact (net.scopeOver w xs []) = .ok (ys.map some)) := by
  obtain ⟨ps, hps, hcount, hpolynomials, hlayerwise⟩ := h.exists_prediction hvalues
  have hforward : net.forward.1 = compileTexts (ps.map Expr.text) := by
    rw [(derives_forward h.kept.faithful).result, forwardAnew, hps]
    rfl
  have hsome : ps ≠ [] := List.ne_nil_of_length_pos (hcount ▸ h.outputs_pos)
  refine ⟨ps, hps, ?_⟩
  rw [hforward]
  obtain hlarge | ⟨hshallow, hshort, ev, hev, hrun⟩ :=
    compileTexts_cases (fun x => h.sharable) hpolynomials hsome
  · exact .inl hlarge
  · refine .inr ⟨hshallow, hshort, ev, hev, fun w xs hw hxs => ?_⟩
    refine ⟨_, hlayerwise w xs [] hxs, by rw [List.length_map, hcount], ?_⟩
    rw [hrun _ _ fun x hx => h.wellNamed.scopeOver_eq hw hxs hx, List.map_map]
    rfl

/-- The loss is a polynomial of all names, whose value is the loss of what the
layers make of the inputs. -/
theorem exists_loss :
    ∃ e, net.lossAnew = .ok e ∧
      Polynomial (fun x => net.Named x ∨ x ∈ net.targetNames) e ∧
      ∀ w xs ts, xs.length = net.inputs → ts.length = net.outputs →
        e.valueAt (net.valuation w xs ts) = net.lossOver w xs ts := by
  obtain ⟨ps, hps, hcount, hpolynomials, hlayerwise⟩ := h.exists_prediction hvalues
  have hlength : net.targetNames.length = net.outputs := by simp [targetNames]
  obtain ⟨hpolynomial, hmean⟩ := meanSquare_polynomial hvalues
    (N := fun x => net.Named x ∨ x ∈ net.targetNames)
    (fun p hp => (hpolynomials p hp).mono fun x hx => .inl hx) (fun y hy => .inr hy)
    (hlength ▸ h.outputs_pos)
  refine ⟨_, by rw [lossAnew, hps]; rfl, hpolynomial, fun w xs ts hxs hts => ?_⟩
  have hmap : net.targetNames.map (net.valuation w xs ts) = ts :=
    (eq_some_of_map_eq (net.map_targetNames hts)).1
  rw [lossOver, hlayerwise w xs ts hxs]
  exact (hmean _).trans (by rw [hmap])

/-- The gradient of the loss in a weight is its partial derivative. -/
theorem hasDerivAt_lossOver {e : Expr} (hpolynomial : Polynomial (fun x => net.Named x ∨ x ∈ net.targetNames) e)
    (hvalue : ∀ w xs ts, xs.length = net.inputs → ts.length = net.outputs →
      e.valueAt (net.valuation w xs ts) = net.lossOver w xs ts)
    (hw : w.length = net.weights.length) (hxs : xs.length = net.inputs)
    (hts : ts.length = net.outputs) {k : Nat} (hk : k < w.length) (hk' : k < net.weightNames.length) :
    HasDerivAt (fun t => net.lossOver (w.set k t) xs ts)
      ((Engine.gradient net.weightNames[k] e).valueAt (net.valuation w xs ts)) w[k] := by
  obtain ⟨-, hderiv⟩ := hvalues.gradient hpolynomial net.weightNames[k]
  have hloss (t : ℚ) : net.lossOver (w.set k t) xs ts =
      e.valueAt (Function.update (net.valuation w xs ts) net.weightNames[k] t) := by
    rw [← hvalue (w.set k t) xs ts hxs hts]
    exact hpolynomial.valueAt_congr fun x hx => h.wellNamed.valuation_set hw hxs hts hk' t hx
  have hpoint : net.valuation w xs ts net.weightNames[k] = w[k] :=
    h.wellNamed.valuation_weight hw hk' hk
  rw [funext hloss, ← hpoint]
  exact hderiv (net.valuation w xs ts)

omit hvalues in
/-- The loss is compiled together with its gradients. -/
theorem training_eq {e : Expr} (he : net.lossAnew = .ok e) : net.training.1 =
    compileTexts ((e :: net.weightNames.map fun x => Engine.gradient x e).map Expr.text) := by
  have hgradients : net.gradientsAnew =
      .ok (net.weightNames.map fun name => (name, Engine.gradient name e)) := by
    rw [gradientsAnew, he]
    rfl
  rw [(derives_training h.kept.faithful).result, trainingAnew, trainingTextsAnew, hgradients, he,
    List.map_cons, List.map_map]
  simp [Bind.bind, Except.bind, pure, Except.pure, Function.comp_def]

theorem training_cases :
    ∃ e, net.lossAnew = .ok e ∧
      ((∃ f, TooLarge (e :: net.weightNames.map fun x => Engine.gradient x e) f ∧
          net.training.1 = .error f) ∨
        ¬TooDeep (e :: net.weightNames.map fun x => Engine.gradient x e) ∧
          ¬TooNested (e :: net.weightNames.map fun x => Engine.gradient x e) ∧
          ∃ ev, net.training.1 = .ok ev ∧
          ∀ w xs ts, w.length = net.weights.length → xs.length = net.inputs →
            ts.length = net.outputs →
            ∃ ds, ev.runOver Arithmetic.exact (net.scopeOver w xs ts) =
                .ok ((net.lossOver w xs ts :: ds).map some) ∧ ds.length = net.weights.length ∧
              ∀ k (hk : k < w.length) (hk' : k < ds.length),
                HasDerivAt (fun t => net.lossOver (w.set k t) xs ts) ds[k] w[k]) := by
  obtain ⟨e, he, hpolynomial, hvalue⟩ := h.exists_loss hvalues
  have hpolynomials : ∀ p ∈ e :: net.weightNames.map fun x => Engine.gradient x e,
      Polynomial (fun x => net.Named x ∨ x ∈ net.targetNames) p := by
    refine List.forall_mem_cons.2 ⟨hpolynomial, fun p hp => ?_⟩
    obtain ⟨x, -, rfl⟩ := List.mem_map.1 hp
    exact (hvalues.gradient hpolynomial x).1
  refine ⟨e, he, ?_⟩
  rw [h.training_eq he]
  obtain hlarge | ⟨hshallow, hshort, ev, hev, hrun⟩ :=
    compileTexts_cases (fun _ => h.sharable_or_target) hpolynomials (List.cons_ne_nil _ _)
  · exact .inl hlarge
  · refine .inr ⟨hshallow, hshort, ev, hev, fun w xs ts hw hxs hts => ?_⟩
    have hscope : ∀ x, (net.Named x ∨ x ∈ net.targetNames) →
        net.scopeOver w xs ts x = some (net.valuation w xs ts x) := by
      rintro x (hx | hx)
      · exact h.wellNamed.scopeOver_eq hw hxs hx
      · exact (eq_some_of_map_eq (net.map_targetNames hts)).2 x hx
    refine ⟨net.weightNames.map fun x => (Engine.gradient x e).valueAt (net.valuation w xs ts), ?_, ?_,
      fun k hk hk' => ?_⟩
    · rw [hrun _ _ hscope, List.map_cons, List.map_map, List.map_cons, List.map_map,
        hvalue w xs ts hxs hts]
      rfl
    · simp [weightNames]
    · rw [List.length_map] at hk'
      rw [List.getElem_map]
      exact h.hasDerivAt_lossOver hvalues hpolynomial hvalue hw hxs hts hk hk'

theorem exact : net.Exact where
  prediction := by
    obtain ⟨ps, hps, hcases⟩ := h.forward_cases hvalues
    refine ⟨ps, hps, fun w xs hw hxs => ?_⟩
    rw [predictOver, if_neg (not_not.2 hxs)]
    obtain ⟨f, hlarge, hforward⟩ | ⟨hshallow, hshort, ev, hforward, hrun⟩ := hcases
    · exact .inl ⟨f, hlarge, by rw [hforward]; rfl⟩
    · obtain ⟨ys, hys, hcount, hresult⟩ := hrun w xs hw hxs
      exact .inr ⟨hshallow, hshort, ys, hys, hcount, by rw [hforward, Except.map, hresult]⟩
  training := by
    obtain ⟨e, he, hcases⟩ := h.training_cases hvalues
    refine ⟨e, he, fun w xs ts hw hxs hts => ?_⟩
    rw [trainingOver]
    obtain ⟨f, hlarge, htraining⟩ | ⟨hshallow, hshort, ev, htraining, hrun⟩ := hcases
    · exact .inl ⟨f, hlarge, by rw [htraining]; rfl⟩
    · obtain ⟨ds, hresult, hcount, hderiv⟩ := hrun w xs ts hw hxs hts
      exact .inr ⟨hshallow, hshort, ds, by rw [htraining, Except.map, hresult], hcount, hderiv⟩

end

/-! ### Wide layers -/

section

variable [Memo.Stack] (h : net.Linear inputs)

include h

/-- With the standard algebra the prediction is made of signals. -/
theorem exists_signals :
    ∃ ps, net.predictionAnew = .ok ps ∧ ps.length = net.outputs ∧
      ∀ p ∈ ps, Signal net.Named p ∧
        (net.layers ≠ [] → p.terms.length = outputsOf inputs net.layers.dropLast + 1) := by
  obtain ⟨ps, hps, hcount, -⟩ := h.exists_prediction Engine.keepsValues_standard
  refine ⟨ps, hps, hcount, fun p hp => ?_⟩
  have hsymbols : ∀ e ∈ net.inputSymbols, Signal (fun x => x ∈ net.inputNames) e :=
    List.forall_mem_map.2 fun x hx => Expr.signal_symbol hx true
  obtain ⟨qs, hqs, hsignals⟩ := h.kept.stacked.signals h.layers h.inputs_pos
    (length_inputSymbols.trans h.kept.inputs_eq) hsymbols
    fun x hx => (h.wellNamed.notMem (weightNames_eq net ▸ hx)).1
  obtain rfl : ps = qs := Except.ok.inj (hps.symm.trans (h.kept.predictionAnew_eq.trans hqs))
  exact ⟨(hsignals p hp).1.mono fun x hx => hx.imp_right fun hx => weightNames_eq net ▸ hx,
    (hsignals p hp).2⟩

/-- With the standard algebra there are no numerals in a prediction. -/
theorem tooDeep_or_tooNested {f : Failure} (hps : net.predictionAnew = .ok ps)
    (hlarge : TooLarge ps f) : TooDeep ps ∨ TooNested ps := by
  obtain ⟨qs, hqs, -, hsignals⟩ := h.exists_signals
  obtain rfl : ps = qs := Except.ok.inj (hps.symm.trans hqs)
  cases hlarge with
  | deep hdeep => exact .inl hdeep
  | nested hnested => exact .inr hnested
  | long hp hk =>
      rw [(hsignals _ hp).1.numerals] at hk
      cases hk

/-- A network whose last layer has too many inputs has no evaluator of its
prediction. -/
theorem forward_wide (hsome : net.layers ≠ [])
    (hwide : Memo.depthLimit ≤ outputsOf inputs net.layers.dropLast) :
    net.forward.1 = .error (.fault .tooDeep) := by
  obtain ⟨ps, hps, hcount, hsignals⟩ := h.exists_signals
  have hread (p : Expr) (hp : p ∈ ps) :
      ∃ e, Formula.parse p.text = .ok e ∧ Memo.depthLimit < e.depth := by
    obtain ⟨hsignal, hterms⟩ := hsignals p hp
    obtain ⟨hdepth, hparse⟩ := Expr.parse_text_polynomial (fun x hx => (h.sharable hx).1)
      hsignal.polynomial
    obtain ⟨e, he⟩ := hparse (by simp [hsignal.numerals])
    have hlevels := (hdepth e he).2.2
    have hcount := hterms hsome
    exact ⟨e, he, by omega⟩
  have hmem := List.head_mem (List.ne_nil_of_length_pos (hcount ▸ h.outputs_pos))
  rw [(derives_forward h.kept.faithful).result, forwardAnew, hps]
  exact compileTexts_deep (fun p hp => (hread p hp).imp fun _ he => he.1) ⟨_, hmem, hread _ hmem⟩

end

end Linear

/-- One linear layer, right after the network was begun. -/
theorem linear_single [Memo.Stack] [Engine] {count : Int}
    (hempty : empty true count = .ok net₀) {n : Nat} (hpos : 0 < n) (fresh : Random.Stream) :
    let net := net₀.perform (.add (.loose (.dense ⟨n, .identity, .identity, none, []⟩)) fresh)
    net.Linear count.toNat ∧
      ∃ l, net.layers = [l] ∧ l.kind = .dense ⟨n, .identity, .identity, none, []⟩ := by
  have hmade : Dense.make n "identity" "identity" none [] =
      .ok ⟨n, .identity, .identity, none, []⟩ := by
    rw [Dense.make, if_neg (by omega)]
    rfl
  have hstart := kept_of_empty hempty
  obtain ⟨hcount, rfl⟩ := empty_eq_ok_iff.1 hempty
  have hinputs : 0 < outputs ⟨true, count.toNat, [], .empty⟩ := by
    rw [outputs_eq]
    exact Int.lt_toNat.2 hcount
  obtain ⟨l, hlayers, hkind⟩ := exists_layers_add (d := ⟨n, .identity, .identity, none, []⟩) hinputs
    rfl rfl fresh
  refine ⟨⟨kept_perform hstart (.inr (.dense hmade)), Int.lt_toNat.2 hcount, ?_⟩, l, hlayers, hkind⟩
  rw [hlayers]
  exact List.forall_mem_singleton.2 ⟨_, hkind, rfl⟩

/-- A thousand inputs and one layer with one output. -/
def wide : Network :=
  after ⟨true, 1000, [], .empty⟩
    [.add (.loose (.dense ⟨1, .identity, .identity, none, []⟩)) default]

theorem exists_layer_wide :
    ∃ l, wide.layers = [l] ∧ l.kind = .dense ⟨1, .identity, .identity, none, []⟩ :=
  (linear_single (rfl : empty true 1000 = .ok ⟨true, 1000, [], .empty⟩) one_pos default).2

theorem linear_wide : wide.Linear 1000 :=
  (linear_single (rfl : empty true 1000 = .ok ⟨true, 1000, [], .empty⟩) one_pos default).1

/-- The layers of a wide network make something of the inputs, which its
prediction does not return. -/
theorem predict_wide :
    empty true 1000 = .ok ⟨true, 1000, [], .empty⟩ ∧ (∀ l ∈ wide.layers, l.IsLinear) ∧
      (∃ ys, wide.layerwise (List.replicate wide.weights.length 0) (List.replicate 1000 0) = .ok ys ∧
        ys.length = 1) ∧
      wide.predictOver Arithmetic.exact (List.replicate wide.weights.length 0) (List.replicate 1000 0) =
        .error (.fault .tooDeep) ∧
      (wide.predict (List.replicate 1000 (some (.int 0)))).1 = .error (.fault .tooDeep) := by
  obtain ⟨l, hl, hkind⟩ := exists_layer_wide
  have hforward : wide.forward.1 = .error (.fault .tooDeep) :=
    linear_wide.forward_wide (by simp [hl]) (by simp [hl, outputsOf, Memo.depthLimit])
  have hpredict {ε α : Type} (A : Arithmetic ε α) (w xs : List α) (hxs : xs.length = 1000) :
      wide.predictOver A w xs = .error (.fault .tooDeep) := by
    rw [predictOver, hforward, linear_wide.kept.inputs_eq, if_neg (not_not.2 hxs)]
    rfl
  refine ⟨rfl, linear_wide.layers, ?_, hpredict _ _ _ List.length_replicate, ?_⟩
  · obtain ⟨ps, -, hcount, -, hlayerwise⟩ :=
      linear_wide.exists_prediction Engine.keepsValues_standard
    refine ⟨_, hlayerwise _ _ [] (List.length_replicate.trans linear_wide.kept.inputs_eq.symm), ?_⟩
    rw [List.length_map, hcount, outputs_eq, hl, outputsOf_cons, outputsOf_nil, Layer.outputs, hkind]
  · rw [predict_eq_answerOf, List.map_replicate,
      hpredict _ _ _ List.length_replicate]
    rfl

/-! ### Histories -/

/-- Two layers of one output each, with a question in between. -/
def chain : List Call :=
  [.add (.loose (.dense ⟨1, .identity, .identity, none, []⟩)) default, .training,
    .add (.loose (.dense ⟨1, .identity, .random, none, []⟩)) default]

/-- What the prediction of the chain is read as. -/
def chainFormula : Formula :=
  .binary "+" (.variable "w1b0") (.binary "*" (.variable "w1r0c0")
    (.group (.binary "+" (.variable "w0b0")
      (.binary "*" (.variable "w0r0c0") (.variable "x0")))))

theorem parse_chain : Formula.parse "w1b0 + w1r0c0*(w0b0 + w0r0c0*x0)" = .ok chainFormula := by
  have htokens : Formula.tokenize "w1b0 + w1r0c0*(w0b0 + w0r0c0*x0)".toList =
      .ok [⟨.name, "w1b0", 0⟩, ⟨.op, "+", 5⟩, ⟨.name, "w1r0c0", 7⟩, ⟨.op, "*", 13⟩, ⟨.op, "(", 14⟩,
        ⟨.name, "w0b0", 15⟩, ⟨.op, "+", 20⟩, ⟨.name, "w0r0c0", 22⟩, ⟨.op, "*", 28⟩, ⟨.name, "x0", 29⟩,
        ⟨.op, ")", 31⟩, ⟨.stop, "", 32⟩] := by
    decide +kernel
  rw [Formula.parse, Formula.parseWith, htokens]
  simp [Formula.parseTokens, Formula.parseSum, Formula.parseProduct, Formula.parseSigned,
    Formula.parsePower, Formula.parseAtom, Formula.parseFactors, Formula.parseTerms,
    Formula.nameValue, constant?, chainFormula]

theorem offers_chain : ∀ c ∈ chain, c.Offers := by
  have hdense (i : Initializer) (h : Dense.make 1 "identity" i.name none [] =
      .ok ⟨1, .identity, i, none, []⟩) :
      (Layer.loose (.dense ⟨1, .identity, i, none, []⟩)).Offered := .inr (.dense h)
  simpa [chain, Call.Offers] using ⟨hdense .identity rfl, hdense .random rfl⟩

theorem isLinear_chain : ∀ l ∈ (after ⟨true, 1, [], .empty⟩ chain).layers, l.IsLinear := by
  have hkinds : (after ⟨true, 1, [], .empty⟩ chain).layers.map Layer.kind =
      [.dense ⟨1, .identity, .identity, none, []⟩, .dense ⟨1, .identity, .random, none, []⟩] := rfl
  intro l hl
  have hkind := List.mem_map_of_mem (f := Layer.kind) hl
  rw [hkinds] at hkind
  simp at hkind
  obtain h | h := hkind
  · exact ⟨_, h, rfl⟩
  · exact ⟨_, h, rfl⟩

theorem text_chain (hps : (after ⟨true, 1, [], .empty⟩ chain).predictionAnew = .ok ps) :
    ∀ p ∈ ps, p.text = "w1b0 + w1r0c0*(w0b0 + w0r0c0*x0)" ∧ p.numerals = [] := by
  have htexts : (after ⟨true, 1, [], .empty⟩ chain).predictionAnew.map
      (List.map fun p => (p.text, p.numerals)) =
        .ok [("w1b0 + w1r0c0*(w0b0 + w0r0c0*x0)", [])] := by decide +kernel
  intro p hp
  rw [hps] at htexts
  have hp := List.mem_map_of_mem (f := fun p => (p.text, p.numerals)) hp
  rw [Except.ok.inj htexts, List.mem_singleton] at hp
  exact Prod.mk.inj hp

/-- The stack and the brackets have room for the chain. -/
theorem not_tooLarge_chain {f : Failure}
    (hps : (after ⟨true, 1, [], .empty⟩ chain).predictionAnew = .ok ps) : ¬TooLarge ps f := by
  have hdepth : ∀ p ∈ ps, ∀ e, Formula.parse p.text = .ok e → e.depth ≤ 6 := by
    intro p hp e he
    rw [(text_chain hps p hp).1, parse_chain] at he
    obtain rfl := Except.ok.inj he
    decide +kernel
  intro hlarge
  cases hlarge with
  | deep h =>
      obtain ⟨p, hp, e, he, hdeep⟩ := h
      exact absurd ((hdepth p hp e he).trans (by decide)) (not_le.2 hdeep)
  | nested h =>
      refine absurd h (not_tooNested_of_depth fun p hp e he => ?_)
      exact (hdepth p hp e he).trans (by decide)
  | long hp hk =>
      rw [(text_chain hps _ hp).2] at hk
      cases hk

/-- Networks of linear layers compute what they stand for in exact arithmetic,
whatever has been asked of them, with every algebra that keeps the values of
polynomials. -/
theorem exact_after [Memo.Stack] [Engine] (hvalues : Engine.KeepsValues) {count : Int}
    (hempty : empty true count = .ok net₀) (calls : List Call)
    (hcalls : ∀ c ∈ calls, c.Offers) (hlinear : ∀ l ∈ (net₀.after calls).layers, l.IsLinear) :
    (net₀.after calls).Exact := by
  obtain ⟨hcount, -⟩ := empty_eq_ok_iff.1 hempty
  have hlinear : (net₀.after calls).Linear count.toNat :=
    ⟨kept_after (kept_of_empty hempty) hcalls, by omega, hlinear⟩
  exact hlinear.exact hvalues

theorem exact_after_chain :
    (∀ c ∈ chain, c.Offers) ∧
      (∀ l ∈ (Network.after ⟨true, 1, [], .empty⟩ chain).layers, l.IsLinear) ∧
      (Network.after ⟨true, 1, [], .empty⟩ chain).Exact ∧
      (Network.after ⟨true, 1, [], .empty⟩ chain).predictOver Arithmetic.exact [2, 3, 5, 7] [11] =
        .ok (.ok [some 132]) := by
  have hempty : empty true 1 = .ok ⟨true, 1, [], .empty⟩ := rfl
  have hexact := exact_after Engine.keepsValues_standard hempty chain offers_chain isLinear_chain
  refine ⟨offers_chain, isLinear_chain, hexact, ?_⟩
  obtain ⟨ps, hps, hcases⟩ := hexact.prediction
  have hlayerwise : (Network.after ⟨true, 1, [], .empty⟩ chain).layerwise [2, 3, 5, 7] [11] =
      .ok [132] := by decide +kernel
  obtain ⟨f, hlarge, -⟩ | ⟨-, -, ys, hys, -, hpredict⟩ := hcases [2, 3, 5, 7] [11] rfl rfl
  · exact absurd hlarge (not_tooLarge_chain hps)
  · obtain rfl := Except.ok.inj (hys.symm.trans hlayerwise)
    exact hpredict

end Gantry.Network
