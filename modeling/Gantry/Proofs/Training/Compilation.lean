import Gantry.Proofs.Formula.Values
import Gantry.Proofs.Memo.Compilation
import Gantry.Proofs.Memo.History
import Gantry.Proofs.Network.Weights
import Gantry.Proofs.Training.Epoch
import Gantry.Training.Fit

/-!
What training asks of a compilation, whatever measure it derives: it leaves
the weights of the network alone, and its gradients have an entry for every
name it gives. The compiled loss and gradients of a network are such a measure.
-/

namespace Gantry.Training

open Gantry.Network (Failure)

structure Compiles (compile : Compile) : Prop where
  layers : ∀ net, (compile net).2.layers = net.layers
  fits : ∀ net gauge names, (compile net).1 = .ok (gauge, names) → gauge.Fits names.length

theorem Compiles.weights {compile : Compile} (h : Compiles compile) (net : Network) :
    (compile net).2.weights = net.weights := by
  rw [Network.weights, h.layers, Network.weights]

/-! ### Compiled evaluators -/

/-- An evaluator of texts returns a value for each of them. -/
theorem targets_of_compileTexts [Memo.Stack] {texts : List String} {ev : Memo.Evaluator}
    (h : Network.compileTexts texts = .ok ev) :
    ev.targets.length = texts.length ∧ ev.single = false := by
  unfold Network.compileTexts at h
  obtain ⟨f, hoptimize⟩ | ⟨es, names, u, hes, htrees, hoptimize⟩ :=
    Memo.Table.optimize_cases (Memo.Table.keyed_empty "f") (texts.map .text)
  · simp [hoptimize] at h
  · simp only [hoptimize] at h
    cases hcompile : u.compile (.many names) with
    | error f => simp [hcompile, Except.mapError] at h
    | ok ev' =>
        obtain rfl : ev' = ev := by simpa [hcompile, Except.mapError] using h
        obtain ⟨-, -, hassemble⟩ := Memo.Table.compile_eq_ok rfl hcompile
        have htargets := hassemble.targets
        have hsingle := hassemble.single
        have hlength := (Memo.Item.formulas_eq_ok_iff.1 hes).length_eq
        rw [List.length_map] at hlength
        exact ⟨by rw [htargets, hlength,
          (Memo.Table.threaded_optimizeTrees (Memo.Table.keyed_empty "f") htrees).length_eq],
          hsingle⟩

theorem exists_answer_of_run {ev : Memo.Evaluator} {scope : Scope} {answer : Memo.Answer}
    (h : (ev.run scope).1 = .ok answer) : ∃ scope', answer = ev.answer scope' := by
  rw [Memo.Evaluator.run_eq] at h
  split at h
  · split at h
    · cases h
    · cases h
      exact ⟨_, rfl⟩
  · cases h

theorem fits_gaugeWith {ev : Memo.Evaluator} {n : Nat} (net : Network)
    (htargets : ev.targets.length = n + 1) (hsingle : ev.single = false) :
    (gaugeWith ev net).Fits n := by
  intro weights e loss gradient _ hgauge
  unfold gaugeWith at hgauge
  dsimp only at hgauge
  split at hgauge
  · cases hgauge
  · rename_i answer hrun
    obtain ⟨scope, rfl⟩ := exists_answer_of_run hrun
    cases hgradient : Value.ofOperands (ev.answer scope).values.tail with
    | error f => simp [hgradient, Bind.bind, Except.bind] at hgauge
    | ok xs =>
        cases hloss : lossOf (Operand.value ((ev.answer scope).values.headD none)) with
        | error f => simp only [hgradient, hloss, Bind.bind, Except.bind, reduceCtorEq] at hgauge
        | ok x =>
            simp only [hgradient, hloss, Bind.bind, Except.bind] at hgauge
            cases hgauge
            rw [Value.length_of_ofOperands hgradient, List.length_tail]
            simp [Memo.Evaluator.answer, hsingle, Memo.Answer.values, htargets]

/-! ### The training of a network -/

variable [Algebra.Engine]

theorem gradients_of_gradients {net net' : Network} {gs : List (String × Algebra.Expr)}
    (h : net.gradients = (.ok gs, net')) : net'.cache.gradients = some gs := by
  unfold Network.gradients at h
  split at h
  · cases h
    assumption
  · split at h
    · cases h
    · cases h
      rfl

theorem gradients_of_cache {net : Network} {gs : List (String × Algebra.Expr)}
    (h : net.cache.gradients = some gs) : net.gradients = (.ok gs, net) := by
  simp [Network.gradients, h]

theorem gradients_of_prediction (net : Network) :
    net.prediction.2.cache.gradients = net.cache.gradients := by
  unfold Network.prediction
  split
  · rfl
  · split <;> rfl

theorem gradients_of_loss (net : Network) : net.loss.2.cache.gradients = net.cache.gradients := by
  have hprediction := gradients_of_prediction net
  unfold Network.loss
  split
  · rfl
  · split <;> simp_all

/-- Training is compiled from a loss and the gradients that the network then has. -/
theorem training_eq_ok [Memo.Stack] {net net' : Network} {ev : Memo.Evaluator}
    (h : net.training = (.ok ev, net')) :
    ∃ gs, net'.gradients = (.ok gs, net') ∧ ev.targets.length = gs.length + 1 ∧
      ev.single = false := by
  unfold Network.training at h
  cases htexts : net.trainingTexts with
  | mk result net₁ =>
      cases result with
      | error f => simp [htexts] at h
      | ok texts =>
          simp only [htexts, Prod.mk.injEq] at h
          obtain ⟨hcompile, rfl⟩ := h
          unfold Network.trainingTexts at htexts
          cases hgradients : net.gradients with
          | mk result net₂ =>
              cases result with
              | error f => simp [hgradients] at htexts
              | ok gs =>
                  simp only [hgradients] at htexts
                  have hkept := gradients_of_loss net₂
                  cases hloss : net₂.loss with
                  | mk result net₃ =>
                      cases result with
                      | error f => simp [hloss] at htexts
                      | ok e =>
                          simp only [hloss, Prod.mk.injEq, Except.ok.injEq] at htexts
                          obtain ⟨rfl, rfl⟩ := htexts
                          rw [hloss, gradients_of_gradients hgradients] at hkept
                          obtain ⟨htargets, hsingle⟩ := targets_of_compileTexts hcompile
                          exact ⟨gs, gradients_of_cache hkept, by simpa using htargets, hsingle⟩

theorem compiles_compileTraining [Memo.Stack] : Compiles compileTraining where
  layers net := by
    have htraining := net.layers_training
    unfold compileTraining
    split
    · simp_all
    · rename_i ev net' heq
      have hgradients := net'.layers_gradients
      split <;> simp_all
  fits net gauge names h := by
    unfold compileTraining at h
    split at h
    · cases h
    · rename_i ev net' htraining
      obtain ⟨gs, hgradients, htargets, hsingle⟩ := training_eq_ok htraining
      rw [hgradients] at h
      cases h
      rw [List.length_map]
      exact fits_gaugeWith net' htargets hsingle

end Gantry.Training
