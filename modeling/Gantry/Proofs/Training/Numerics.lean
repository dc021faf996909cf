import Gantry.Proofs.Network.Exactness
import Gantry.Proofs.Training.Fitting

/-!
Training and prediction with the numbers left open. Formulas are evaluated in an arithmetic, and
descent calculates with scalars; numerics say how the ones become the others. With machine numbers
this is how networks are trained and asked anyway; numbers that are not rounded give the same
algorithms their exact meaning.
-/

namespace Gantry

open Gantry.Network (Failure)
open Gantry.Training

/-- What numbers are when a network is trained and asked: how they stand in a scope and are taken
from answers, and what settings make of them. -/
structure Numerics (ε β α : Type) where
  arithmetic : Arithmetic ε β
  /-- What a failed evaluation is to whoever asked. -/
  fault : ε → Fault
  value : α → β
  number : Option β → Except Fault α
  /-- The number of a loss. -/
  loss : Option β → Except Fault α
  rate : Options → Nat → Except Fault α
  /-- Whether an improvement is too small to go on. -/
  settled : Options → α → Bool

namespace Numerics

/-- Machine numbers. -/
def machine : Numerics EvalFailure Operand Binary64 where
  arithmetic := Meaning.compiled.arithmetic
  fault := EvalFailure.fault
  value x := some (.real x)
  number v := (Operand.value (v.getD none)).toReal
  loss v := lossOf (Operand.value (v.getD none))
  rate options := options.plan.rate
  settled options := options.plan.settled

variable {ε β α : Type} (R : Numerics ε β α)

/-! ### Prediction -/

def answer (result : Except Failure (Except ε (List (Option β)))) : Except Failure (List α) :=
  match result with
  | .error f => .error f
  | .ok (.error f) => .error (.fault (R.fault f))
  | .ok (.ok vs) => (vs.mapM R.number).mapError .fault

/-- What a network predicts with given weights. -/
def predict [Memo.Stack] [Algebra.Engine] (net : Network) (w xs : List α) : Except Failure (List α)
    :=
  R.answer (net.predictOver R.arithmetic (w.map R.value) (xs.map R.value))

theorem mapM_machine_number (vs : List (Option Operand)) :
    vs.mapM machine.number = Value.ofOperands (vs.map (Option.getD · none)) := by
  rw [Value.ofOperands, Value.toReals, List.mapM_map, List.mapM_map]
  rfl

theorem machine_answer : machine.answer = Network.answerOf := by
  funext result
  obtain f | f | vs := result
  · rfl
  · rfl
  · rw [answer, Network.answerOf, mapM_machine_number]

/-- With machine numbers a network predicts what it predicts anyway. -/
theorem machine_predict [Memo.Stack] [Algebra.Engine] (net : Network) (xs : List Binary64) :
    (net.predict (xs.map fun x => some (.real x))).1 =
      machine.predict net net.weightValues xs := by
  have hpredict := Network.predict_eq_answerOf net (xs.map fun x => some (.real x))
  rw [List.map_map] at hpredict
  rw [predict, machine_answer]
  exact hpredict

/-! ### Training -/

def plan (options : Options) : Plan α where
  maxEpochs := options.maxEpochs
  rate := R.rate options
  eachExample := options.update == .example
  settled := R.settled options

/-- Measures examples with an evaluator of the loss and its gradient. -/
def gauge (ev : Memo.Evaluator) (net : Network) : Gauge α := fun weights e =>
  match ev.runOver R.arithmetic
      (net.scopeOver (weights.map R.value) (e.input.map R.value) (e.target.map R.value)) with
  | .error f => .error (R.fault f)
  | .ok vs => do
    let gradient ← vs.tail.mapM R.number
    let loss ← R.loss (vs.headD none)
    return (loss, gradient)

/-- The measure by the loss of a network and its gradient, with the names of its weights. -/
def measure [Memo.Stack] [Algebra.Engine] (net : Network) : Except Failure (Gauge α × List String)
    :=
  match net.training with
  | (.error f, _) => .error f
  | (.ok ev, net) =>
    match net.gradients with
    | (.error f, _) => .error f
    | (.ok gs, net) => .ok (R.gauge ev net, gs.map Prod.fst)

variable {R}

theorem exists_training_of_measure [Memo.Stack] [Algebra.Engine] {net : Network} {gauge : Gauge α}
    {names : List String}
    (h : R.measure net = .ok (gauge, names)) : ∃ ev, net.training.1 = .ok ev := by
  unfold measure at h
  split at h
  · cases h
  · rename_i ev net' htraining
    exact ⟨ev, by rw [htraining]⟩

end Numerics

namespace Training

theorem checkShapes_eq_ok_iff {inputs outputs : Nat} {es : List (Example Binary64)} {i : Nat} :
    checkShapes inputs outputs i es = .ok () ↔
      ∀ e ∈ es, e.input.length = inputs ∧ e.target.length = outputs := by
  induction es generalizing i with
  | nil => simp [checkShapes]
  | cons e es ih =>
      rw [checkShapes, List.forall_mem_cons, ← ih (i := i + 1)]
      by_cases hinput : e.input.length = inputs <;> by_cases htarget : e.target.length = outputs <;>
        simp [hinput, htarget]

theorem checked_eq_ok_iff {net : Network} {s : Settings} {es : List (Example Binary64)}
    {options : Options} : checked net s es = .ok options ↔ s.check = .ok options ∧ es ≠ [] ∧
      (∀ e ∈ es, e.input.length = net.inputs ∧ e.target.length = net.outputs) ∧ net.weights ≠ [] := by
  rw [← checkShapes_eq_ok_iff (i := 0), checked]
  cases s.check with
  | error f => simp [Except.mapError, Bind.bind, Except.bind]
  | ok options' =>
      simp only [Except.mapError, Bind.bind, Except.bind]
      cases hshapes : checkShapes net.inputs net.outputs 0 es <;> cases es <;>
        cases hweights : net.weights <;>
          simp_all [pure, Except.pure, throw, throwThe, MonadExceptOf.throw]

/-- An example of the same shape. -/
def Example.outline {α : Type} (e : Example α) : Example Binary64 :=
  ⟨e.input.map fun _ => Binary64.zero, e.target.map fun _ => Binary64.zero⟩

end Training

namespace Numerics

variable {ε β α : Type} [Scalar α] (R : Numerics ε β α)

/-- Trains a network from given weights. -/
def fit [Memo.Stack] [Algebra.Engine] (net : Network) (s : Settings) (examples : List (Example α))
    (observer : Observer)
    (weights : List α) : Except FitFailure (Run α) :=
  match checked net s (examples.map Example.outline) with
  | .error f => .error f
  | .ok options =>
    match R.measure net with
    | .error f => .error (.network f)
    | .ok (gauge, names) =>
      if names ≠ net.weightNames then .error .gradientOrder
      else .ok (descend (R.plan options) gauge examples observer.interruptsAfter weights)

variable {R}

/-- Training that is not refused descends by the measure of the network. -/
theorem fit_eq_ok [Memo.Stack] [Algebra.Engine] {net : Network} {s : Settings}
    {examples : List (Example α)} {observer : Observer}
    {weights : List α} {run : Run α} (h : R.fit net s examples observer weights = .ok run) :
    ∃ options gauge, checked net s (examples.map Example.outline) = .ok options ∧
      R.measure net = .ok (gauge, net.weightNames) ∧
      run = descend (R.plan options) gauge examples observer.interruptsAfter weights := by
  unfold fit at h
  split at h
  · cases h
  · rename_i options hchecked
    split at h
    · cases h
    · rename_i gauge names hmeasure
      split at h
      · cases h
      · rename_i horder
        obtain rfl : names = net.weightNames := not_not.1 horder
        exact ⟨options, gauge, hchecked, hmeasure, (Except.ok.inj h).symm⟩

/-- Training that comes to a result leaves the weights of the result. -/
theorem weights_of_fit [Memo.Stack] [Algebra.Engine] {net : Network} {s : Settings}
    {examples : List (Example α)}
    {observer : Observer} {weights : List α} {run : Run α} {r : Result α}
    (h : R.fit net s examples observer weights = .ok run) (hr : run.outcome = .ok r) :
    run.weights = r.weights := by
  obtain ⟨options, gauge, -, -, rfl⟩ := fit_eq_ok h
  obtain ⟨-, hending⟩ :=
    descend_ending (R.plan options) gauge examples observer.interruptsAfter weights
  rw [hr] at hending
  exact hending.weights_of_ok.1.symm

end Numerics

namespace Numerics

theorem machine_plan (options : Options) : machine.plan options = options.plan := rfl

theorem machine_gauge (ev : Memo.Evaluator) (net : Network) :
    machine.gauge ev net = gaugeWith ev net := by
  funext weights e
  have hrun : (ev.runOver machine.arithmetic (net.scopeOver (weights.map machine.value)
      (e.input.map machine.value) (e.target.map machine.value))).map (List.map (Option.getD · none)) =
        (ev.run (net.scopeAt weights (e.input.map fun x => some (.real x))
          (e.target.map fun x => some (.real x)))).1.map Memo.Answer.values := by
    rw [← ev.runOver_arithmetic, ← Network.scopeOver_scopeAt, List.map_map, List.map_map]
    rfl
  unfold gauge gaugeWith
  dsimp only
  generalize ev.runOver machine.arithmetic (net.scopeOver (weights.map machine.value)
    (e.input.map machine.value) (e.target.map machine.value)) = values at *
  generalize (ev.run (net.scopeAt weights (e.input.map fun x => some (.real x))
    (e.target.map fun x => some (.real x)))).1 = run at *
  rcases values with f | vs <;> rcases run with g | answer
  · cases hrun
    rfl
  · cases hrun
  · cases hrun
  · have hvalues : vs.map (Option.getD · none) = answer.values := Except.ok.inj hrun
    dsimp only
    rw [mapM_machine_number, List.map_tail, ← hvalues]
    cases vs <;> rfl

theorem machine_measure [Memo.Stack] [Algebra.Engine] (net : Network) :
    machine.measure net = (compileTraining net).1 := by
  unfold measure compileTraining
  obtain ⟨f | ev, net'⟩ := net.training
  · rfl
  · dsimp only
    obtain ⟨f | gs, net''⟩ := net'.gradients
    · rfl
    · dsimp only
      rw [machine_gauge]

theorem checkShapes_outline (inputs outputs i : Nat) (es : List (Example Binary64)) :
    checkShapes inputs outputs i (es.map Example.outline) = checkShapes inputs outputs i es := by
  induction es generalizing i with
  | nil => rfl
  | cons e es ih =>
      rw [List.map_cons, checkShapes, checkShapes, ih]
      simp only [Example.outline, List.length_map]

theorem checked_outline (net : Network) (s : Settings) (es : List (Example Binary64)) :
    checked net s (es.map Example.outline) = checked net s es := by
  unfold checked
  rw [List.isEmpty_map, checkShapes_outline]

/-- With machine numbers a network is trained as it is anyway: training is refused for the same
reason, or it is the same run. -/
theorem machine_fit [Memo.Stack] [Algebra.Engine] (net : Network) (s : Settings)
    (examples : List (Example Binary64))
    (observer : Observer) :
    ∃ net', net'.weights = net.weights ∧ Training.fit net s examples observer =
      match machine.fit net s examples observer net.weightValues with
      | .error f => .refused net' f
      | .ok run => .ofRun net' observer run := by
  unfold fit
  rw [checked_outline, machine_measure, Training.fit, fitWith]
  cases checked net s examples with
  | error f => exact ⟨net, rfl, rfl⟩
  | ok options =>
      have hweights := compiles_compileTraining.weights net
      have hvalues : (compileTraining net).2.weightValues = net.weightValues :=
        congrArg (List.map Network.Weight.value) hweights
      have hnames : (compileTraining net).2.weightNames = net.weightNames :=
        congrArg (List.map Network.Weight.name) hweights
      refine ⟨(compileTraining net).2, hweights, ?_⟩
      dsimp only
      rcases hcompile : compileTraining net with ⟨f | ⟨gauge, names⟩, net'⟩
      · rfl
      · rw [hcompile] at hvalues hnames
        dsimp only at hvalues hnames ⊢
        rw [hvalues, hnames, machine_plan]
        split <;> rfl

/-- Training ends with a result just if the run has that result and no observer objects at the
end. -/
theorem outcome_fit_eq_ok_iff [Memo.Stack] [Algebra.Engine] {net : Network} {s : Settings}
    {examples : List (Example Binary64)}
    {observer : Observer} {r : Result Binary64} :
    (Training.fit net s examples observer).outcome = .ok r ↔
      (∃ run, machine.fit net s examples observer net.weightValues = .ok run ∧
        run.outcome = .ok r) ∧ observer.interruptsAtEnd = false := by
  obtain ⟨net', -, hfit⟩ := machine_fit net s examples observer
  rw [hfit]
  cases machine.fit net s examples observer net.weightValues with
  | error f => simp [Fit.refused]
  | ok run =>
      cases houtcome : run.outcome with
      | error stop => simp [Fit.ofRun, houtcome]
      | ok r' => cases hend : observer.interruptsAtEnd <;> simp [Fit.ofRun, houtcome, hend]

/-- The network has the weights of the result then. -/
theorem weightValues_of_outcome [Memo.Stack] [Algebra.Engine] {net : Network} {s : Settings}
    {examples : List (Example Binary64)}
    {observer : Observer} {r : Result Binary64}
    (h : (Training.fit net s examples observer).outcome = .ok r) :
    (Training.fit net s examples observer).network.weightValues = r.weights := by
  obtain ⟨⟨run, hrun, hr⟩, -⟩ := outcome_fit_eq_ok_iff.1 h
  obtain ⟨net', -, hfit⟩ := machine_fit net s examples observer
  rw [hrun] at hfit
  have hfinished : (Training.fit net s examples observer).finished = some r := by
    rw [hfit]
    simp only [Fit.ofRun, hr]
  obtain ⟨_, _, _, -, -, -, -, hweights⟩ := fitWith_finished compiles_compileTraining hfinished
  exact hweights

end Numerics

end Gantry
