import Gantry.Calibration.Basic
import Gantry.Proofs.Training.Numerics

/-!
Calibrations with the numbers left open. States are corrected by a network with given weights, in
coordinates, and a correction is undone by refinement; with machine numbers this is what
calibrations do anyway.
-/

namespace Gantry

open Network (Failure)

/-- What corrects states: a network with values for its weights, and coordinates. -/
structure Correction (α : Type) where
  network : Network
  weights : List α
  normalization : Normalization α

/-- The correction by a calibration. -/
def Calibration.correction (c : Calibration) : Correction Binary64 :=
  ⟨c.network, c.network.weightValues, c.normalization⟩

namespace Numerics

variable {ε β α : Type} [Scalar α] (R : Numerics ε β α)

/-- The predicted actual state for a commanded state. -/
def actual [Memo.Stack] [Algebra.Engine] (c : Correction α) (state : List α) :
    Except Failure (List α) :=
  c.normalization.predictActual (c.network.inputs == c.network.outputs) Calibration.misfit
    (R.predict c.network c.weights) state

/-- The commanded state whose predicted actual state is the wanted one. -/
def nominal [Memo.Stack] [Algebra.Engine] (c : Correction α) (tolerance : α) (rounds : Nat)
    (wanted : List α) :
    Except Failure (List α) :=
  Refinement.refine (R.actual c) Calibration.misfit wanted tolerance rounds wanted

variable {R}

/-- Networks that are alike correct alike. -/
theorem actual_congr [Memo.Stack] [Algebra.Engine] {net net' : Network} (halike : net.Alike net')
    (h : net.Faithful)
    (h' : net'.Faithful) (weights : List α) (n : Normalization α) :
    R.actual ⟨net', weights, n⟩ = R.actual ⟨net, weights, n⟩ := by
  funext state
  have hpredict : R.predict net' weights = R.predict net weights := by
    funext xs
    rw [predict, predict, Network.predictOver_congr halike h h']
  rw [actual, actual, hpredict, halike.inputs, halike.outputs]

end Numerics

namespace Numerics

/-- With machine numbers a calibration corrects states as it does anyway. -/
theorem machine_toActual [Memo.Stack] [Algebra.Engine] (c : Calibration) (state : List Binary64) :
    (c.toActual state).1 = machine.actual c.correction state := by
  have hpredict : (fun coordinates : List Binary64 => c.network.predictWith c.network.forward.1
      (coordinates.map fun x => some (.real x))) = machine.predict c.network c.network.weightValues :=
    funext fun coordinates => machine_predict c.network coordinates
  have hforward : (c.toActual state).1 = c.actualWith c.network.forward.1 state := rfl
  rw [hforward, Calibration.actualWith, hpredict]
  rfl

/-- With machine numbers a calibration finds commanded states as it does anyway. -/
theorem machine_toNominal [Memo.Stack] [Algebra.Engine] (c : Calibration) (rounds : Nat)
    (tolerance : Binary64)
    (wanted : List Binary64) : (c.toNominal ⟨rounds, .ok tolerance⟩ wanted).1 =
      machine.nominal c.correction tolerance rounds wanted := by
  rw [nominal, ← funext (machine_toActual c)]
  rfl

end Numerics

end Gantry
