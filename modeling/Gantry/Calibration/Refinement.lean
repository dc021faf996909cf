import Gantry.Scalar

/-!
Inverting a correction by refinement: what is missing to the wanted state is
added to the commanded one, until hardly anything was missing or the rounds
are used up.
-/

namespace Gantry.Refinement

variable {α ε : Type} [Scalar α]

/-- One round: what was missing, and the next state to command. -/
def round (actual : List α → Except ε (List α)) (misfit : ε) (wanted nominal : List α) :
    Except ε (List α × List α) :=
  match actual nominal with
  | .error f => .error f
  | .ok reached =>
    match entrywise (· - ·) wanted reached with
    | none => .error misfit
    | some missing =>
      match entrywise (· + ·) nominal missing with
      | none => .error misfit
      | some next => .ok (missing, next)

/-- The state after at most `n` rounds. -/
def refine (actual : List α → Except ε (List α)) (misfit : ε) (wanted : List α) (tolerance : α) :
    Nat → List α → Except ε (List α)
  | 0, nominal => .ok nominal
  | n + 1, nominal =>
    match round actual misfit wanted nominal with
    | .error f => .error f
    | .ok (missing, next) =>
      if Scalar.lt (Scalar.largest missing) tolerance then .ok next
      else refine actual misfit wanted tolerance n next

end Gantry.Refinement
