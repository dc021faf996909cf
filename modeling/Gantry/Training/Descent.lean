import Gantry.Fault
import Gantry.Scalar

/-!
Gradient descent over epochs. An epoch starts from known weights and either
runs to its end or, if a number runs out of range, gives those weights back.
Training stops when the mean loss hardly falls any more; when it rises, the
weights that scored the last loss are kept and the rise is not reported.
-/

namespace Gantry.Training

variable {α : Type}

structure Example (α : Type) where
  input : List α
  target : List α
  deriving DecidableEq, Inhabited

/-- The loss of an example and its gradient, at given weights. -/
abbrev Gauge (α : Type) := List α → Example α → Except Fault (α × List α)

structure Plan (α : Type) where
  maxEpochs : Nat
  /-- The learning rate of an epoch. -/
  rate : Nat → Except Fault α
  /-- Whether each example moves the weights; otherwise their mean does. -/
  eachExample : Bool
  /-- Whether an improvement is too small to go on. -/
  settled : α → Bool

/-- What ran out of range. -/
inductive Divergence where
  | measure | update
  deriving DecidableEq, Inhabited

inductive Stop (α : Type) where
  /-- Numbers ran out of range; the weights are those the epoch started from. -/
  | diverged (what : Divergence) (epoch : Nat) (sample : Option Nat) (weights : List α)
  /-- An observer stopped training. -/
  | interrupted
  | fault (f : Fault)
  deriving Inhabited

/-- Training that has stopped short, and the weights it left. -/
structure Halt (α : Type) where
  stop : Stop α
  weights : List α
  deriving Inhabited

/-- An epoch as observers see it. -/
structure Report (α : Type) where
  epoch : Nat
  loss : α
  rate : α
  weights : List α
  deriving DecidableEq, Inhabited

structure Result (α : Type) where
  converged : Bool
  weights : List α
  /-- The mean loss of each epoch. -/
  losses : List α
  deriving DecidableEq, Inhabited

def Result.epochs (r : Result α) : Nat := r.losses.length

def Result.loss [Scalar α] (r : Result α) : α := r.losses.getLastD Scalar.zero

structure Run (α : Type) where
  /-- The weights as training left them. -/
  weights : List α
  /-- The epochs that were run to their end, in order. -/
  reports : List (Report α)
  outcome : Except (Stop α) (Result α)
  deriving Inhabited

def Halt.asRun (h : Halt α) : Run α := ⟨h.weights, [], .error h.stop⟩

def Run.report (r : Report α) (run : Run α) : Run α := { run with reports := r :: run.reports }

section Descent

variable [Scalar α]

/-- Weights after a step against a gradient. -/
def step (rate : α) (weights gradient : List α) : List α :=
  List.zipWith (fun w g => w - rate * g) weights gradient

/-- An epoch under way. -/
structure Sweep (α : Type) where
  weights : List α
  /-- The losses so far, added up. -/
  total : α
  /-- The gradients so far, added up. -/
  gradient : List α
  deriving Inhabited

def Sweep.start (weights : List α) : Sweep α :=
  ⟨weights, Scalar.zero, weights.map fun _ => Scalar.zero⟩

/-- Takes in one example of an epoch that began at `start`. -/
def Sweep.take (gauge : Gauge α) (eachExample : Bool) (epoch : Nat) (rate : α) (start : List α)
    (i : Nat) (e : Example α) (s : Sweep α) : Except (Halt α) (Sweep α) :=
  match gauge s.weights e with
  | .error f => .error ⟨.fault f, s.weights⟩
  | .ok (loss, gradient) =>
    if !(Scalar.isFinite loss && Scalar.allFinite gradient) then
      .error ⟨.diverged .measure epoch (some i) start, start⟩
    else if eachExample then
      let weights := step rate s.weights gradient
      if Scalar.allFinite weights then .ok { s with weights, total := s.total + loss }
      else .error ⟨.diverged .update epoch (some i) start, start⟩
    else
      .ok { s with total := s.total + loss, gradient := List.zipWith (· + ·) s.gradient gradient }

def Sweep.takeAll (gauge : Gauge α) (eachExample : Bool) (epoch : Nat) (rate : α) (start : List α) :
    Nat → List (Example α) → Sweep α → Except (Halt α) (Sweep α)
  | _, [], s => .ok s
  | i, e :: es, s =>
    match s.take gauge eachExample epoch rate start i e with
    | .error h => .error h
    | .ok s => s.takeAll gauge eachExample epoch rate start (i + 1) es

/-- Runs one epoch from given weights, to new weights and the mean loss. -/
def runEpoch (gauge : Gauge α) (eachExample : Bool) (examples : List (Example α)) (epoch : Nat)
    (rate : α) (start : List α) : Except (Halt α) (List α × α) :=
  match (Sweep.start start).takeAll gauge eachExample epoch rate start 0 examples with
  | .error h => .error h
  | .ok s =>
    let count : α := Scalar.ofNat examples.length
    if eachExample then .ok (s.weights, s.total / count)
    else
      let weights := step rate s.weights (s.gradient.map (· / count))
      if Scalar.allFinite weights then .ok (weights, s.total / count)
      else .error ⟨.diverged .update epoch none start, start⟩

/-- A run that ends here, with its losses given newest first. -/
def finish (converged : Bool) (losses weights : List α) : Run α :=
  ⟨weights, [], .ok ⟨converged, weights, losses.reverse⟩⟩

/-- What a loss means for training. -/
inductive Verdict where
  | goOn | risen | settled
  deriving DecidableEq, Inhabited

/-- Compares a loss with the losses before it, given newest first. -/
def verdict (settled : α → Bool) (losses : List α) (loss : α) : Verdict :=
  match losses with
  | [] => .goOn
  | last :: _ =>
    if Scalar.lt (last - loss) Scalar.zero then .risen
    else if settled (last - loss) then .settled
    else .goOn

/-- Runs the remaining epochs. `previous` are the weights that the epoch before
started from, and the losses so far are given newest first. -/
def runEpochs (plan : Plan α) (gauge : Gauge α) (examples : List (Example α))
    (interrupts : Nat → Bool) : Nat → Nat → (previous losses weights : List α) → Run α
  | 0, _, _, losses, weights => finish false losses weights
  | remaining + 1, epoch, previous, losses, weights =>
    match plan.rate epoch with
    | .error f => Halt.asRun ⟨.fault f, weights⟩
    | .ok rate =>
      match runEpoch gauge plan.eachExample examples epoch rate weights with
      | .error h => h.asRun
      | .ok (after, loss) =>
        Run.report ⟨epoch, loss, rate, after⟩ <|
          if interrupts epoch then Halt.asRun ⟨.interrupted, after⟩
          else
            match verdict plan.settled losses loss with
            | .risen => finish false losses previous
            | .settled => finish true (loss :: losses) after
            | .goOn =>
              runEpochs plan gauge examples interrupts remaining (epoch + 1) weights
                (loss :: losses) after

/-- Trains weights on examples. `interrupts` says after which epochs an
observer stops training. -/
def descend (plan : Plan α) (gauge : Gauge α) (examples : List (Example α))
    (interrupts : Nat → Bool) (weights : List α) : Run α :=
  runEpochs plan gauge examples interrupts plan.maxEpochs 0 [] [] weights

end Descent

end Gantry.Training
