import Mathlib.Data.List.Forall2
import Gantry.Proofs.Network.Stack
import Gantry.Proofs.Network.Weights

/-!
What the expressions of a network depend on: not on the values of its weights,
nor on how these were begun. Networks that are alike in all the rest have the
same prediction, loss, gradients and evaluator.
-/

namespace Gantry.Network

open Gantry.Algebra

variable {l l' : Layer} {index inputs : Nat} {ls ls' : List Layer} {net net' : Network}

/-! ### Layers alike -/

inductive LayerKind.Alike : LayerKind → LayerKind → Prop
  | dense {d d' : Dense} (outputs : d.outputs = d'.outputs) (activation : d.activation = d'.activation) :
      Alike (.dense d) (.dense d')
  | map (entries : List MapEntry) : Alike (.map entries) (.map entries)

/-- Layers that differ in no more than the values of their weights and how
these were begun. -/
structure Layer.Alike (l l' : Layer) : Prop where
  kind : l.kind.Alike l'.kind
  placement : l.placement = l'.placement
  names : l.weights.map Weight.name = l'.weights.map Weight.name

theorem LayerKind.Alike.refl (k : LayerKind) : k.Alike k := by
  cases k with
  | dense d => exact .dense rfl rfl
  | map entries => exact .map entries

theorem Layer.Alike.outputs (h : l.Alike l') : l.outputs = l'.outputs := by
  obtain ⟨kind, _, _⟩ := l
  obtain ⟨kind', _, _⟩ := l'
  cases h.kind with
  | dense houtputs => exact houtputs
  | map => rfl

theorem Layer.Alike.namesAt (h : l.Alike l') (index inputs : Nat) :
    l.namesAt index inputs = l'.namesAt index inputs := by
  obtain ⟨kind, _, _⟩ := l
  obtain ⟨kind', _, _⟩ := l'
  cases h.kind with
  | dense houtputs => simp only [Layer.namesAt, houtputs]
  | map => rfl

/-- The expressions of a dense layer, by the names of its weights. -/
def affineOf [Engine] (row : List String) (bias : String) (inputs : List Expr) : Expr :=
  Engine.sumOf (List.zipWith (fun name x => Engine.productOf [.symbol name true, x]) row inputs ++
    [.symbol bias true])

theorem affine_eq [Engine] (row : List Weight) (b : Weight) (inputs : List Expr) :
    Layer.affine row b inputs = affineOf (row.map Weight.name) b.name inputs := by
  simp [Layer.affine, affineOf, Weight.symbol, List.zipWith_map_left]

theorem zipWith_affine_eq [Engine] (act : Expr → Expr) (matrix : List (List Weight)) (bias : List Weight)
    (inputs : List Expr) :
    List.zipWith (fun row b => act (Layer.affine row b inputs)) matrix bias =
      List.zipWith (fun row b => act (affineOf row b inputs))
        (matrix.map (List.map Weight.name)) (bias.map Weight.name) := by
  simp [affine_eq, List.zipWith_map]

theorem names_rows_congr {ws ws' : List Weight} (h : ws.map Weight.name = ws'.map Weight.name)
    (n k : Nat) :
    (Layer.rows n k ws).map (List.map Weight.name) =
      (Layer.rows n k ws').map (List.map Weight.name) := by
  induction k generalizing ws ws' with
  | zero => rfl
  | succ k ih =>
      have hdrop : (ws.drop n).map Weight.name = (ws'.drop n).map Weight.name := by
        rw [List.map_drop, List.map_drop, h]
      rw [Layer.rows, Layer.rows, List.map_cons, List.map_cons, ih hdrop, List.map_take,
        List.map_take, h]

theorem Layer.Alike.expressions [Engine] (h : l.Alike l') (es : List Expr) :
    l.expressions es = l'.expressions es := by
  obtain ⟨kind, placement, weights⟩ := l
  obtain ⟨kind', placement', weights'⟩ := l'
  obtain ⟨hkind, hplacement, hnames⟩ := h
  obtain rfl : placement = placement' := hplacement
  cases hkind with
  | map entries => rfl
  | @dense d d' houtputs hactivation =>
      cases placement with
      | none => rfl
      | some p =>
          have hlist := zipWith_affine_eq d.activation.apply
            (Layer.rows p.inputs d.outputs weights) (weights.drop (d.outputs * p.inputs)) es
          rw [names_rows_congr hnames, List.map_drop, hnames, ← List.map_drop,
            ← zipWith_affine_eq] at hlist
          simp only [Layer.expressions, Layer.required, Layer.matrix, Layer.bias, Layer.outputs,
            Bind.bind, Except.bind, pure, Except.pure, ← houtputs, ← hactivation, hlist]

theorem through_congr [Engine] (h : List.Forall₂ Layer.Alike ls ls') (es : List Expr) :
    through ls es = through ls' es := by
  induction h generalizing es with
  | nil => rfl
  | cons hhead _ ih => simp only [through, hhead.expressions, ih]

theorem outputsOf_congr (h : List.Forall₂ Layer.Alike ls ls') (inputs : Nat) :
    outputsOf inputs ls = outputsOf inputs ls' := by
  induction h generalizing inputs with
  | nil => rfl
  | cons hhead _ ih => rw [outputsOf_cons, outputsOf_cons, hhead.outputs, ih]

theorem weightNames_congr (h : List.Forall₂ Layer.Alike ls ls') :
    (ls.flatMap Layer.weights).map Weight.name = (ls'.flatMap Layer.weights).map Weight.name := by
  induction h with
  | nil => rfl
  | cons hhead _ ih => simp only [List.flatMap_cons, List.map_append, hhead.names, ih]

theorem Stacked.congr (h : List.Forall₂ Layer.Alike ls ls') (hls : Stacked index inputs ls) :
    Stacked index inputs ls' := by
  induction h generalizing index inputs with
  | nil => trivial
  | cons hhead _ ih =>
      obtain ⟨⟨hplacement, hnames, hpos⟩, htail⟩ := hls
      refine ⟨⟨hhead.placement ▸ hplacement, ?_, hhead.outputs ▸ hpos⟩, ih (hhead.outputs ▸ htail)⟩
      rw [← hhead.names, hnames, hhead.namesAt]

theorem forall₂_alike_map {f : Layer → Layer} (hf : ∀ l : Layer, l.Alike (f l)) (ls : List Layer) :
    List.Forall₂ Layer.Alike ls (ls.map f) := by
  induction ls with
  | nil => exact .nil
  | cons l ls ih => exact .cons (hf l) ih

/-! ### Networks alike -/

structure Alike (net net' : Network) : Prop where
  sequential : net.sequential = net'.sequential
  inputs : net.inputs = net'.inputs
  layers : List.Forall₂ Layer.Alike net.layers net'.layers

theorem Alike.mapWeights (net : Network) {f : Weight → Weight} (hf : ∀ w, (f w).name = w.name) :
    net.Alike (net.mapWeights f) where
  sequential := rfl
  inputs := rfl
  layers := forall₂_alike_map (f := fun l => { l with weights := l.weights.map f })
    (fun _ => ⟨.refl _, rfl, by simp [hf]⟩) net.layers

theorem Alike.outputs (h : net.Alike net') : net.outputs = net'.outputs := by
  rw [outputs_eq, outputs_eq, h.inputs, outputsOf_congr h.layers]

theorem Alike.weightNames (h : net.Alike net') : net.weightNames = net'.weightNames :=
  weightNames_congr h.layers

theorem Alike.expressions [Engine] (h : net.Alike net') (es : List Expr) :
    net.expressions es = net'.expressions es := by
  simp only [Network.expressions, h.sequential, h.inputs, through_congr h.layers]

/-! ### Deriving anew -/

variable [Engine]

/-- The prediction, whatever the network remembers. -/
def predictionAnew (net : Network) : Except Failure (List Expr) := net.expressions net.inputSymbols

def lossAnew (net : Network) : Except Failure Expr :=
  net.predictionAnew.map fun es => meanSquare es net.targetSymbols

def gradientsAnew (net : Network) : Except Failure (List (String × Expr)) :=
  net.lossAnew.map fun e => net.weightNames.map fun name => (name, Engine.gradient name e)

def trainingTextsAnew (net : Network) : Except Failure (List String) := do
  let gs ← net.gradientsAnew
  let e ← net.lossAnew
  return e.text :: gs.map fun g => g.2.text

theorem Alike.predictionAnew (h : net.Alike net') : net.predictionAnew = net'.predictionAnew := by
  simp only [Network.predictionAnew, inputSymbols, inputNames, h.inputs, h.expressions]

theorem Alike.lossAnew (h : net.Alike net') : net.lossAnew = net'.lossAnew := by
  simp only [Network.lossAnew, h.predictionAnew, targetSymbols, targetNames, h.outputs]

theorem Alike.gradientsAnew (h : net.Alike net') : net.gradientsAnew = net'.gradientsAnew := by
  simp only [Network.gradientsAnew, h.lossAnew, h.weightNames]

variable [Memo.Stack]

def forwardAnew (net : Network) : Except Failure Memo.Evaluator := do
  let es ← net.predictionAnew
  compileTexts (es.map Expr.text)

def trainingAnew (net : Network) : Except Failure Memo.Evaluator := do
  let texts ← net.trainingTextsAnew
  compileTexts texts

theorem Alike.forwardAnew (h : net.Alike net') : net.forwardAnew = net'.forwardAnew := by
  simp only [Network.forwardAnew, h.predictionAnew]

theorem Alike.trainingAnew (h : net.Alike net') : net.trainingAnew = net'.trainingAnew := by
  simp only [Network.trainingAnew, trainingTextsAnew, h.gradientsAnew, h.lossAnew]

end Gantry.Network
