import Gantry.Proofs.Network.History

/-!
The shape of a network, whatever has been tried on it: layers know their
places, widths match, weights bear the names of their places and no others, and
a layer that could not be added has changed nothing.
-/

namespace Gantry.Network

open Gantry.Algebra

variable {net net₀ : Network} {sequential : Bool} {inputs : Nat}

theorem weightNames_eq (net : Network) :
    net.weightNames = net.layers.flatMap fun l => l.weights.map Weight.name := by
  rw [weightNames, weights, List.map_flatMap]

section

variable [Memo.Stack] [Engine]

/-- What holds of every network. -/
structure Structure (net : Network) : Prop where
  /-- A layer that cannot be added leaves the network, with all it remembers,
  and is left as it was. -/
  failed : ∀ l fresh f, (net.add l fresh).1 = .error f → (net.add l fresh).2 = (net, l)
  first : ∀ l, net.layers[0]? = some l → l.placement = some ⟨0, net.inputs⟩
  next : ∀ i l l', net.layers[i]? = some l → net.layers[i + 1]? = some l' →
    l'.placement = some ⟨i + 1, l.outputs⟩
  weights : ∀ i l d p, net.layers[i]? = some l → l.kind = .dense d → l.placement = some p →
    l.weights.length = l.outputs * p.inputs + l.outputs ∧
      (∃ matrix, l.matrix = .ok matrix ∧ matrix.map (List.map Weight.name) =
        (List.range l.outputs).map fun r => (List.range p.inputs).map (Dense.matrixName i r)) ∧
      ∃ bias, l.bias = .ok bias ∧
        bias.map Weight.name = (List.range l.outputs).map (Dense.biasName i)
  distinct : net.weightNames.Nodup
  apart : ∀ name ∈ net.weightNames, ∀ j,
    name ≠ inputName j ∧ name ≠ targetName j ∧ name ≠ memoName j
  /-- As many expressions come out as the network has outputs, unless an entry
  of a map layer has no value. -/
  outputs : net.sequential = true → ∀ es : List Expr, es.length = net.inputs →
    (∃ out, net.expressions es = .ok out ∧ out.length = net.outputs) ∨
      ∃ l ∈ net.layers, ∃ f, l.Blocked f ∧ net.expressions es = .error (.fault f)

theorem apart_of_kept (h : net.Kept sequential inputs) {name : String} (hname : name ∈ net.weightNames)
    (j : Nat) : name ≠ inputName j ∧ name ≠ targetName j ∧ name ≠ memoName j := by
  rw [weightNames_eq] at hname
  obtain ⟨i, outputs, inputs, -, -, hmem⟩ := h.stacked.exists_name hname
  have hhead := head?_of_mem_namesAt hmem
  refine ⟨?_, ?_, ?_⟩ <;> rintro rfl
  · simp [head?_inputName] at hhead
  · simp [head?_targetName] at hhead
  · simp [head?_memoName] at hhead

theorem structure_of_kept (h : net.Kept sequential inputs) : net.Structure where
  failed l fresh f hf := by
    obtain ⟨_, hadd⟩ | ⟨placed, -, hadd⟩ := add_cases net l fresh
    · rw [hadd]
    · rw [hadd] at hf
      cases hf
  first l hl := by
    rw [(h.stacked.seated hl).placement, List.take_zero, outputsOf_nil, h.inputs_eq]
  next i l l' hl hl' := by
    have hprefix : net.layers.take (i + 1) = net.layers.take i ++ [l] := by
      rw [List.take_add_one, hl]
      rfl
    rw [(h.stacked.seated hl').placement, hprefix, outputsOf, List.getLast?_concat, Nat.zero_add]
  weights i l d p hl hkind hp := by
    have hseated := h.stacked.seated hl
    rw [Nat.zero_add] at hseated
    obtain rfl : _ = p := Option.some.inj (hseated.placement.symm.trans hp)
    exact ⟨hseated.length_weights hkind, ⟨_, hseated.matrix_eq, hseated.names_matrix hkind⟩,
      _, hseated.bias_eq, hseated.names_bias hkind⟩
  distinct := weightNames_eq net ▸ h.stacked.nodup
  apart _ hname := apart_of_kept h hname
  outputs hsequential es hes := by
    have hexpressions : net.expressions es = through net.layers es := by
      simp [expressions, hsequential, hes]
    rw [hexpressions, outputs_eq, h.inputs_eq]
    exact h.stacked.through_cases (hes.trans h.inputs_eq)

/-- Whatever layers have been offered to a network, and whatever else has been
asked of it, it has the shape of a network. -/
theorem structure_after {count : Int} (hempty : empty sequential count = .ok net₀) (calls : List Call)
    (hcalls : ∀ c ∈ calls, c.Offers) : (net₀.after calls).Structure :=
  structure_of_kept (kept_after (kept_of_empty hempty) hcalls)

end

/-- A dense layer of two outputs, a layer with a weight that it does not have, one
with a value that is no number, one that is placed already, and a product. -/
def mixedCalls : List Call :=
  [.add (.loose (.dense ⟨2, .tanh, .identity, none, [("w0b1", .text "0.5")]⟩)) default,
    .add (.loose (.dense ⟨1, .identity, .identity, none, [("w0b0", .null)]⟩)) default, .loss,
    .add (.loose (.dense ⟨1, .identity, .identity, none, [("w1b0", .text "no number")]⟩)) default,
    .add ⟨.map [.text "x0"], some ⟨0, 2⟩, []⟩ default,
    .add (.loose (.map [.text "x0*x1"])) default]

theorem structure_after_mixedCalls :
    (∀ c ∈ mixedCalls, c.Offers) ∧
      (Network.after ⟨true, 3, [], .empty⟩ mixedCalls).Structure := by
  have hoffers : ∀ c ∈ mixedCalls, c.Offers := by
    have hdense : ∀ (outputs : Nat) (a : Activation) (initial : List (String × Datum)),
        Dense.make outputs a.name "identity" none initial =
            .ok ⟨outputs, a, .identity, none, initial⟩ →
          (Layer.loose (.dense ⟨outputs, a, .identity, none, initial⟩)).Offered :=
      fun _ _ _ h => .inr (.dense h)
    simp only [mixedCalls, List.forall_mem_cons, List.not_mem_nil, false_implies, implies_true,
      Call.Offers, and_true, true_and]
    have hmap : Layer.ofMap [.text "x0*x1"] = .ok (.loose (.map [.text "x0*x1"])) := rfl
    exact ⟨hdense 2 .tanh _ rfl, hdense 1 .identity _ rfl, hdense 1 .identity _ rfl, .inl rfl,
      .inr (.map hmap)⟩
  have hempty : empty true 3 = .ok ⟨true, 3, [], .empty⟩ := rfl
  exact ⟨hoffers, structure_after hempty mixedCalls hoffers⟩

example : (Network.add ⟨true, 3, [], .empty⟩
    (.loose (.dense ⟨1, .identity, .identity, none, [("w1b0", .null)]⟩)) default).1 =
      .error (.layerWeights 0 ["w1b0"]) := by
  rfl

end Gantry.Network
