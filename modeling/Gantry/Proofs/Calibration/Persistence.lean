import Gantry.Calibration.Document
import Gantry.Proofs.Training.Lifetime

/-!
Calibrations saved and restored. Coordinates are always written, also plain
ones, and a network whose predictions are not states may not be given any. So
a calibration is restored from its data just if its network is square, and the
one that is restored then predicts the same.
-/

namespace Gantry

namespace Network

/-! ### Maps given as texts -/

/-- A layer that is added by an act has only texts as maps. -/
def Act.Textual : Act → Prop
  | .call c => c.Textual
  | _ => True

theorem Act.Textual.adds {a : Act} (h : a.Textual) : a.Adds LayerKind.Textual := by
  cases a with
  | call c => exact h
  | _ => trivial

theorem LayerKind.Textual.reopened {k : LayerKind} (h : k.Textual) (ws : List Weight) :
    (k.reopened ws).Textual := by
  cases k with
  | dense d => trivial
  | map entries => exact h

end Network

namespace Calibration

open Network (Act)

variable {c : Calibration} {net net₀ : Network} {result : Option (Training.Result Binary64)}
  {offset scale : Option Entries}

/-! ### Coordinates -/

/-- Coordinates that fit a network. -/
structure Fits (n : Normalization Binary64) (inputs : Nat) : Prop where
  offset : n.offset.length = inputs
  scale : n.scale.length = inputs
  nonzero : n.scale.any Binary64.isZero = false

theorem exists_eq_vector {n : Nat} {e : Entries} (h : e.hasLength n = true) :
    ∃ xs, e = .vector xs ∧ xs.length = n := by
  cases e with
  | vector xs => exact ⟨xs, rfl, by simpa [Entries.hasLength] using h⟩
  | other => cases h

theorem make_eq_ok (h : make net result offset scale = .ok c) :
    c.network = net ∧ Fits c.normalization net.inputs := by
  unfold make at h
  dsimp only at h
  split at h
  · cases h
  · split at h
    · cases h
    · rename_i hlength
      split at h
      · cases h
      · rename_i hzero
        simp only [Bool.not_eq_true', Bool.not_eq_false, Bool.and_eq_true] at hlength
        obtain ⟨xs, hoffset, hxs⟩ := exists_eq_vector hlength.1
        obtain ⟨ys, hscale, hys⟩ := exists_eq_vector hlength.2
        rw [hscale, Bool.not_eq_true] at hzero
        rw [hoffset, hscale] at h
        obtain rfl := Except.ok.inj h
        exact ⟨rfl, hxs, hys, hzero⟩

/-- With coordinates given, predictions are states. -/
theorem square_of_make {e : Entries} (h : make net result (some e) scale = .ok c) :
    net.inputs = net.outputs := by
  unfold make at h
  dsimp only at h
  split at h
  · cases h
  · rename_i hsquare
    simpa using hsquare

theorem ofDatum?_ofReals (xs : List Binary64) :
    Entries.ofDatum? (.ofReals xs) = .ok (some (.vector xs)) := by
  have hnumbers : (xs.map Datum.ofReal).all (fun i => (listLength? i).isNone) = true := by
    simp [Datum.ofReal, listLength?]
  have hcomponents : Datum.components (xs.map Datum.ofReal) = .ok xs := by
    have heach : ∀ x ∈ xs, (Datum.ofReal x).component = .ok (id x) := fun _ _ => rfl
    rw [Datum.components, Network.mapM_map_eq_ok heach, List.map_id]
  simp only [Datum.ofReals, Entries.ofDatum?, Entries.ofDatum, hnumbers, if_true, hcomponents]
  rfl

/-- Explicit coordinates of the width of the inputs are refused if predictions are not states, or if
a scale is zero. -/
theorem make_coordinates {n : Normalization Binary64} (hoffset : n.offset.length = net.inputs)
    (hscale : n.scale.length = net.inputs) :
    make net result (some (.vector n.offset)) (some (.vector n.scale)) =
      if net.inputs = net.outputs then
        if n.scale.any Binary64.isZero then .error .zeroScale else .ok ⟨net, result, n⟩
      else .error .notSquare := by
  unfold make
  simp only [Option.isSome_some, Bool.or_self, Bool.true_and, bne_iff_ne, ne_eq, ite_not,
    Option.getD_some, Entries.hasLength, Entries.toList, hoffset, hscale, beq_self_eq_true,
    Bool.and_self, Bool.not_true, Bool.false_eq_true, if_false]
  rfl

/-- Explicit coordinates that fit are refused just if predictions are not states. -/
theorem make_vectors {n : Normalization Binary64} (h : Fits n net.inputs) :
    make net none (some (.vector n.offset)) (some (.vector n.scale)) =
      if net.inputs = net.outputs then .ok ⟨net, none, n⟩ else .error .notSquare := by
  rw [make_coordinates h.offset h.scale, h.nonzero]
  rfl

/-! ### Saving and restoring -/

/-- The calibration that is read back. -/
def restored (c : Calibration) : Calibration := ⟨c.network.restored, none, c.normalization⟩

theorem datum_restored (c : Calibration) : c.restored.datum = c.datum := by
  rw [datum, datum, restored, Network.datum_restored]

/-- What reading makes of the data of a calibration. -/
theorem ofDatum_object {fresh : Nat → Random.Stream} {d : Datum} {net : Network}
    (h : Network.ofDatum fresh d = .ok net) (n : Normalization Binary64) :
    ofDatum fresh (.object [("type", .text "Calibration"), ("network", d), ("offset", .ofReals n.offset),
      ("scale", .ofReals n.scale)]) =
      make net none (some (.vector n.offset)) (some (.vector n.scale)) := by
  simp [ofDatum, Datum.member, Datum.require, Datum.members, List.lookup_cons, h, ofData,
    ofDatum?_ofReals, Except.mapError, Bind.bind, Except.bind]

section

variable [Memo.Stack] [Algebra.Engine]

theorem toActual_eq (h : c.network.Faithful) (state : List Binary64) :
    (c.toActual state).1 = c.actualWith c.network.forwardAnew state := by
  rw [← (Network.derives_forward h).result]
  rfl

/-- The same coordinates and weights make the same predictions. -/
theorem toActual_restored (h : c.network.Faithful)
    (state : List Binary64) :
    (c.restored.toActual state).1 = (c.toActual state).1 := by
  have halike := Network.alike_restored_network c.network
  have hsquare : c.restored.isSquare = c.isSquare := by
    simp only [isSquare, restored, ← halike.inputs, ← halike.outputs]
  rw [toActual_eq h, toActual_eq (Network.faithful_of_empty rfl), actualWith, actualWith, hsquare]
  simp only [restored, ← halike.forwardAnew,
    Network.predictWith_congr halike (Network.weights_restored c.network)]

/-- A calibration whose network is square and has only layers that can be
written. -/
structure Lasting (c : Calibration) : Prop where
  kept : c.network.Kept true c.network.inputs
  textual : ∀ l ∈ c.network.layers, l.kind.Textual
  inputs : 0 < c.network.inputs
  square : c.network.inputs = c.network.outputs
  fits : Fits c.normalization c.network.inputs

theorem Lasting.exists_datum (h : c.Lasting) :
    ∃ ms, c.datum = .ok (.object ms) ∧ ∀ fresh, ofDatum fresh (.object ms) = .ok c.restored := by
  obtain ⟨d, hd, hread⟩ := Network.exists_datum_network h.kept h.inputs h.textual
  have halike := Network.alike_restored_network c.network
  refine ⟨_, by rw [Calibration.datum, hd]; rfl, fun fresh => ?_⟩
  rw [ofDatum_object (hread fresh), make_vectors (halike.inputs ▸ h.fits), ← halike.inputs,
    ← halike.outputs, if_pos h.square]
  rfl

theorem Lasting.restored (h : c.Lasting) : c.restored.Lasting := by
  have halike := Network.alike_restored_network c.network
  refine ⟨⟨h.kept.sequential_eq, rfl, h.kept.stacked.congr halike.layers,
    Network.faithful_of_empty rfl⟩, ?_, h.inputs, halike.outputs ▸ h.square, h.fits⟩
  simp only [Calibration.restored, Network.restored, List.forall_mem_map]
  exact fun l hl => (h.textual l hl).reopened l.weights

/-- Asking for predictions changes only what a network remembers. -/
theorem Lasting.consulted (h : c.Lasting) :
    Lasting { c with network := c.network.forward.2 } := by
  have hderives := Network.derives_forward h.kept.faithful
  have hkept := hderives.kept h.kept
  obtain ⟨cache, hnet⟩ := hderives.layers
  rw [hnet] at hkept ⊢
  exact ⟨hkept, h.textual, h.inputs, h.square, h.fits⟩

/-- A calibration has been read back from its data. -/
structure Restores (c c' : Calibration) : Prop where
  offset : c'.normalization.offset = c.normalization.offset
  scale : c'.normalization.scale = c.normalization.scale
  /-- Names and values, in the same order. -/
  weights : c'.network.weights = c.network.weights
  toActual : ∀ state, (c'.toActual state).1 = (c.toActual state).1

/-- Whatever has happened to a network of dense layers and of maps given as
texts, a calibration by it can be written, and is restored from its data if
the network has as many outputs as inputs and refused otherwise. -/
theorem ofDatum_datum_of_make {count : Int}
    (hempty : Network.empty true count = .ok net₀)
    (acts : List Act) (hacts : ∀ a ∈ acts, a.Offers ∧ a.Textual)
    (hmake : make (net₀.actAll acts) result offset scale = .ok c) :
    ∃ d, c.datum = .ok d ∧
      if c.network.inputs = c.network.outputs then
        ∃ c', (∀ fresh, ofDatum fresh d = .ok c') ∧ c.Restores c'
      else ∀ fresh, ofDatum fresh d = .error .notSquare := by
  have hstart := Network.kept_of_empty hempty
  obtain ⟨hcount, rfl⟩ := Network.empty_eq_ok_iff.1 hempty
  have hkept := Network.kept_actAll hstart fun a ha => (hacts a ha).1
  have htext := Network.forall_kind_actAll hstart (by simp)
    fun a ha => ⟨(hacts a ha).1, (hacts a ha).2.adds⟩
  obtain ⟨hnet, hfits⟩ := make_eq_ok hmake
  rw [← hnet] at hkept htext hfits
  obtain ⟨d, hd, hread⟩ := Network.exists_datum_network hkept (by omega) htext
  have hdatum : c.datum = .ok (.object [("type", .text "Calibration"), ("network", d),
      ("offset", .ofReals c.normalization.offset), ("scale", .ofReals c.normalization.scale)]) := by
    rw [Calibration.datum, hd]
    rfl
  refine ⟨_, hdatum, ?_⟩
  have halike := Network.alike_restored_network c.network
  simp only [ofDatum_object (hread _), make_vectors (halike.inputs ▸ hfits), ← halike.inputs,
    ← halike.outputs]
  split
  · exact ⟨_, fun _ => rfl, rfl, rfl, Network.weights_restored c.network,
      toActual_restored hkept.faithful⟩
  · exact fun _ => rfl

end

/-- One output for each input, and one weight that is set. -/
def squareActs : List Act :=
  [.call (.add (.loose (.dense ⟨1, .tanh, .identity, none, []⟩)) default),
    .call (.setWeights [("w0b0", .text "0.5")])]

theorem ofDatum_datum_squareActs :
    (∀ a ∈ squareActs, a.Offers ∧ a.Textual) ∧ ∃ c d c',
      make (Network.actAll ⟨true, 1, [], .empty⟩ squareActs) none (some (.vector [.half])) none =
        .ok c ∧
      c.datum = .ok d ∧ (∀ fresh, ofDatum fresh d = .ok c') ∧ c.Restores c' := by
  have hacts : ∀ a ∈ squareActs, a.Offers ∧ a.Textual := by
    have hdense : Network.Dense.make 1 "tanh" "identity" none [] =
        .ok ⟨1, .tanh, .identity, none, []⟩ := rfl
    simp only [squareActs, List.forall_mem_cons, List.not_mem_nil, false_implies, implies_true,
      and_true]
    exact ⟨⟨.inr (.dense hdense), trivial⟩, trivial, trivial⟩
  have hwidths : (Network.actAll ⟨true, 1, [], .empty⟩ squareActs).inputs = 1 ∧
      (Network.actAll ⟨true, 1, [], .empty⟩ squareActs).outputs = 1 := by decide +kernel
  have hmake : make (Network.actAll ⟨true, 1, [], .empty⟩ squareActs) none
      (some (.vector [.half])) none =
      .ok ⟨Network.actAll ⟨true, 1, [], .empty⟩ squareActs, none, ⟨[.half], [.one]⟩⟩ := by
    simp only [make, hwidths.1, hwidths.2]
    rfl
  obtain ⟨d, hd, hread⟩ := ofDatum_datum_of_make
    (show Network.empty true 1 = .ok ⟨true, 1, [], .empty⟩ from rfl) squareActs hacts hmake
  rw [if_pos (hwidths.1.trans hwidths.2.symm)] at hread
  obtain ⟨c', hc', hrestores⟩ := hread
  exact ⟨hacts, _, d, c', hmake, hd, hc', hrestores⟩

/-- A plain calibration by a network with two outputs for one input is written
with coordinates, with which it is refused. -/
theorem not_restored_widening : ∃ c d,
    make (Network.actAll ⟨true, 1, [], .empty⟩
      [.call (.add (.loose (.dense ⟨2, .identity, .identity, none, []⟩)) default)]) none none none =
        .ok c ∧
      c.datum = .ok d ∧ ∀ fresh, ofDatum fresh d = .error .notSquare :=
  ⟨_, _, rfl, rfl, fun _ => by rfl⟩

end Calibration

end Gantry
