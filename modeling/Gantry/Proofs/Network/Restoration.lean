import Gantry.Network.Document
import Gantry.Proofs.Document.RoundTrip
import Gantry.Proofs.Formula.Values
import Gantry.Proofs.Network.Structure

/-!
Networks saved and restored. A restored layer begins with the saved weights as
initial values under the names of its place, so it gets the same weights in the
same order; what the network derives and predicts is then the same too.
-/

namespace Gantry.Network

open Gantry.Algebra

variable {l : Layer} {ls : List Layer} {net net₀ : Network} {index inputs : Nat}

/-- Going through items one by one, each of which is dealt with. -/
theorem mapM_map_eq_ok {ε α β γ : Type} {key : α → β} {step : β → Except ε γ} {g : α → γ}
    {xs : List α} (h : ∀ x ∈ xs, step (key x) = .ok (g x)) :
    (xs.map key).mapM step = .ok (xs.map g) := by
  rw [List.mapM_map]
  exact mapM_eq_ok_map h

/-! ### Weights -/

/-- Weights as named values. -/
def namedValues (ws : List Weight) : List (String × Datum) :=
  ws.map fun w => (w.name, .ofReal w.value)

theorem names_namedValues (ws : List Weight) : (namedValues ws).map Prod.fst = ws.map Weight.name := by
  rw [namedValues, List.map_map]
  rfl

theorem lookup_namedValues {ws : List Weight} (hdistinct : (ws.map Weight.name).Nodup) {w : Weight}
    (hw : w ∈ ws) : (namedValues ws).lookup w.name = some (.ofReal w.value) := by
  induction ws with
  | nil => cases hw
  | cons v ws ih =>
      rw [List.map_cons, List.nodup_cons] at hdistinct
      rw [namedValues, List.map_cons, List.lookup_cons]
      rcases List.mem_cons.1 hw with rfl | htail
      · rw [beq_self_eq_true]
      · have hne : (w.name == v.name) = false := by
          rw [beq_eq_false_iff_ne]
          exact fun heq => hdistinct.1 (heq ▸ List.mem_map_of_mem htail)
        rw [hne]
        exact ih hdistinct.2 htail

theorem fillIn_eq {initial : List (String × Datum)} {fresh ws : List Weight}
    (hnames : fresh.map Weight.name = ws.map Weight.name)
    (hvalues : ∀ w ∈ ws, initial.lookup w.name = some (.ofReal w.value)) :
    Dense.fillIn initial fresh = .ok ws := by
  induction ws generalizing fresh with
  | nil =>
      obtain rfl := List.map_eq_nil_iff.1 hnames
      rfl
  | cons w ws ih =>
      obtain ⟨v, rest, rfl, hv, hrest⟩ := List.map_eq_cons_iff.1 hnames
      have hvalue : (Datum.ofReal w.value).toReal = .ok w.value := rfl
      rw [Dense.fillIn, hv, hvalues w List.mem_cons_self]
      simp only [hvalue, ih hrest fun u hu => hvalues u (List.mem_cons_of_mem w hu)]
      rfl

/-- Weights that are saved under the names of a place are what a dense layer
gets there. -/
theorem weightsAt_namedValues {d : Dense} {fresh : Random.Stream} {ws : List Weight} (hseed : d.seed = none)
    (hinitial : d.initial = namedValues ws)
    (hnames : ws.map Weight.name = namesAt index d.outputs inputs) :
    d.weightsAt fresh index inputs = .ok ws := by
  have hdistinct : (ws.map Weight.name).Nodup := hnames ▸ nodup_namesAt ..
  have hfresh : (d.freshWeights fresh index inputs).map Weight.name = ws.map Weight.name := by
    rw [names_freshWeights, hnames]
  have hknown : ((d.initial.map Prod.fst).filter fun name =>
      !((d.freshWeights fresh index inputs).map Weight.name).contains name) = [] := by
    rw [hfresh, hinitial, names_namedValues, List.filter_eq_nil_iff]
    intro name hname
    simpa using hname
  unfold Dense.weightsAt
  simp only [hseed, Option.any_none, Bool.false_eq_true, if_false, hknown]
  rw [hinitial]
  exact fillIn_eq hfresh fun w hw => lookup_namedValues hdistinct hw

/-! ### Layers -/

/-- Every entry of a map layer is a text. -/
def LayerKind.Textual : LayerKind → Prop
  | .dense _ => True
  | .map entries => ∀ m ∈ entries, ∃ s, m = .text s

/-- The kind of a layer that is read back, with weights to begin with. -/
def LayerKind.reopened (ws : List Weight) : LayerKind → LayerKind
  | .dense d => .dense { d with seed := none, initial := namedValues ws }
  | .map entries => .map entries

/-- A layer that has been read back and placed again. -/
def Layer.restored (l : Layer) : Layer := { l with kind := l.kind.reopened l.weights }

theorem outputs_restored (l : Layer) : l.restored.outputs = l.outputs := by
  obtain ⟨kind, placement, ws⟩ := l
  cases kind <;> rfl

theorem alike_restored (l : Layer) : l.Alike l.restored := by
  obtain ⟨kind, placement, ws⟩ := l
  cases kind with
  | dense d => exact ⟨.dense rfl rfl, rfl, rfl⟩
  | map entries => exact ⟨.map entries, rfl, rfl⟩

/-- At its place, a layer that is read back gets the weights it was saved with. -/
theorem places_reopened (h : l.Seated index inputs) (hinputs : 0 < inputs)
    (fresh : Random.Stream) :
    (Layer.loose (l.kind.reopened l.weights)).Places fresh index inputs l.restored := by
  obtain ⟨kind, placement, ws⟩ := l
  obtain ⟨hplacement, hnames, -⟩ := h
  obtain rfl : placement = some ⟨index, inputs⟩ := hplacement
  cases kind with
  | dense d => exact .dense rfl rfl hinputs (weightsAt_namedValues rfl rfl hnames)
  | map entries =>
      obtain rfl : ws = [] := List.map_eq_nil_iff.1 hnames
      exact .map rfl rfl

theorem countOf_ofNat {n : Nat} (hn : 0 < n) (f : Failure) : countOf (.ofNat n) f = .ok n := by
  have hone : ¬ (n : Int) < 1 := by omega
  simp [countOf, Datum.ofNat, hone]

theorem ofDense_saved {d : Dense} (hd : 0 < d.outputs) (ws : List Weight) :
    Layer.ofDense [("type", .text "Layer"), ("n_out", .ofNat d.outputs),
      ("activation", .text d.activation.name), ("initializer", .text d.initializer.name),
      ("weights", weightData ws)] =
      .ok (.loose (.dense { d with seed := none, initial := namedValues ws })) := by
  have hinitializer : Initializer.ofName? d.initializer.name = some d.initializer := by
    cases d.initializer <;> rfl
  have hone : ¬ (d.outputs : Int) < 1 := by omega
  simp [Layer.ofDense, Datum.require, List.lookup_cons, countOf_ofNat hd, Datum.shown, hinitializer,
    nameOf, initialOf, weightData, Dense.make, hone, Bind.bind, Except.bind, Except.mapError, pure,
    Except.pure, namedValues]

theorem exists_texts {entries : List MapEntry} (h : (LayerKind.map entries).Textual) :
    ∃ ss : List String, entries = ss.map MapEntry.text := by
  induction entries with
  | nil => exact ⟨[], rfl⟩
  | cons m ms ih =>
      obtain ⟨s, rfl⟩ := h m List.mem_cons_self
      obtain ⟨ss, rfl⟩ := ih fun k hk => h k (List.mem_cons_of_mem _ hk)
      exact ⟨s :: ss, rfl⟩

theorem datum_texts (ss : List String) (placement : Option Placement) (ws : List Weight) :
    Layer.datum ⟨.map (ss.map MapEntry.text), placement, ws⟩ =
      .ok (.object [("type", .text "MapLayer"), ("fmap", .list (ss.map Datum.text))]) := by
  have htexts : (ss.map MapEntry.text).mapM MapEntry.datum = .ok (ss.map Datum.text) :=
    mapM_map_eq_ok fun _ _ => rfl
  rw [Layer.datum]
  simp only [htexts]
  rfl

/-- A layer is written as data from which it can be read back. -/
theorem exists_datum (hpos : 0 < l.outputs) (htext : l.kind.Textual) :
    ∃ d, l.datum = .ok d ∧ Layer.ofDatum d = .ok (.loose (l.kind.reopened l.weights)) := by
  obtain ⟨kind, placement, ws⟩ := l
  cases kind with
  | dense d =>
      refine ⟨_, rfl, ?_⟩
      simp only [Layer.ofDatum, Datum.members, Except.mapError, Bind.bind, Except.bind,
        List.lookup_cons, beq_self_eq_true, Option.getD_some, nameOf, Datum.shown]
      exact ofDense_saved hpos ws
  | map entries =>
      obtain ⟨ss, rfl⟩ := exists_texts htext
      have hne : ss ≠ [] := by
        rintro rfl
        exact Nat.lt_irrefl 0 hpos
      refine ⟨_, datum_texts ss placement ws, ?_⟩
      have hentries : (ss.map Datum.text).map MapEntry.ofDatum = ss.map MapEntry.text := by
        rw [List.map_map]
        rfl
      simp [Layer.ofDatum, Datum.members, Except.mapError, Bind.bind, Except.bind, List.lookup_cons,
        nameOf, Datum.shown, Layer.ofMapDatum, Datum.require, Datum.isTrue, hne, itemsOf, hentries,
        Layer.ofMap, LayerKind.reopened]

/-! ### Stacks -/

/-- The data of a stack, and the layers read back from them. -/
theorem exists_data (h : Stacked index inputs ls) (htext : ∀ l ∈ ls, l.kind.Textual) :
    ∃ ds, ls.mapM Layer.datum = .ok ds ∧
      ds.mapM Layer.ofDatum = .ok (ls.map fun l => .loose (l.kind.reopened l.weights)) := by
  induction ls generalizing index inputs with
  | nil => exact ⟨[], rfl, rfl⟩
  | cons l ls ih =>
      obtain ⟨d, hd, hread⟩ := exists_datum h.1.outputs (htext l List.mem_cons_self)
      obtain ⟨ds, hds, hreads⟩ := ih h.2 fun k hk => htext k (List.mem_cons_of_mem l hk)
      refine ⟨d :: ds, ?_, ?_⟩
      · simp [List.mapM_cons, hd, hds, Bind.bind, Except.bind, pure, Except.pure]
      · simp [List.mapM_cons, hread, hreads, Bind.bind, Except.bind, pure, Except.pure]

/-- Layers that are read back take the places they were saved from. -/
theorem addAll_reopened (h : Stacked net.layers.length net.outputs ls) (houtputs : 0 < net.outputs)
    (hcache : net.cache = .empty) (fresh : Nat → Random.Stream) :
    net.addAll fresh (ls.map fun l => .loose (l.kind.reopened l.weights)) =
      .ok { net with layers := net.layers ++ ls.map Layer.restored } := by
  induction ls generalizing net with
  | nil => simp [addAll]
  | cons l ls ih =>
      have hadd : net.add (.loose (l.kind.reopened l.weights)) (fresh net.layers.length) =
          (.ok (), { net with layers := net.layers ++ [l.restored] }, l.restored) := by
        rw [add_of_places (places_reopened h.1 houtputs _), ← hcache]
      rw [List.map_cons, addAll, hadd]
      dsimp only
      have hnext : ({ net with layers := net.layers ++ [l.restored] } : Network).outputs = l.outputs := by
        rw [outputs_eq, outputsOf, List.getLast?_concat]
        exact outputs_restored l
      rw [@ih { net with layers := net.layers ++ [l.restored] }
        (by rw [hnext, List.length_append]; exact h.2) (hnext ▸ h.1.outputs) hcache]
      simp

/-! ### Networks -/

/-- The network that is read back. -/
def restored (net : Network) : Network :=
  { net with layers := net.layers.map Layer.restored, cache := .empty }

theorem alike_restored_network (net : Network) : net.Alike net.restored :=
  ⟨rfl, rfl, forall₂_alike_map alike_restored net.layers⟩

theorem weights_restored (net : Network) : net.restored.weights = net.weights := by
  rw [weights, weights, restored, List.flatMap_map]
  rfl

theorem datum_restored (net : Network) : net.restored.datum = net.datum := by
  have hlayer : ∀ l : Layer, l.restored.datum = l.datum := by
    rintro ⟨kind, placement, ws⟩
    cases kind <;> rfl
  have hlayers : (net.layers.map Layer.restored).mapM Layer.datum = net.layers.mapM Layer.datum := by
    rw [List.mapM_map]
    simp only [Function.comp_def, hlayer]
  simp only [datum, restored, hlayers, typeName]
  rfl

theorem exists_datum_network [Memo.Stack] [Engine] (h : net.Kept true inputs) (hinputs : 0 < inputs)
    (htext : ∀ l ∈ net.layers, l.kind.Textual) :
    ∃ d, net.datum = .ok d ∧ ∀ fresh, ofDatum fresh d = .ok net.restored := by
  obtain ⟨ds, hds, hread⟩ := exists_data h.stacked htext
  obtain ⟨sequential, count, layers, cache⟩ := net
  obtain rfl : sequential = true := h.sequential_eq
  obtain rfl : count = inputs := h.inputs_eq
  have hone : ¬ (count : Int) < 1 := by omega
  have hempty : empty true (count : Int) = .ok ⟨true, count, [], .empty⟩ := by simp [empty, hone]
  have hadd := @addAll_reopened layers ⟨true, count, [], .empty⟩ h.stacked hinputs rfl
  refine ⟨.object [("type", .text "Sequential"), ("n_in", .ofNat count), ("layers", .list ds)], ?_, ?_⟩
  · simp only [datum, typeName, hds, Bind.bind, Except.bind, pure, Except.pure, if_true]
  · simp [ofDatum, Datum.members, Except.mapError, List.lookup_cons, nameOf, Datum.shown,
      itemsOf, hread, Datum.require, countOf_ofNat hinputs, hempty, hadd, restored, Bind.bind,
      Except.bind]

/-! ### Documents -/

/-- The numbers that are written for a layer. -/
def Layer.numbers (l : Layer) : List Number :=
  match l.kind with
  | .dense d => .int d.outputs :: l.weights.map fun w => .real w.value
  | .map _ => []

def numbers (net : Network) : List Number := .int net.inputs :: net.layers.flatMap Layer.numbers

theorem soundMembers_namedValues {ws : List Weight}
    (h : ∀ n ∈ ws.map fun w => Number.real w.value, Datum.Legible n) :
    Datum.SoundMembers (namedValues ws) := by
  induction ws with
  | nil => trivial
  | cons w ws ih =>
      rw [List.map_cons, List.forall_mem_cons] at h
      exact ⟨h.1, ih h.2⟩

theorem soundItems_texts (ss : List String) : Datum.SoundItems (ss.map Datum.text) := by
  induction ss with
  | nil => trivial
  | cons s ss ih => exact ⟨trivial, ih⟩

theorem sound_of_datum {d : Datum} (h : l.Seated index inputs) (htext : l.kind.Textual)
    (hnumbers : ∀ n ∈ l.numbers, Datum.Legible n) (hd : l.datum = .ok d) : d.Sound := by
  have hdistinct : (l.weights.map Weight.name).Nodup := by
    rw [h.names, Layer.namesAt]
    split
    · exact nodup_namesAt ..
    · exact List.nodup_nil
  obtain ⟨kind, placement, ws⟩ := l
  cases kind with
  | dense e =>
      obtain rfl := Except.ok.inj hd
      rw [Layer.numbers, List.forall_mem_cons] at hnumbers
      refine ⟨by simp, trivial, hnumbers.1, trivial, trivial, ⟨?_, ?_⟩, trivial⟩
      · exact (names_namedValues ws).symm ▸ hdistinct
      · exact soundMembers_namedValues hnumbers.2
  | map entries =>
      obtain ⟨ss, rfl⟩ := exists_texts htext
      obtain rfl := Except.ok.inj ((datum_texts ss placement ws).symm.trans hd)
      exact ⟨by simp, trivial, soundItems_texts ss, trivial⟩

theorem soundItems_of_data {ds : List Datum} (h : Stacked index inputs ls)
    (htext : ∀ l ∈ ls, l.kind.Textual) (hnumbers : ∀ n ∈ ls.flatMap Layer.numbers, Datum.Legible n)
    (hds : ls.mapM Layer.datum = .ok ds) : Datum.SoundItems ds := by
  induction ls generalizing index inputs ds with
  | nil =>
      obtain rfl := Except.ok.inj hds
      trivial
  | cons l ls ih =>
      rw [List.flatMap_cons, List.forall_mem_append] at hnumbers
      rw [List.forall_mem_cons] at htext
      cases hd : l.datum with
      | error f => simp [List.mapM_cons, hd, Bind.bind, Except.bind] at hds
      | ok d =>
          cases hrest : ls.mapM Layer.datum with
          | error f => simp [List.mapM_cons, hd, hrest, Bind.bind, Except.bind] at hds
          | ok rest =>
              obtain rfl : d :: rest = ds := by
                simpa [List.mapM_cons, hd, hrest, Bind.bind, Except.bind, pure, Except.pure] using hds
              exact ⟨sound_of_datum h.1 htext.1 hnumbers.1 hd, ih h.2 htext.2 hnumbers.2 hrest⟩

theorem sound_of_datum_network [Memo.Stack] [Engine] {d : Datum} (h : net.Kept true inputs)
    (htext : ∀ l ∈ net.layers, l.kind.Textual) (hnumbers : ∀ n ∈ net.numbers, Datum.Legible n)
    (hd : net.datum = .ok d) : d.Sound := by
  rw [numbers, List.forall_mem_cons] at hnumbers
  unfold datum at hd
  cases hds : net.layers.mapM Layer.datum with
  | error f => simp [hds, Bind.bind, Except.bind] at hd
  | ok ds =>
      simp only [hds, Bind.bind, Except.bind, pure, Except.pure] at hd
      obtain rfl := Except.ok.inj hd
      exact ⟨by simp, trivial, hnumbers.1, soundItems_of_data h.stacked htext hnumbers.2 hds,
        trivial⟩

theorem ofText_write {d : Datum} (h : d.Sound) (fresh : Nat → Random.Stream) :
    ofText fresh (Datum.write d) = ofDatum fresh d := by
  rw [ofText, Datum.read_write h]
  rfl

/-! ### Histories of layers given as texts -/

/-- A layer that is added has only texts as maps. -/
def Call.Textual : Call → Prop
  | .add l _ => l.kind.Textual
  | _ => True

theorem textual_after [Memo.Stack] [Engine] (h : net.Kept true inputs)
    (htext : ∀ l ∈ net.layers, l.kind.Textual) {calls : List Call} (hcalls : ∀ c ∈ calls, c.Offers ∧ c.Textual) :
    ∀ l ∈ (net.after calls).layers, l.kind.Textual := by
  induction calls generalizing net with
  | nil => exact htext
  | cons c calls ih =>
      obtain ⟨hoffers, hc⟩ := hcalls c List.mem_cons_self
      exact ih (kept_perform h hoffers) (forall_kind_perform h htext hoffers hc)
        fun c' hc' => hcalls c' (List.mem_cons_of_mem c hc')

/-! ### What is the same after restoring -/

def Layer.activation? (l : Layer) : Option Activation :=
  match l.kind with
  | .dense d => some d.activation
  | .map _ => none

theorem predictWith_congr {net' : Network} (halike : net.Alike net') (hweights : net'.weights = net.weights)
    (forward : Except Failure Memo.Evaluator) (inputs : List Value) :
    net'.predictWith forward inputs = net.predictWith forward inputs := by
  simp only [predictWith, scopeAt, weightValues, weightNames, inputNames, targetNames, hweights,
    ← halike.inputs, ← halike.outputs]

section

variable [Memo.Stack] [Engine]

/-- A network has been put together again from its data. -/
structure Restores (net net' : Network) : Prop where
  typeName : net'.typeName = net.typeName
  inputs : net'.inputs = net.inputs
  types : net'.layers.map Layer.typeName = net.layers.map Layer.typeName
  places : net'.layers.map Layer.placement = net.layers.map Layer.placement
  outputs : net'.layers.map Layer.outputs = net.layers.map Layer.outputs
  activations : net'.layers.map Layer.activation? = net.layers.map Layer.activation?
  /-- Names and values, in the same order. -/
  weights : net'.weights = net.weights
  datum : net'.datum = net.datum
  prediction : net'.prediction.1 = net.prediction.1
  loss : net'.loss.1 = net.loss.1
  gradients : net'.gradients.1 = net.gradients.1
  predict : ∀ inputs, (net'.predict inputs).1 = (net.predict inputs).1

theorem predict_eq (h : net.Faithful) (inputs : List Value) :
    (net.predict inputs).1 = net.predictWith net.forwardAnew inputs := by
  rw [← (derives_forward h).result]
  rfl

theorem restores_restored (h : net.Faithful) : net.Restores net.restored := by
  have halike := alike_restored_network net
  have hfaithful : net.restored.Faithful := faithful_of_empty rfl
  have hlayers {α : Type} {f : Layer → α} (hf : ∀ l : Layer, f l.restored = f l) :
      net.restored.layers.map f = net.layers.map f := by
    simp only [restored, List.map_map, Function.comp_def, hf]
  refine ⟨rfl, rfl, hlayers ?_, hlayers fun _ => rfl, hlayers outputs_restored, hlayers ?_,
    weights_restored net, datum_restored net, ?_, ?_, ?_, fun inputs => ?_⟩
  · rintro ⟨_ | _, _, _⟩ <;> rfl
  · rintro ⟨_ | _, _, _⟩ <;> rfl
  · rw [(derives_prediction hfaithful).result, (derives_prediction h).result, halike.predictionAnew]
  · rw [(derives_loss hfaithful).result, (derives_loss h).result, halike.lossAnew]
  · rw [(derives_gradients hfaithful).result, (derives_gradients h).result, halike.gradientsAnew]
  · rw [predict_eq hfaithful, predict_eq h, ← halike.forwardAnew,
      predictWith_congr halike (weights_restored net)]

/-- A network of dense layers and of maps given as texts is restored from its
data, and from their text if the text of each of its numbers is read as that
number. Nothing is drawn for it. -/
theorem restores_after {count : Int} (hempty : empty true count = .ok net₀) (calls : List Call)
    (hcalls : ∀ c ∈ calls, c.Offers ∧ c.Textual) :
    ∃ d net', (net₀.after calls).datum = .ok d ∧ (∀ fresh, ofDatum fresh d = .ok net') ∧
      ((∀ n ∈ (net₀.after calls).numbers, Datum.Legible n) →
        ∀ fresh, ofText fresh (Datum.write d) = .ok net') ∧
      (net₀.after calls).Restores net' := by
  obtain ⟨hcount, rfl⟩ := empty_eq_ok_iff.1 hempty
  have hstart := kept_of_empty hempty
  have htext := textual_after hstart (by simp) hcalls
  have hkept := kept_after hstart fun c hc => (hcalls c hc).1
  obtain ⟨d, hd, hread⟩ := exists_datum_network hkept (by omega) htext
  refine ⟨d, _, hd, hread, fun hnumbers fresh => ?_, restores_restored hkept.faithful⟩
  rw [ofText_write (sound_of_datum_network hkept htext hnumbers hd), hread]

end

/-- A dense layer under a sum, with one weight set before and one after. -/
def savedCalls : List Call :=
  [.add (.loose (.dense ⟨2, .tanh, .identity, some 7, [("w0r1c0", .number (.int 1))]⟩)) default,
    .add (.loose (.map [.text "x0 + x1"])) default, .setWeights [("w0b1", .text "0.5")]]

theorem restores_after_savedCalls :
    (∀ c ∈ savedCalls, c.Offers ∧ c.Textual) ∧
      (∀ n ∈ (Network.after ⟨true, 1, [], .empty⟩ savedCalls).numbers, Datum.Legible n) ∧
      ∃ d net', (∀ fresh, ofText fresh (Datum.write d) = .ok net') ∧
        (Network.after ⟨true, 1, [], .empty⟩ savedCalls).Restores net' := by
  have hcalls : ∀ c ∈ savedCalls, c.Offers ∧ c.Textual := by
    simp only [savedCalls, List.forall_mem_cons, List.not_mem_nil, false_implies, implies_true,
      and_true]
    have hdense : Dense.make 2 "tanh" "identity" (some 7) [("w0r1c0", .number (.int 1))] =
        .ok ⟨2, .tanh, .identity, some 7, [("w0r1c0", .number (.int 1))]⟩ := rfl
    have hmap : Layer.ofMap [.text "x0 + x1"] = .ok (.loose (.map [.text "x0 + x1"])) := rfl
    refine ⟨⟨.inr (.dense hdense), trivial⟩, ⟨.inr (.map hmap), ?_⟩, trivial, trivial⟩
    exact fun m hm => ⟨"x0 + x1", List.mem_singleton.1 hm⟩
  have hnumbers : (Network.after ⟨true, 1, [], .empty⟩ savedCalls).numbers =
      [.int 1, .int 2, .real .one, .real .one, .real .zero, .real .half] := by
    decide +kernel
  have hlegible : ∀ n ∈ (Network.after ⟨true, 1, [], .empty⟩ savedCalls).numbers,
      Datum.Legible n := by
    have hone : (Datum.numberText (.real .one)).toList = ['1', '.', '0'] := by decide +kernel
    have hhalf : (Datum.numberText (.real .half)).toList = ['0', '.', '5'] := by decide +kernel
    have hone := Datum.legible_of_readNumber? hone (by decide) rfl (by decide +kernel)
    have hhalf := Datum.legible_of_readNumber? hhalf (by decide) rfl (by decide +kernel)
    simp only [hnumbers, List.forall_mem_cons, List.not_mem_nil, false_implies, implies_true,
      and_true]
    exact ⟨rfl, rfl, hone, hone, rfl, hhalf⟩
  obtain ⟨d, net', -, -, htext, hrestores⟩ :=
    restores_after (show empty true 1 = .ok ⟨true, 1, [], .empty⟩ from rfl) savedCalls hcalls
  exact ⟨hcalls, hlegible, d, net', htext hlegible, hrestores⟩

end Gantry.Network
