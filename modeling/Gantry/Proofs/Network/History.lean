import Gantry.Proofs.Network.Likeness

/-!
Networks over time. Layers are added, weights are set, and expressions are
derived, in any order, and any of these may fail. Through all of it the layers
stay a stack, and what a network remembers is what it would derive anew.
-/

namespace Gantry.Network

open Gantry.Algebra

variable {net net' : Network} {l : Layer}

/-! ### Calls -/

/-- What can be asked of a network. -/
inductive Call where
  /-- A layer is added, with a stream in case that it has no seed. -/
  | add (l : Layer) (fresh : Random.Stream)
  | setWeights (values : List (String × Datum))
  | prediction
  | loss
  | gradients
  | forward
  | training

/-- The network after a call. -/
def perform [Memo.Stack] [Engine] (net : Network) : Call → Network
  | .add l fresh => (net.add l fresh).2.1
  | .setWeights values => (net.setWeights values).2
  | .prediction => net.prediction.2
  | .loss => net.loss.2
  | .gradients => net.gradients.2
  | .forward => net.forward.2
  | .training => net.training.2

/-- The network after a history of calls. -/
def after [Memo.Stack] [Engine] (net : Network) : List Call → Network
  | [] => net
  | c :: calls => (net.perform c).after calls

/-- A layer is placed and added, or neither it nor the network changes. -/
theorem add_cases (net : Network) (l : Layer) (fresh : Random.Stream) :
    (∃ f, net.add l fresh = (.error f, net, l)) ∨
      ∃ placed, l.Places fresh net.layers.length net.outputs placed ∧ net.add l fresh =
        (.ok (), { net with layers := net.layers ++ [placed], cache := .empty }, placed) := by
  unfold add
  obtain ⟨f, hconnect⟩ | ⟨placed, hconnect, hplaces⟩ :=
    connect_cases l fresh net.layers.length net.outputs
  · exact .inl ⟨f, by rw [hconnect]⟩
  · exact .inr ⟨placed, hplaces, by rw [hconnect]⟩

theorem add_of_places {placed : Layer} {fresh : Random.Stream}
    (h : l.Places fresh net.layers.length net.outputs placed) : net.add l fresh =
      (.ok (), { net with layers := net.layers ++ [placed], cache := .empty }, placed) := by
  rw [add, connect_of_places h]

/-- A dense layer without a seed and without initial values can always be added. -/
theorem exists_layers_add [Memo.Stack] [Engine] {d : Dense} (hpos : 0 < net.outputs)
    (hseed : d.seed = none) (hinitial : d.initial = []) (fresh : Random.Stream) :
    ∃ placed, (net.perform (.add (.loose (.dense d)) fresh)).layers = net.layers ++ [placed] ∧
      placed.kind = .dense d := by
  have hweights : d.weightsAt fresh net.layers.length net.outputs =
      .ok (d.freshWeights fresh net.layers.length net.outputs) := by
    simp [Dense.weightsAt, hseed, hinitial, fillIn_nil]
  have hplaces := Layer.Places.dense (l := .loose (.dense d)) rfl rfl hpos hweights
  exact ⟨_, by rw [perform, add_of_places hplaces], rfl⟩

theorem empty_eq_ok_iff {sequential : Bool} {count : Int} :
    empty sequential count = .ok net ↔
      1 ≤ count ∧ net = ⟨sequential, count.toNat, [], .empty⟩ := by
  unfold empty
  split
  · simp [Int.not_le.2 ‹_›]
  · simp [Int.not_lt.1 ‹_›, eq_comm]

/-! ### Setting weights -/

theorem exists_mapWeights_of_storeWeights (net : Network) (values : List (String × Datum)) :
    ∃ f : Weight → Weight, (∀ w, (f w).name = w.name) ∧
      (net.storeWeights values).2 = net.mapWeights f := by
  induction values generalizing net with
  | nil =>
      exact ⟨id, fun _ => rfl, by simp [storeWeights, mapWeights]⟩
  | cons p rest ih =>
      obtain ⟨name, d⟩ := p
      unfold storeWeights
      cases d.toReal with
      | error f => exact ⟨id, fun _ => rfl, by simp [mapWeights]⟩
      | ok x =>
          obtain ⟨f, hf, hrest⟩ := ih (net.setWeight name x)
          have hfirst : net.setWeight name x =
              net.mapWeights fun w => if w.name = name then { w with value := x } else w := rfl
          refine ⟨f ∘ fun w => if w.name = name then { w with value := x } else w, fun w => ?_, ?_⟩
          · rw [Function.comp_apply, hf]
            split <;> rfl
          · rw [hrest, hfirst, mapWeights_mapWeights]

/-- Setting weights changes values only, however far it comes. -/
theorem exists_mapWeights_of_setWeights (net : Network) (values : List (String × Datum)) :
    ∃ f : Weight → Weight, (∀ w, (f w).name = w.name) ∧
      (net.setWeights values).2 = net.mapWeights f := by
  unfold setWeights
  split
  · exact exists_mapWeights_of_storeWeights net values
  · exact ⟨id, fun _ => rfl, by simp [mapWeights]⟩

/-! ### What a network remembers -/

variable [Memo.Stack] [Engine]

/-- Whatever a network remembers, it would derive anew. -/
structure Faithful (net : Network) : Prop where
  prediction : ∀ es, net.cache.prediction = some es → net.predictionAnew = .ok es
  loss : ∀ e, net.cache.loss = some e → net.lossAnew = .ok e
  gradients : ∀ gs, net.cache.gradients = some gs → net.gradientsAnew = .ok gs
  forward : ∀ ev, net.cache.forward = some ev → net.forwardAnew = .ok ev

theorem faithful_of_empty (h : net.cache = .empty) : net.Faithful := by
  constructor <;> simp [h, Cache.empty]

theorem Faithful.congr (h : net.Faithful) (halike : net.Alike net') (hcache : net'.cache = net.cache) :
    net'.Faithful where
  prediction es hes := halike.predictionAnew ▸ h.prediction es (hcache ▸ hes)
  loss e he := halike.lossAnew ▸ h.loss e (hcache ▸ he)
  gradients gs hgs := halike.gradientsAnew ▸ h.gradients gs (hcache ▸ hgs)
  forward ev hev := halike.forwardAnew ▸ h.forward ev (hcache ▸ hev)

/-- A derivation that gives what the network would derive anew, and remembers
no more than that. -/
structure Derives {α : Type} (net : Network) (result : Except Failure α) (d : Derived α) : Prop where
  result : d.1 = result
  layers : ∃ cache, d.2 = { net with cache }
  faithful : d.2.Faithful

section

variable (h : net.Faithful)

include h

theorem derives_prediction : net.Derives net.predictionAnew net.prediction := by
  unfold prediction
  split
  · rename_i es hes
    exact ⟨(h.prediction es hes).symm, ⟨net.cache, rfl⟩, h⟩
  · split
    · rename_i f hf
      exact ⟨hf.symm, ⟨net.cache, rfl⟩, h⟩
    · rename_i es hes
      exact ⟨hes.symm, ⟨_, rfl⟩, ⟨fun _ heq => Option.some.inj heq ▸ hes, h.loss, h.gradients,
        h.forward⟩⟩

theorem derives_loss : net.Derives net.lossAnew net.loss := by
  obtain ⟨hresult, ⟨cache, hnet⟩, hfaithful⟩ := derives_prediction h
  unfold loss
  split
  · rename_i e he
    exact ⟨(h.loss e he).symm, ⟨net.cache, rfl⟩, h⟩
  · cases hprediction : net.prediction with
    | mk result after =>
        rw [hprediction] at hresult hnet hfaithful
        obtain rfl : after = { net with cache } := hnet
        have hloss : net.lossAnew = result.map fun es => meanSquare es net.targetSymbols := by
          rw [lossAnew, ← hresult]
        cases result with
        | error f => exact ⟨hloss.symm, ⟨cache, rfl⟩, hfaithful⟩
        | ok es =>
            exact ⟨hloss.symm, ⟨_, rfl⟩, ⟨hfaithful.prediction,
              fun _ heq => Option.some.inj heq ▸ hloss, hfaithful.gradients, hfaithful.forward⟩⟩

theorem derives_gradients : net.Derives net.gradientsAnew net.gradients := by
  obtain ⟨hresult, ⟨cache, hnet⟩, hfaithful⟩ := derives_loss h
  unfold gradients
  split
  · rename_i gs hgs
    exact ⟨(h.gradients gs hgs).symm, ⟨net.cache, rfl⟩, h⟩
  · cases hloss : net.loss with
    | mk result after =>
        rw [hloss] at hresult hnet hfaithful
        obtain rfl : after = { net with cache } := hnet
        have hgradients : net.gradientsAnew =
            result.map fun e => net.weightNames.map fun name => (name, Engine.gradient name e) := by
          rw [gradientsAnew, ← hresult]
        cases result with
        | error f => exact ⟨hgradients.symm, ⟨cache, rfl⟩, hfaithful⟩
        | ok e =>
            exact ⟨hgradients.symm, ⟨_, rfl⟩, ⟨hfaithful.prediction, hfaithful.loss,
              fun _ heq => Option.some.inj heq ▸ hgradients, hfaithful.forward⟩⟩

theorem derives_forward : net.Derives net.forwardAnew net.forward := by
  obtain ⟨hresult, ⟨cache, hnet⟩, hfaithful⟩ := derives_prediction h
  unfold forward
  split
  · rename_i ev hev
    exact ⟨(h.forward ev hev).symm, ⟨net.cache, rfl⟩, h⟩
  · cases hprediction : net.prediction with
    | mk result after =>
        rw [hprediction] at hresult hnet hfaithful
        obtain rfl : after = { net with cache } := hnet
        have hforward : net.forwardAnew = result.bind fun es => compileTexts (es.map Expr.text) := by
          rw [forwardAnew, ← hresult]
          rfl
        cases result with
        | error f => exact ⟨hforward.symm, ⟨cache, rfl⟩, hfaithful⟩
        | ok es =>
            dsimp only [Except.bind] at hforward ⊢
            cases hcompile : compileTexts (es.map Expr.text) with
            | error f => exact ⟨(hforward.trans hcompile).symm, ⟨cache, rfl⟩, hfaithful⟩
            | ok ev =>
                have hev := hforward.trans hcompile
                exact ⟨hev.symm, ⟨_, rfl⟩, ⟨hfaithful.prediction, hfaithful.loss,
                  hfaithful.gradients, fun _ heq => Option.some.inj heq ▸ hev⟩⟩

theorem derives_trainingTexts : net.Derives net.trainingTextsAnew net.trainingTexts := by
  obtain ⟨hresult, ⟨cache, hnet⟩, hfaithful⟩ := derives_gradients h
  unfold trainingTexts
  cases hgradients : net.gradients with
  | mk result after =>
      rw [hgradients] at hresult hnet hfaithful
      obtain rfl : after = { net with cache } := hnet
      cases result with
      | error f => exact ⟨by rw [trainingTextsAnew, ← hresult]; rfl, ⟨cache, rfl⟩, hfaithful⟩
      | ok gs =>
          -- The loss is asked of the network that deriving the gradients has left.
          obtain ⟨hresult', ⟨cache', hnet'⟩, hfaithful'⟩ := derives_loss hfaithful
          have htexts : net.trainingTextsAnew =
              net.lossAnew.map fun e => e.text :: gs.map fun g => g.2.text := by
            rw [trainingTextsAnew, ← hresult]
            rfl
          dsimp only
          cases hloss : Network.loss { net with cache } with
          | mk result' after' =>
              rw [hloss] at hresult' hnet' hfaithful'
              obtain rfl : after' = { net with cache := cache' } := hnet'
              have hanew : net.lossAnew = result' := hresult'.symm
              cases result' <;> exact ⟨by rw [htexts, hanew]; rfl, ⟨cache', rfl⟩, hfaithful'⟩

theorem derives_training : net.Derives net.trainingAnew net.training := by
  obtain ⟨hresult, ⟨cache, hnet⟩, hfaithful⟩ := derives_trainingTexts h
  unfold training
  cases htexts : net.trainingTexts with
  | mk result after =>
      rw [htexts] at hresult hnet hfaithful
      obtain rfl : after = { net with cache } := hnet
      cases result <;> exact ⟨by rw [trainingAnew, ← hresult]; rfl, ⟨cache, rfl⟩, hfaithful⟩

end

/-! ### Histories -/

/-- What a network keeps through its history. -/
structure Kept (sequential : Bool) (inputs : Nat) (net : Network) : Prop where
  sequential_eq : net.sequential = sequential
  inputs_eq : net.inputs = inputs
  stacked : Stacked 0 inputs net.layers
  faithful : net.Faithful

variable {sequential : Bool} {inputs : Nat} {P : LayerKind → Prop}

/-- Whatever is added has been offered. -/
def Call.Offers : Call → Prop
  | .add l _ => l.Offered
  | _ => True

theorem kept_of_empty {count : Int} (h : empty sequential count = .ok net) :
    net.Kept sequential count.toNat := by
  obtain ⟨-, rfl⟩ := empty_eq_ok_iff.1 h
  exact ⟨rfl, rfl, trivial, faithful_of_empty rfl⟩

/-- The outputs of a network are what its inputs become in its layers. -/
theorem Kept.predictionAnew_eq (h : net.Kept true inputs) :
    net.predictionAnew = through net.layers net.inputSymbols := by
  simp [predictionAnew, expressions, h.sequential_eq, inputSymbols, inputNames]

theorem Derives.kept {α : Type} {result : Except Failure α} {d : Derived α}
    (hd : net.Derives result d) (h : net.Kept sequential inputs) : d.2.Kept sequential inputs := by
  obtain ⟨-, ⟨cache, hnet⟩, hfaithful⟩ := hd
  rw [hnet] at hfaithful ⊢
  exact ⟨h.sequential_eq, h.inputs_eq, h.stacked, hfaithful⟩

theorem kept_perform (h : net.Kept sequential inputs) {c : Call} (hc : c.Offers) :
    (net.perform c).Kept sequential inputs := by
  cases c with
  | add l fresh =>
      obtain ⟨f, hadd⟩ | ⟨placed, hplaces, hadd⟩ := add_cases net l fresh
      · rw [perform, hadd]
        exact h
      · rw [perform, hadd]
        refine ⟨h.sequential_eq, h.inputs_eq, (stacked_concat ..).2 ⟨h.stacked, ?_⟩,
          faithful_of_empty rfl⟩
        rw [Nat.zero_add, ← h.inputs_eq]
        exact hplaces.seated hc
  | setWeights values =>
      obtain ⟨f, hf, hnet⟩ := exists_mapWeights_of_setWeights net values
      have halike := Alike.mapWeights net hf
      rw [perform, hnet]
      exact ⟨h.sequential_eq, h.inputs_eq, h.stacked.congr halike.layers,
        h.faithful.congr halike rfl⟩
  | prediction => exact (derives_prediction h.faithful).kept h
  | loss => exact (derives_loss h.faithful).kept h
  | gradients => exact (derives_gradients h.faithful).kept h
  | forward => exact (derives_forward h.faithful).kept h
  | training => exact (derives_training h.faithful).kept h

/-- The layers that a call adds are of some kind. -/
def Call.Adds (P : LayerKind → Prop) : Call → Prop
  | .add l _ => P l.kind
  | _ => True

/-- Layers stay of their kinds. -/
theorem forall_kind_perform (h : net.Kept sequential inputs) (hkinds : ∀ l ∈ net.layers, P l.kind)
    {c : Call} (hoffers : c.Offers) (hc : c.Adds P) : ∀ l ∈ (net.perform c).layers, P l.kind := by
  have hderived {α : Type} {result : Except Failure α} {d : Derived α} (hd : net.Derives result d) :
      ∀ l ∈ d.2.layers, P l.kind := by
    obtain ⟨-, ⟨cache, hnet⟩, -⟩ := hd
    rw [hnet]
    exact hkinds
  cases c with
  | add l fresh =>
      obtain ⟨_, hadd⟩ | ⟨placed, hplaces, hadd⟩ := add_cases net l fresh
      · rw [perform, hadd]
        exact hkinds
      · rw [perform, hadd]
        intro k hk
        rcases List.mem_append.1 hk with hk | hk
        · exact hkinds k hk
        · obtain rfl := List.mem_singleton.1 hk
          exact hplaces.kind ▸ hc
  | setWeights values =>
      obtain ⟨f, -, hnet⟩ := exists_mapWeights_of_setWeights net values
      rw [perform, hnet]
      intro k hk
      obtain ⟨l, hl, rfl⟩ := List.mem_map.1 hk
      exact hkinds l hl
  | prediction => exact hderived (derives_prediction h.faithful)
  | loss => exact hderived (derives_loss h.faithful)
  | gradients => exact hderived (derives_gradients h.faithful)
  | forward => exact hderived (derives_forward h.faithful)
  | training => exact hderived (derives_training h.faithful)

theorem kept_after (h : net.Kept sequential inputs) {calls : List Call}
    (hcalls : ∀ c ∈ calls, c.Offers) : (net.after calls).Kept sequential inputs := by
  induction calls generalizing net with
  | nil => exact h
  | cons c calls ih =>
      exact ih (kept_perform h (hcalls c List.mem_cons_self))
        fun c' hc' => hcalls c' (List.mem_cons_of_mem c hc')

end Gantry.Network
