import Gantry.Proofs.Network.Restoration
import Gantry.Proofs.Training.Fitting

/-!
The life of a network. Layers are added, weights are set and trained, and
expressions are derived and evaluated, in any order, and any of this may fail.
At every point the network answers as one does that has just been built from
layers like its own: what it remembers is never out of date.
-/

namespace Gantry

namespace Training

open Network (overwrite name_overwrite)

variable {net : Network}

/-! ### What training leaves of a network -/

theorem network_ofRun (net : Network) (observer : Observer) (run : Run Binary64) :
    (Fit.ofRun net observer run).network = net.withValues run.weights := by
  unfold Fit.ofRun
  dsimp only
  split <;> rfl

variable [Memo.Stack] [Algebra.Engine]

/-- Compiling changes only what a network remembers, and keeps that right. -/
theorem exists_cache_of_compileTraining (h : net.Faithful) :
    ∃ cache, (compileTraining net).2 = { net with cache } ∧
      ({ net with cache } : Network).Faithful := by
  obtain ⟨-, ⟨cache, hnet⟩, hfaithful⟩ := Network.derives_training h
  unfold compileTraining
  split
  · rename_i f net' heq
    rw [heq] at hnet hfaithful
    exact ⟨cache, hnet, hnet ▸ hfaithful⟩
  · rename_i ev net' heq
    rw [heq] at hnet hfaithful
    obtain rfl : net' = { net with cache } := hnet
    obtain ⟨-, ⟨cache', hnet'⟩, hfaithful'⟩ := Network.derives_gradients hfaithful
    rw [hnet'] at hfaithful'
    refine ⟨cache', ?_, hfaithful'⟩
    split
    all_goals
      rename_i heq'
      rw [heq'] at hnet'
      exact hnet'

/-- Training changes the values of weights and what a network remembers, which
stays right, however training ends. -/
theorem exists_mapWeights_of_fit (h : net.Faithful) (hdistinct : net.weightNames.Nodup)
    (s : Settings) (examples : List (Example Binary64)) (observer : Observer) :
    ∃ cache, ({ net with cache } : Network).Faithful ∧
      ∃ f : Network.Weight → Network.Weight, (∀ w, (f w).name = w.name) ∧
        (fit net s examples observer).network =
          ({ net with cache } : Network).mapWeights f := by
  have hsame (net : Network) : net = net.mapWeights id := by simp [Network.mapWeights]
  unfold fit fitWith
  cases checked net s examples with
  | error f => exact ⟨net.cache, h, id, fun _ => rfl, hsame net⟩
  | ok options =>
      obtain ⟨cache, hnet, hfaithful⟩ := exists_cache_of_compileTraining h
      refine ⟨cache, hfaithful, ?_⟩
      cases hcompile : compileTraining net with
      | mk result net' =>
          rw [hcompile] at hnet
          obtain rfl : net' = { net with cache } := hnet
          cases result with
          | error f => exact ⟨id, fun _ => rfl, hsame _⟩
          | ok measure =>
              obtain ⟨gauge, names⟩ := measure
              have hfits := compiles_compileTraining.fits net gauge names (by rw [hcompile])
              dsimp only
              split
              · exact ⟨id, fun _ => rfl, hsame _⟩
              · rename_i horder
                obtain rfl : names = net.weightNames := not_not.1 horder
                rw [network_ofRun]
                refine ⟨_, name_overwrite _,
                  Network.withValues_eq_mapWeights_overwrite hdistinct ?_⟩
                refine length_weights_descend options.plan examples observer.interruptsAfter ?_
                  (Network.length_weightValues net)
                rwa [Network.weightNames, List.length_map] at hfits

end Training

namespace Network

open Gantry.Algebra

variable {net net₀ anew : Network} {sequential : Bool} {inputs : Nat} {P : LayerKind → Prop}

/-! ### Acts -/

/-- What can happen to a network. -/
inductive Act where
  | call (c : Call)
  | predict (inputs : List Value)
  | calibrate (s : Training.Settings) (examples : List (Training.Example Binary64))
      (observer : Training.Observer)

/-- The network after an act, whether or not that fails. -/
def act [Memo.Stack] [Engine] (net : Network) : Act → Network
  | .call c => net.perform c
  | .predict inputs => (net.predict inputs).2
  | .calibrate s examples observer => (Training.fit net s examples observer).network

def actAll [Memo.Stack] [Engine] (net : Network) (acts : List Act) : Network := acts.foldl act net

def Act.Offers : Act → Prop
  | .call c => c.Offers
  | _ => True

/-- The layers that an act adds are of some kind. -/
def Act.Adds (P : LayerKind → Prop) : Act → Prop
  | .call c => c.Adds P
  | _ => True

section

variable [Memo.Stack] [Engine]

theorem kept_act (h : net.Kept sequential inputs) {a : Act} (ha : a.Offers) :
    (net.act a).Kept sequential inputs := by
  cases a with
  | call c => exact kept_perform h ha
  | predict values => exact (derives_forward h.faithful).kept h
  | calibrate s examples observer =>
      have hdistinct : net.weightNames.Nodup := weightNames_eq net ▸ h.stacked.nodup
      obtain ⟨cache, hfaithful, f, hf, hnet⟩ :=
        Training.exists_mapWeights_of_fit h.faithful hdistinct s examples observer
      have halike := Alike.mapWeights { net with cache } hf
      rw [act, hnet]
      exact ⟨h.sequential_eq, h.inputs_eq, h.stacked.congr halike.layers,
        hfaithful.congr halike rfl⟩

theorem kept_actAll (h : net.Kept sequential inputs) {acts : List Act}
    (hacts : ∀ a ∈ acts, a.Offers) : (net.actAll acts).Kept sequential inputs := by
  induction acts generalizing net with
  | nil => exact h
  | cons a acts ih =>
      rw [List.forall_mem_cons] at hacts
      exact ih (kept_act h hacts.1) hacts.2

theorem forall_kind_act (h : net.Kept sequential inputs) (hkinds : ∀ l ∈ net.layers, P l.kind)
    {a : Act} (hoffers : a.Offers) (ha : a.Adds P) : ∀ l ∈ (net.act a).layers, P l.kind := by
  cases a with
  | call c => exact forall_kind_perform h hkinds hoffers ha
  | predict values =>
      obtain ⟨-, ⟨cache, hnet⟩, -⟩ := derives_forward h.faithful
      rw [act, predict, hnet]
      exact hkinds
  | calibrate s examples observer =>
      have hdistinct : net.weightNames.Nodup := weightNames_eq net ▸ h.stacked.nodup
      obtain ⟨cache, -, f, -, hnet⟩ :=
        Training.exists_mapWeights_of_fit h.faithful hdistinct s examples observer
      rw [act, hnet, mapWeights]
      simpa using hkinds

theorem forall_kind_actAll (h : net.Kept sequential inputs) (hkinds : ∀ l ∈ net.layers, P l.kind)
    {acts : List Act} (hacts : ∀ a ∈ acts, a.Offers ∧ a.Adds P) :
    ∀ l ∈ (net.actAll acts).layers, P l.kind := by
  induction acts generalizing net with
  | nil => exact hkinds
  | cons a acts ih =>
      rw [List.forall_mem_cons] at hacts
      exact ih (kept_act h hacts.1.1) (forall_kind_act h hkinds hacts.1.1 hacts.1.2) hacts.2

end

/-! ### Networks built anew -/

/-- Building a network from layers of its own kinds, which may begin with other
weights or draw them. -/
inductive Rebuilt (net : Network) : Network → Prop
  | intro {base anew : Network} {layers : List Layer} {fresh : Nat → Random.Stream} :
      empty net.sequential net.inputs = .ok base →
      List.Forall₂ (fun l l' => l'.Made ∧ l.kind.Alike l'.kind) net.layers layers →
      base.addAll fresh layers = .ok anew → Rebuilt net anew

theorem namesAt_congr {l l' : Layer} (h : l.kind.Alike l'.kind) (index inputs : Nat) :
    l.namesAt index inputs = l'.namesAt index inputs := by
  obtain ⟨kind, _, _⟩ := l
  obtain ⟨kind', _, _⟩ := l'
  cases h with
  | dense houtputs => simp only [Layer.namesAt, houtputs]
  | map => rfl

/-- Layers of one kind at one place are alike. -/
theorem Layer.Seated.alike {l l' : Layer} {index : Nat} (h : l.Seated index inputs)
    (h' : l'.Seated index inputs) (hkind : l.kind.Alike l'.kind) : l.Alike l' :=
  ⟨hkind, h.placement.trans h'.placement.symm,
    h.names.trans ((namesAt_congr hkind index inputs).trans h'.names.symm)⟩

/-- Layers that are added one after the other stand behind those before. -/
theorem addAll_alike {base : Network} {fresh : Nat → Random.Stream} {ls layers : List Layer}
    (hstacked : Stacked base.layers.length base.outputs ls)
    (hlayers : List.Forall₂ (fun l l' => l'.Made ∧ l.kind.Alike l'.kind) ls layers)
    (hadd : base.addAll fresh layers = .ok anew) (hcache : base.cache = .empty) :
    ∃ placed, List.Forall₂ Layer.Alike ls placed ∧
      anew = { base with layers := base.layers ++ placed } := by
  induction hlayers generalizing base with
  | nil =>
      obtain rfl := Except.ok.inj hadd
      exact ⟨[], .nil, by simp⟩
  | @cons l l' ls layers hhead _ ih =>
      obtain ⟨hmade, hkind⟩ := hhead
      rw [addAll] at hadd
      obtain ⟨f, hf⟩ | ⟨p, hplaces, hp⟩ := add_cases base l' (fresh base.layers.length)
      · rw [hf] at hadd
        cases hadd
      · rw [hp] at hadd
        have halike : l.Alike p :=
          hstacked.1.alike (hplaces.seated (.inr hmade)) (hplaces.kind ▸ hkind)
        obtain ⟨placed, hplaced, rfl⟩ :=
          @ih { base with layers := base.layers ++ [p], cache := .empty }
            (by simpa [outputs, halike.outputs] using hstacked.2) hadd rfl
        exact ⟨p :: placed, .cons halike hplaced, by simp [hcache]⟩

/-- A network built anew is alike and remembers nothing yet. -/
theorem Rebuilt.alike [Memo.Stack] [Engine] (h : net.Rebuilt anew)
    (hkept : net.Kept sequential inputs) :
    net.Alike anew ∧ anew.cache = .empty := by
  obtain @⟨base, anew, layers, fresh, hempty, hlayers, hadd⟩ := h
  obtain ⟨-, rfl⟩ := empty_eq_ok_iff.1 hempty
  have hstacked : Stacked 0 net.inputs net.layers := hkept.inputs_eq ▸ hkept.stacked
  obtain ⟨placed, hplaced, rfl⟩ := addAll_alike (by simpa [outputs] using hstacked) hlayers hadd rfl
  exact ⟨⟨rfl, by simp, by simpa using hplaced⟩, rfl⟩

theorem made_reopened {l : Layer} (hpos : 0 < l.outputs) (ws : List Weight) :
    (Layer.loose (l.kind.reopened ws)).Made := by
  obtain ⟨kind, placement, _⟩ := l
  cases kind with
  | dense d =>
      have hinitializer : Initializer.ofName? d.initializer.name = some d.initializer := by
        cases d.initializer <;> rfl
      have hone : ¬ (d.outputs : Int) < 1 := by
        have hd : 0 < d.outputs := hpos
        omega
      have hmake : Dense.make d.outputs d.activation.name d.initializer.name none (namedValues ws) =
          .ok { d with seed := none, initial := namedValues ws } := by
        simp [Dense.make, hone, hinitializer]
      exact .dense hmake
  | map entries =>
      have hne : entries ≠ [] := List.ne_nil_of_length_pos hpos
      have hmake : Layer.ofMap entries = .ok (.loose (.map entries)) := by simp [Layer.ofMap, hne]
      exact .map hmake

/-- A network can be built anew from its layers, with all its weights. -/
theorem exists_rebuilt [Memo.Stack] [Engine] (h : net.Kept sequential inputs)
    (hinputs : 0 < net.inputs) :
    ∃ anew, net.Rebuilt anew ∧ anew.weights = net.weights := by
  have hempty : empty net.sequential net.inputs =
      .ok ⟨net.sequential, net.inputs, [], .empty⟩ := empty_eq_ok_iff.2 ⟨by omega, by simp⟩
  have hstacked : Stacked 0 net.inputs net.layers := h.inputs_eq ▸ h.stacked
  have hadd := @addAll_reopened net.layers ⟨net.sequential, net.inputs, [], .empty⟩ hstacked
    hinputs rfl default
  refine ⟨net.restored, .intro hempty ?_ hadd, weights_restored net⟩
  refine List.forall₂_map_right_iff.2 (List.forall₂_same.2 fun l hl => ?_)
  obtain ⟨i, hi⟩ := List.mem_iff_getElem?.1 hl
  exact ⟨made_reopened (hstacked.seated hi).outputs l.weights, (alike_restored l).kind⟩

/-! ### Never out of date -/

theorem Alike.mapWeights_right (h : net.Alike anew) {f : Weight → Weight}
    (hf : ∀ w, (f w).name = w.name) : net.Alike (anew.mapWeights f) where
  sequential := h.sequential
  inputs := h.inputs
  layers := List.forall₂_map_right_iff.2 <| h.layers.imp fun _ _ hl =>
    ⟨hl.kind, hl.placement, hl.names.trans (by simp [hf])⟩

/-- Values in order, under the names of weights, are the weights of whichever
network bears these names. -/
theorem weights_withValues_of_names (hnames : net.weightNames = anew.weightNames) :
    (anew.withValues net.weightValues).weights = net.weights := by
  have hput : List.zipWith put anew.weights net.weightValues =
      List.zipWith Weight.mk anew.weightNames net.weightValues := by
    rw [weightNames, List.zipWith_map_left]
    rfl
  rw [weights_withValues, hput, ← hnames]
  simp only [weightNames, weightValues, List.zipWith_map, List.zipWith_self]
  exact List.map_id _

/-- Weights can be given by name to any network that is alike. -/
theorem Alike.setWeights_eq (h : net.Alike anew) (hdistinct : net.weightNames.Nodup) :
    anew.setWeights (namedValues net.weights) = (.ok (), anew.withValues net.weightValues) := by
  have hlength : net.weightValues.length = anew.weights.length := by
    have hnames := congrArg List.length h.weightNames
    simpa only [Network.weightNames, weightValues, List.length_map] using hnames
  have hnamed : namedValues net.weights =
      (anew.weightNames.zip net.weightValues).map fun p => (p.1, Datum.ofReal p.2) := by
    rw [← h.weightNames]
    simp only [Network.weightNames, weightValues, List.zip_map', List.map_map]
    rfl
  rw [hnamed]
  exact setWeights_snapshot (h.weightNames ▸ hdistinct) hlength

section

variable [Memo.Stack] [Engine]

/-- A network answers as do those that are built anew from its layers, which
derive everything from their layers; in its predictions, as they do once they
have been given its weights. -/
structure UpToDate (net : Network) : Prop where
  rebuilt : ∃ anew, net.Rebuilt anew
  prediction : ∀ anew, net.Rebuilt anew →
    net.prediction.1 = anew.predictionAnew ∧ net.prediction.1 = anew.prediction.1
  loss : ∀ anew, net.Rebuilt anew →
    net.loss.1 = anew.lossAnew ∧ net.loss.1 = anew.loss.1
  gradients : ∀ anew, net.Rebuilt anew →
    net.gradients.1 = anew.gradientsAnew ∧ net.gradients.1 = anew.gradients.1
  forward : ∀ anew, net.Rebuilt anew →
    net.forward.1 = anew.forwardAnew ∧ net.forward.1 = anew.forward.1
  training : ∀ anew, net.Rebuilt anew →
    net.training.1 = anew.trainingAnew ∧ net.training.1 = anew.training.1
  predict : ∀ anew, net.Rebuilt anew → ∃ held,
    anew.setWeights (namedValues net.weights) = (.ok (), held) ∧ held.weights = net.weights ∧
      ∀ inputs, (net.predict inputs).1 = (held.predict inputs).1

theorem upToDate_of_kept (h : net.Kept sequential inputs) (hinputs : 0 < net.inputs) :
    net.UpToDate := by
  have hanew {anew : Network} (hrebuilt : net.Rebuilt anew) : net.Alike anew ∧ anew.Faithful :=
    ⟨(hrebuilt.alike h).1, faithful_of_empty (hrebuilt.alike h).2⟩
  obtain ⟨base, hbase, -⟩ := exists_rebuilt h hinputs
  refine ⟨⟨base, hbase⟩, fun anew hr => ?_, fun anew hr => ?_, fun anew hr => ?_,
    fun anew hr => ?_, fun anew hr => ?_, fun anew hr => ?_⟩ <;>
    obtain ⟨halike, hfaithful⟩ := hanew hr
  · rw [(derives_prediction h.faithful).result, (derives_prediction hfaithful).result,
      halike.predictionAnew, and_self]
  · rw [(derives_loss h.faithful).result, (derives_loss hfaithful).result, halike.lossAnew,
      and_self]
  · rw [(derives_gradients h.faithful).result, (derives_gradients hfaithful).result,
      halike.gradientsAnew, and_self]
  · rw [(derives_forward h.faithful).result, (derives_forward hfaithful).result,
      halike.forwardAnew, and_self]
  · rw [(derives_training h.faithful).result, (derives_training hfaithful).result,
      halike.trainingAnew, and_self]
  · have hdistinct : net.weightNames.Nodup := weightNames_eq net ▸ h.stacked.nodup
    have hset := halike.setWeights_eq hdistinct
    have hweights := weights_withValues_of_names halike.weightNames
    refine ⟨_, hset, hweights, fun values => ?_⟩
    obtain ⟨f, hf, hheld⟩ := exists_mapWeights_of_setWeights anew (namedValues net.weights)
    rw [hset] at hheld
    have heq : anew.withValues net.weightValues = anew.mapWeights f := hheld
    have hright := halike.mapWeights_right hf
    rw [heq] at hweights ⊢
    rw [predict_eq h.faithful, predict_eq (hfaithful.congr (Alike.mapWeights anew hf) rfl),
      ← hright.forwardAnew, predictWith_congr hright hweights]

/-- Whatever has happened to a network, in whatever order, it is up to date. -/
theorem upToDate_actAll {count : Int} (hempty : empty true count = .ok net₀) (acts : List Act)
    (hacts : ∀ a ∈ acts, a.Offers) : (net₀.actAll acts).UpToDate := by
  have hkept := kept_actAll (kept_of_empty hempty) hacts
  refine upToDate_of_kept hkept ?_
  have hcount := (empty_eq_ok_iff.1 hempty).1
  rw [hkept.inputs_eq]
  omega

end

/-- A dense layer that is trained and evaluated, a layer with a weight that it
does not have, and then a function of the outputs. -/
def trainedActs : List Act :=
  [.call (.add (.loose (.dense ⟨1, .tanh, .identity, none, []⟩)) default), .call .gradients,
    .calibrate (Training.lineSettings .half .zero .epoch) [Training.onAxis] .silent,
    .call (.add (.loose (.dense ⟨1, .identity, .identity, none, [("w9b9", .null)]⟩)) default),
    .predict [some (.int 2)], .call (.setWeights [("w0b0", .text "0.5")]),
    .call (.add (.loose (.map [.function fun es => .ok (Expr.sumOf es), .text "x0*x0"])) default),
    .call .forward]

theorem upToDate_actAll_trainedActs :
    (∀ a ∈ trainedActs, a.Offers) ∧ (actAll ⟨true, 1, [], .empty⟩ trainedActs).UpToDate := by
  have hoffers : ∀ a ∈ trainedActs, a.Offers := by
    have hdense : Dense.make 1 "tanh" "identity" none [] =
        .ok ⟨1, .tanh, .identity, none, []⟩ := rfl
    have hunknown : Dense.make 1 "identity" "identity" none [("w9b9", .null)] =
        .ok ⟨1, .identity, .identity, none, [("w9b9", .null)]⟩ := rfl
    have hmap (entries : List MapEntry) (h : entries ≠ []) :
        Layer.ofMap entries = .ok (.loose (.map entries)) := by simp [Layer.ofMap, h]
    simp only [trainedActs, List.forall_mem_cons, List.not_mem_nil, false_implies, implies_true,
      Act.Offers, Call.Offers, and_true, true_and]
    exact ⟨.inr (.dense hdense), .inr (.dense hunknown), .inr (.map (hmap _ (by simp)))⟩
  exact ⟨hoffers, upToDate_actAll (show empty true 1 = .ok ⟨true, 1, [], .empty⟩ from rfl)
    trainedActs hoffers⟩

end Network

end Gantry
