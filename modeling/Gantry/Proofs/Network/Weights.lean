import Gantry.Network.Evaluation

/-!
Weights of a network. Deriving expressions from a network leaves its weights
alone. Values can be given to all weights in their order or to each by its
name, and where the names are distinct both come to the same.
-/

namespace Gantry

open Gantry.Network (Layer Weight)

namespace Network

variable {net : Network} {values : List Binary64}

/-! ### Values in order -/

theorem zipWith_append_eq {β γ δ : Type} (f : β → γ → δ) (xs xs' : List β) (ys : List γ) :
    List.zipWith f (xs ++ xs') ys =
      List.zipWith f xs (ys.take xs.length) ++ List.zipWith f xs' (ys.drop xs.length) := by
  induction xs generalizing ys with
  | nil => simp
  | cons x xs ih =>
      cases ys with
      | nil => simp
      | cons y ys => simp [ih]

/-- A weight with a new value. -/
def put (w : Weight) (x : Binary64) : Weight := { w with value := x }

theorem flatMap_weights_go (ls : List Layer) (values : List Binary64) :
    (withValues.go ls values).flatMap Layer.weights =
      List.zipWith put (ls.flatMap Layer.weights) values := by
  induction ls generalizing values with
  | nil => rfl
  | cons l ls ih =>
      rw [withValues.go, List.flatMap_cons, List.flatMap_cons, ih, zipWith_append_eq]
      rfl

theorem weights_withValues (net : Network) (values : List Binary64) :
    (net.withValues values).weights = List.zipWith put net.weights values :=
  flatMap_weights_go net.layers values

theorem weightNames_withValues (h : values.length = net.weights.length) :
    (net.withValues values).weightNames = net.weightNames := by
  rw [weightNames, weights_withValues, List.map_zipWith]
  refine List.ext_getElem (by simp [weightNames, h]) fun i _ _ => ?_
  simp [put, weightNames]

theorem weightValues_withValues (h : values.length = net.weights.length) :
    (net.withValues values).weightValues = values := by
  rw [weightValues, weights_withValues, List.map_zipWith]
  refine List.ext_getElem (by simp [h]) fun i _ _ => ?_
  simp [put]

theorem length_weightValues (net : Network) : net.weightValues.length = net.weights.length :=
  List.length_map ..

/-! ### Derivations -/

section

variable [Algebra.Engine]

theorem layers_prediction (net : Network) : net.prediction.2.layers = net.layers := by
  unfold prediction
  split
  · rfl
  · split <;> rfl

theorem layers_loss (net : Network) : net.loss.2.layers = net.layers := by
  have hprediction := net.layers_prediction
  unfold loss
  split
  · rfl
  · split <;> simp_all

theorem layers_gradients (net : Network) : net.gradients.2.layers = net.layers := by
  have hloss := net.layers_loss
  unfold gradients
  split
  · rfl
  · split <;> simp_all

theorem layers_trainingTexts (net : Network) : net.trainingTexts.2.layers = net.layers := by
  have hgradients := net.layers_gradients
  unfold trainingTexts
  split
  · simp_all
  · rename_i gs net' heq
    have hloss := net'.layers_loss
    split <;> simp_all

theorem layers_training [Memo.Stack] (net : Network) : net.training.2.layers = net.layers := by
  have htexts := net.layers_trainingTexts
  unfold training
  split <;> simp_all

end

/-! ### Values by name -/

/-- Changes all weights. -/
def mapWeights (net : Network) (f : Weight → Weight) : Network :=
  { net with layers := net.layers.map fun l => { l with weights := l.weights.map f } }

theorem mapWeights_mapWeights (net : Network) (f g : Weight → Weight) :
    (net.mapWeights f).mapWeights g = net.mapWeights (g ∘ f) := by
  simp [mapWeights, Function.comp_def]

theorem go_eq_map {ls : List Layer} {f : Weight → Weight}
    (hlength : values.length = (ls.flatMap Layer.weights).length)
    (h : List.zipWith put (ls.flatMap Layer.weights) values = (ls.flatMap Layer.weights).map f) :
    withValues.go ls values = ls.map fun l => { l with weights := l.weights.map f } := by
  induction ls generalizing values with
  | nil => rfl
  | cons l ls ih =>
      rw [List.flatMap_cons, zipWith_append_eq, List.map_append] at h
      rw [List.flatMap_cons, List.length_append] at hlength
      obtain ⟨hhead, htail⟩ := List.append_inj h (by simp; omega)
      rw [withValues.go, List.map_cons, ih (by rw [List.length_drop]; omega) htail]
      exact congrArg (fun ws => { l with weights := ws } :: _) hhead

/-- Values in order, as a change of each weight. -/
theorem withValues_eq_mapWeights {f : Weight → Weight}
    (hlength : values.length = net.weights.length)
    (h : List.zipWith put net.weights values = net.weights.map f) :
    net.withValues values = net.mapWeights f := by
  rw [withValues, mapWeights, go_eq_map hlength h]

/-- What storing values by name makes of a weight. -/
def overwrite (pairs : List (String × Binary64)) (w : Weight) : Weight :=
  pairs.foldl (fun w p => if w.name = p.1 then put w p.2 else w) w

theorem storeWeights_ofReal (net : Network) (pairs : List (String × Binary64)) :
    net.storeWeights (pairs.map fun p => (p.1, .ofReal p.2)) =
      (.ok (), net.mapWeights (overwrite pairs)) := by
  induction pairs generalizing net with
  | nil =>
      have hid : overwrite [] = id := rfl
      simp [storeWeights, mapWeights, hid]
  | cons p pairs ih =>
      have hfirst : net.setWeight p.1 p.2 =
          net.mapWeights fun w => if w.name = p.1 then put w p.2 else w := rfl
      have hvalue : (Datum.ofReal p.2).toReal = .ok p.2 := rfl
      simp only [List.map_cons, storeWeights, hvalue]
      rw [ih, hfirst, mapWeights_mapWeights]
      rfl

theorem overwrite_of_notMem {pairs : List (String × Binary64)} {w : Weight}
    (h : w.name ∉ pairs.map Prod.fst) : overwrite pairs w = w := by
  induction pairs with
  | nil => rfl
  | cons p pairs ih =>
      rw [List.map_cons, List.mem_cons, not_or] at h
      rw [overwrite, List.foldl_cons, if_neg h.1]
      exact ih h.2

theorem overwrite_of_mem {pairs : List (String × Binary64)} {w : Weight} {x : Binary64}
    (hdistinct : (pairs.map Prod.fst).Nodup) (h : (w.name, x) ∈ pairs) :
    overwrite pairs w = put w x := by
  induction pairs with
  | nil => cases h
  | cons p pairs ih =>
      rw [List.map_cons, List.nodup_cons] at hdistinct
      rw [overwrite, List.foldl_cons]
      rcases List.mem_cons.1 h with rfl | htail
      · rw [if_pos rfl]
        exact overwrite_of_notMem (w := put w x) hdistinct.1
      · have hne : w.name ≠ p.1 := fun hname =>
          hdistinct.1 (hname ▸ List.mem_map_of_mem (f := Prod.fst) htail)
        rw [if_neg hne]
        exact ih hdistinct.2 htail

theorem name_overwrite (pairs : List (String × Binary64)) (w : Weight) :
    (overwrite pairs w).name = w.name := by
  induction pairs generalizing w with
  | nil => rfl
  | cons p pairs ih =>
      rw [overwrite, List.foldl_cons]
      refine (ih _).trans ?_
      split <;> rfl

/-- Giving values to distinct weights in order changes each by its name. -/
theorem withValues_eq_mapWeights_overwrite (hdistinct : net.weightNames.Nodup)
    (hlength : values.length = net.weights.length) :
    net.withValues values = net.mapWeights (overwrite (net.weightNames.zip values)) := by
  have hnames : (net.weightNames.zip values).map Prod.fst = net.weightNames :=
    List.map_fst_zip (by simp [weightNames, hlength])
  refine withValues_eq_mapWeights hlength (List.ext_getElem (by simp [hlength]) fun i hi _ => ?_)
  rw [List.length_zipWith] at hi
  rw [List.getElem_zipWith, List.getElem_map]
  refine (overwrite_of_mem (by rwa [hnames]) ?_).symm
  rw [List.mem_iff_getElem]
  exact ⟨i, by simp [weightNames]; omega, by simp [weightNames]⟩

/-- Setting distinct weights by their names is giving them values in order, so
a snapshot of named values restores a network whatever its weights have become. -/
theorem setWeights_snapshot (hdistinct : net.weightNames.Nodup)
    (hlength : values.length = net.weights.length) :
    net.setWeights ((net.weightNames.zip values).map fun p => (p.1, .ofReal p.2)) =
      (.ok (), net.withValues values) := by
  have hnames : (net.weightNames.zip values).map Prod.fst = net.weightNames :=
    List.map_fst_zip (by simp [weightNames, hlength])
  have hknown : (((net.weightNames.zip values).map fun p => (p.1, Datum.ofReal p.2)).map
      Prod.fst).filter (fun name => !net.weightNames.contains name) = [] := by
    rw [List.map_map, List.filter_eq_nil_iff]
    intro name hname
    rw [show (Prod.fst ∘ fun p : String × Binary64 => (p.1, Datum.ofReal p.2)) = Prod.fst from rfl,
      hnames] at hname
    simpa using hname
  rw [setWeights, hknown]
  simp only
  rw [storeWeights_ofReal, withValues_eq_mapWeights_overwrite hdistinct hlength]

end Network

end Gantry
