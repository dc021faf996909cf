import Gantry.Proofs.Network.Names

/-!
Layers one behind the other. A layer that has been placed holds its index and
the number of its inputs, and has a weight for each of the names that belong to
that place. In a stack each layer takes as many inputs as the layer before it
has outputs, so expressions that fit the first layer go through them all.
-/

namespace Gantry.Network

open Gantry.Algebra

variable {l placed : Layer} {fresh : Random.Stream} {index inputs : Nat} {ls : List Layer}

/-! ### Making and placing layers -/

/-- A layer that a constructor returns. -/
inductive Layer.Made : Layer → Prop
  | dense {outputs : Int} {activation initializer : String} {seed : Option Int}
      {initial : List (String × Datum)} {d : Dense}
      (h : Dense.make outputs activation initializer seed initial = .ok d) : Made (.loose (.dense d))
  | map {entries : List MapEntry} {l : Layer} (h : Layer.ofMap entries = .ok l) : Made l

theorem outputs_of_make {outputs : Int} {activation initializer : String} {seed : Option Int}
    {initial : List (String × Datum)} {d : Dense}
    (h : Dense.make outputs activation initializer seed initial = .ok d) : 0 < d.outputs := by
  unfold Dense.make at h
  split at h
  · cases h
  · split at h
    · cases h
    · split at h
      · cases h
      · cases h
        dsimp only
        omega

theorem Layer.Made.outputs_pos (h : l.Made) : 0 < l.outputs := by
  cases h with
  | dense h => exact outputs_of_make h
  | @map entries _ h =>
      cases entries with
      | nil => cases h
      | cons m ms =>
          cases h
          exact Nat.succ_pos _

theorem Layer.Made.weights_eq_nil (h : l.Made) : l.weights = [] := by
  cases h with
  | dense h => rfl
  | @map entries _ h =>
      unfold Layer.ofMap at h
      split at h
      · cases h
      · cases h
        rfl

/-- A layer as it may be offered to a network: new, or placed already. -/
def Layer.Offered (l : Layer) : Prop := l.placement.isSome ∨ l.Made

/-- The names of a layer's weights at a place. -/
def Layer.namesAt (l : Layer) (index inputs : Nat) : List String :=
  match l.kind with
  | .dense d => Network.namesAt index d.outputs inputs
  | .map _ => []

theorem Layer.namesAt_dense {d : Dense} (h : l.kind = .dense d) (index inputs : Nat) :
    l.namesAt index inputs = Network.namesAt index l.outputs inputs := by
  simp [Layer.namesAt, Layer.outputs, h]

/-- A layer at its place. -/
structure Layer.Seated (l : Layer) (index inputs : Nat) : Prop where
  placement : l.placement = some ⟨index, inputs⟩
  names : l.weights.map Weight.name = l.namesAt index inputs
  outputs : 0 < l.outputs

/-- What a layer becomes when it is placed. -/
inductive Layer.Places (fresh : Random.Stream) (index inputs : Nat) (l : Layer) : Layer → Prop
  | map {entries : List MapEntry} (hloose : l.placement = none) (hkind : l.kind = .map entries) :
      l.Places fresh index inputs { l with placement := some ⟨index, inputs⟩ }
  | dense {d : Dense} {ws : List Weight} (hloose : l.placement = none) (hkind : l.kind = .dense d)
      (hinputs : 0 < inputs) (hweights : d.weightsAt fresh index inputs = .ok ws) :
      l.Places fresh index inputs { l with placement := some ⟨index, inputs⟩, weights := ws }

/-- All that placing a layer can do: it fails and leaves the layer as it was, or places it. -/
theorem connect_cases (l : Layer) (fresh : Random.Stream) (index inputs : Nat) :
    (∃ f, l.connect fresh index inputs = (.error f, l)) ∨
      ∃ placed, l.connect fresh index inputs = (.ok (), placed) ∧
        l.Places fresh index inputs placed := by
  obtain ⟨kind, _ | p, ws⟩ := l
  · cases kind with
    | map entries => exact .inr ⟨_, rfl, .map rfl rfl⟩
    | dense d =>
        by_cases hinputs : inputs < 1
        · exact .inl ⟨_, by simp [Layer.connect, hinputs]; rfl⟩
        · cases hweights : d.weightsAt fresh index inputs with
          | error f => exact .inl ⟨f, by simp [Layer.connect, hinputs, hweights]⟩
          | ok ws =>
              exact .inr ⟨_, by simp [Layer.connect, hinputs, hweights],
                .dense rfl rfl (by omega) hweights⟩
  · exact .inl ⟨_, rfl⟩

theorem connect_of_places (h : l.Places fresh index inputs placed) :
    l.connect fresh index inputs = (.ok (), placed) := by
  cases h with
  | map hloose hkind => simp [Layer.connect, hloose, hkind]
  | dense hloose hkind hinputs hweights =>
      have hlt : ¬ inputs < 1 := by omega
      simp [Layer.connect, hloose, hkind, hlt, hweights]

/-! ### The weights of a place -/

theorem length_randomEntries (scale : Binary64) (n : Nat) (s : Random.Stream) :
    (Dense.randomEntries scale n s).length = n := by
  induction n generalizing s with
  | zero => rfl
  | succ n ih => simp [Dense.randomEntries, ih]

theorem length_matrixEntries (d : Dense) (fresh : Random.Stream) (columns : Nat) :
    (d.matrixEntries fresh columns).length = d.outputs * columns := by
  unfold Dense.matrixEntries
  split
  · simp [List.length_flatMap, List.map_const']
  · exact length_randomEntries ..

theorem names_freshWeights (d : Dense) (fresh : Random.Stream) (index inputs : Nat) :
    (d.freshWeights fresh index inputs).map Weight.name = namesAt index d.outputs inputs := by
  rw [Dense.freshWeights, List.map_append, List.map_map, namesAt]
  congr 1
  · rw [List.map_zipWith]
    refine List.ext_getElem ?_ fun i _ _ => by simp
    simp [length_matrixEntries, length_matrixNames]
  · exact List.map_id _

theorem fillIn_nil (ws : List Weight) : Dense.fillIn [] ws = .ok ws := by
  induction ws with
  | nil => rfl
  | cons w ws ih => simp [Dense.fillIn, ih, Except.map]

theorem names_fillIn {initial : List (String × Datum)} {ws ws' : List Weight}
    (h : Dense.fillIn initial ws = .ok ws') : ws'.map Weight.name = ws.map Weight.name := by
  induction ws generalizing ws' with
  | nil =>
      cases h
      rfl
  | cons w ws ih =>
      unfold Dense.fillIn at h
      split at h
      · cases hrest : Dense.fillIn initial ws with
        | error f => simp [hrest, Except.map] at h
        | ok rest =>
            obtain rfl : w :: rest = ws' := by simpa [hrest, Except.map] using h
            rw [List.map_cons, ih hrest, List.map_cons]
      · split at h
        · cases h
        · rename_i x _
          cases hrest : Dense.fillIn initial ws with
          | error f => simp [hrest, Except.map] at h
          | ok rest =>
              obtain rfl : { w with value := x } :: rest = ws' := by
                simpa [hrest, Except.map] using h
              rw [List.map_cons, ih hrest, List.map_cons]

theorem names_weightsAt {d : Dense} {ws : List Weight}
    (h : d.weightsAt fresh index inputs = .ok ws) : ws.map Weight.name = namesAt index d.outputs inputs := by
  unfold Dense.weightsAt at h
  split at h
  · cases h
  · dsimp only at h
    split at h
    · rw [names_fillIn h, names_freshWeights]
    · cases h

theorem Layer.Places.kind (h : l.Places fresh index inputs placed) : placed.kind = l.kind := by
  cases h <;> rfl

theorem Layer.Places.seated (h : l.Places fresh index inputs placed) (hl : l.Offered) :
    placed.Seated index inputs := by
  cases h with
  | map hloose hkind =>
      have hmade : l.Made := hl.resolve_left (by simp [hloose])
      exact ⟨rfl, by simp [Layer.namesAt, hkind, hmade.weights_eq_nil], hmade.outputs_pos⟩
  | dense hloose hkind _ hweights =>
      have hmade : l.Made := hl.resolve_left (by simp [hloose])
      exact ⟨rfl, by simp [Layer.namesAt, hkind, names_weightsAt hweights], hmade.outputs_pos⟩

/-! ### Matrix and bias -/

theorem length_rows (n k : Nat) (ws : List Weight) : (Layer.rows n k ws).length = k := by
  induction k generalizing ws with
  | zero => rfl
  | succ k ih => simp [Layer.rows, ih]

theorem names_rows (n : Nat) (f : Nat → List String) (hf : ∀ r, (f r).length = n) (k start : Nat)
    {ws : List Weight} {rest : List String}
    (h : ws.map Weight.name = (List.range' start k).flatMap f ++ rest) :
    (Layer.rows n k ws).map (List.map Weight.name) = (List.range' start k).map f := by
  induction k generalizing ws start with
  | zero => rfl
  | succ k ih =>
      rw [List.range'_succ, List.flatMap_cons, List.append_assoc] at h
      rw [Layer.rows, List.map_cons, List.range'_succ, List.map_cons, List.map_take, h,
        List.take_left' (hf start)]
      congr 1
      refine ih (start + 1) ?_
      rw [List.map_drop, h, List.drop_left' (hf start)]

namespace Layer.Seated

variable (h : l.Seated index inputs) {d : Dense}

include h

theorem length_weights (hkind : l.kind = .dense d) :
    l.weights.length = l.outputs * inputs + l.outputs := by
  have hlength := congrArg List.length h.names
  rw [List.length_map, Layer.namesAt_dense hkind, Network.namesAt, List.length_append,
    length_matrixNames, length_biasNames] at hlength
  exact hlength

theorem matrix_eq : l.matrix = .ok (Layer.rows inputs l.outputs l.weights) := by
  simp [Layer.matrix, Layer.required, h.placement, Bind.bind, Except.bind, pure, Except.pure]

theorem bias_eq : l.bias = .ok (l.weights.drop (l.outputs * inputs)) := by
  simp [Layer.bias, Layer.required, h.placement, Bind.bind, Except.bind, pure, Except.pure]

theorem names_matrix (hkind : l.kind = .dense d) :
    (Layer.rows inputs l.outputs l.weights).map (List.map Weight.name) =
      (List.range l.outputs).map fun r => (List.range inputs).map (Dense.matrixName index r) := by
  have hnames := h.names
  rw [Layer.namesAt_dense hkind, Network.namesAt, Dense.matrixNames,
    List.range_eq_range' (n := l.outputs)] at hnames
  rw [List.range_eq_range' (n := l.outputs)]
  exact names_rows inputs _ (fun r => by simp) l.outputs 0 hnames

theorem names_bias (hkind : l.kind = .dense d) :
    (l.weights.drop (l.outputs * inputs)).map Weight.name =
      (List.range l.outputs).map (Dense.biasName index) := by
  rw [List.map_drop, h.names, Layer.namesAt_dense hkind, Network.namesAt,
    List.drop_left' (length_matrixNames index l.outputs inputs), Dense.biasNames]

end Layer.Seated

/-! ### Stacks -/

/-- Layers in order from an index on, with the number of inputs of the first. -/
def Stacked : Nat → Nat → List Layer → Prop
  | _, _, [] => True
  | index, inputs, l :: ls => l.Seated index inputs ∧ Stacked (index + 1) l.outputs ls

/-- The number of outputs of a stack. -/
def outputsOf (inputs : Nat) (ls : List Layer) : Nat :=
  match ls.getLast? with
  | some l => l.outputs
  | none => inputs

@[simp] theorem outputsOf_nil (inputs : Nat) : outputsOf inputs [] = inputs := rfl

@[simp] theorem outputsOf_cons (inputs : Nat) (l : Layer) (ls : List Layer) :
    outputsOf inputs (l :: ls) = outputsOf l.outputs ls := by
  cases ls <;> simp [outputsOf, List.getLast?_cons]

theorem outputs_eq (net : Network) : net.outputs = outputsOf net.inputs net.layers := rfl

theorem stacked_concat (index inputs : Nat) (ls : List Layer) (l : Layer) :
    Stacked index inputs (ls ++ [l]) ↔
      Stacked index inputs ls ∧ l.Seated (index + ls.length) (outputsOf inputs ls) := by
  induction ls generalizing index inputs with
  | nil => simp [Stacked]
  | cons k ls ih =>
      rw [List.cons_append, Stacked, ih, Stacked, and_assoc, outputsOf_cons, List.length_cons]
      rw [show index + 1 + ls.length = index + (ls.length + 1) by omega]

/-- The layer before a place, or the inputs, decide the inputs of the place. -/
theorem Stacked.seated (h : Stacked index inputs ls) {i : Nat} {l : Layer} (hi : ls[i]? = some l) :
    l.Seated (index + i) (outputsOf inputs (ls.take i)) := by
  induction ls generalizing index inputs i with
  | nil => cases hi
  | cons k ls ih =>
      cases i with
      | zero =>
          obtain rfl : k = l := by simpa using hi
          exact h.1
      | succ i =>
          rw [List.take_succ_cons, outputsOf_cons, show index + (i + 1) = index + 1 + i by omega]
          exact ih h.2 hi

/-- A weight belongs to a layer, whose index is in its name. -/
theorem Stacked.exists_name (h : Stacked index inputs ls) {name : String}
    (hname : name ∈ ls.flatMap fun l => l.weights.map Weight.name) :
    ∃ i outputs inputs, index ≤ i ∧ i < index + ls.length ∧ name ∈ namesAt i outputs inputs := by
  rw [List.mem_flatMap] at hname
  obtain ⟨l, hl, hname⟩ := hname
  obtain ⟨i, hi⟩ := List.mem_iff_getElem?.1 hl
  have hlt : i < ls.length := (List.getElem?_eq_some_iff.1 hi).1
  have hnames := (h.seated hi).names
  rw [hnames, Layer.namesAt] at hname
  split at hname
  · exact ⟨index + i, _, _, by omega, by omega, hname⟩
  · cases hname

theorem Stacked.nodup (h : Stacked index inputs ls) :
    (ls.flatMap fun l => l.weights.map Weight.name).Nodup := by
  induction ls generalizing index inputs with
  | nil => exact List.nodup_nil
  | cons l ls ih =>
      rw [List.flatMap_cons]
      refine List.nodup_append.2 ⟨?_, ih h.2, ?_⟩
      · rw [h.1.names, Layer.namesAt]
        split
        · exact nodup_namesAt ..
        · exact List.nodup_nil
      · rintro name hname _ hrest rfl
        obtain ⟨i, outputs, inputs', hi, -, hmem⟩ := h.2.exists_name hrest
        rw [h.1.names, Layer.namesAt] at hname
        split at hname
        · exact disjoint_namesAt (by omega) _ _ _ _ hname hmem
        · cases hname

/-! ### Expressions through a stack -/

variable [Engine]

/-- An entry of a map layer that cannot be computed from some inputs of the layer. -/
def Layer.Blocked (l : Layer) (f : Fault) : Prop :=
  ∃ p entries, l.placement = some p ∧ l.kind = .map entries ∧
    ∃ m ∈ entries, ∃ es : List Expr, es.length = p.inputs ∧ m.expression es = .error f

theorem mapExpressions_cases (es : List Expr) (entries : List MapEntry) :
    (∃ out, mapExpressions es entries = .ok out ∧ out.length = entries.length) ∨
      ∃ m ∈ entries, ∃ f, m.expression es = .error f ∧ mapExpressions es entries = .error f := by
  induction entries with
  | nil => exact .inl ⟨[], rfl, rfl⟩
  | cons m ms ih =>
      cases hm : m.expression es with
      | error f =>
          exact .inr ⟨m, List.mem_cons_self, f, hm, by
            simp [mapExpressions, hm, Bind.bind, Except.bind]⟩
      | ok e =>
          obtain ⟨out, hout, hlength⟩ | ⟨k, hk, f, hf, hout⟩ := ih
          · exact .inl ⟨e :: out, by
              simp [mapExpressions, hm, hout, Bind.bind, Except.bind, pure, Except.pure], by
              simp [hlength]⟩
          · exact .inr ⟨k, List.mem_cons_of_mem m hk, f, hf, by
              simp [mapExpressions, hm, hout, Bind.bind, Except.bind]⟩

/-- The expressions of a dense layer at its place. -/
theorem Layer.Seated.expressions_dense (h : l.Seated index inputs) {d : Dense}
    (hkind : l.kind = .dense d) {es : List Expr} (hes : es.length = inputs) :
    l.expressions es = .ok (List.zipWith (fun row b => d.activation.apply (Layer.affine row b es))
      (Layer.rows inputs l.outputs l.weights) (l.weights.drop (l.outputs * inputs))) := by
  simp [Layer.expressions, hkind, Layer.required, h.placement, h.matrix_eq, h.bias_eq, hes,
    Bind.bind, Except.bind, pure, Except.pure]

/-- The expressions of a map layer at its place. -/
theorem Layer.Seated.expressions_map (h : l.Seated index inputs) {entries : List MapEntry}
    (hkind : l.kind = .map entries) {es : List Expr} (hes : es.length = inputs) :
    l.expressions es = (mapExpressions es entries).mapError .fault := by
  simp [Layer.expressions, hkind, h.placement, hes]

theorem Layer.Seated.expressions_cases (h : l.Seated index inputs) {es : List Expr}
    (hes : es.length = inputs) :
    (∃ out, l.expressions es = .ok out ∧ out.length = l.outputs) ∨
      ∃ f, l.Blocked f ∧ l.expressions es = .error (.fault f) := by
  cases hkind : l.kind with
  | dense d =>
      refine .inl ⟨_, h.expressions_dense hkind hes, ?_⟩
      rw [List.length_zipWith, length_rows, List.length_drop, h.length_weights hkind]
      omega
  | map entries =>
      have hexpressions := h.expressions_map hkind hes
      obtain ⟨out, hout, hlength⟩ | ⟨m, hm, f, hf, hout⟩ := mapExpressions_cases es entries
      · exact .inl ⟨out, by rw [hexpressions, hout]; rfl, by
          rw [hlength, Layer.outputs, hkind]⟩
      · exact .inr ⟨f, ⟨_, entries, h.placement, hkind, m, hm, es, hes, hf⟩, by
          rw [hexpressions, hout]
          rfl⟩

/-- Expressions go through a stack unless a map layer stops them. -/
theorem Stacked.through_cases (h : Stacked index inputs ls) {es : List Expr}
    (hes : es.length = inputs) :
    (∃ out, through ls es = .ok out ∧ out.length = outputsOf inputs ls) ∨
      ∃ l ∈ ls, ∃ f, l.Blocked f ∧ through ls es = .error (.fault f) := by
  induction ls generalizing index inputs es with
  | nil => exact .inl ⟨es, rfl, hes⟩
  | cons l ls ih =>
      obtain ⟨out, hout, hlength⟩ | ⟨f, hblocked, hout⟩ := h.1.expressions_cases hes
      · obtain ⟨last, hlast, hcount⟩ | ⟨k, hk, f, hblocked, hlast⟩ := ih h.2 hlength
        · exact .inl ⟨last, by rw [through, hout]; exact hlast, by rw [outputsOf_cons, hcount]⟩
        · exact .inr ⟨k, List.mem_cons_of_mem l hk, f, hblocked, by rw [through, hout]; exact hlast⟩
      · exact .inr ⟨l, List.mem_cons_self, f, hblocked, by rw [through, hout]⟩

end Gantry.Network
