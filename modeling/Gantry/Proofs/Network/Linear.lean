import Gantry.Proofs.Algebra.Affine
import Gantry.Proofs.Network.Likeness

/-!
Linear layers: dense ones without a nonlinearity. With an algebra that keeps
values, their outputs are polynomials in the names of the inputs and of the
weights, and their values are what the matrix and the bias of one layer after
the other make of the values of the inputs. With the standard algebra the
outputs are signals.
-/

namespace Gantry.Network

open Gantry.Algebra
open Gantry.Algebra.Expr (Polynomial Signal)

variable {l : Layer} {ls : List Layer} {index inputs : Nat} {es : List Expr} {N : String → Prop}
  {u u' : String → ℚ}

/-! ### Numbers through layers -/

/-- What the matrix and the bias of a layer make of numbers, with weights that
are valued by their names. -/
def Layer.linear (u : String → ℚ) (l : Layer) (xs : List ℚ) : Except Failure (List ℚ) := do
  let matrix ← l.matrix
  let bias ← l.bias
  return List.zipWith (fun row b =>
    (List.zipWith (fun w x => u w.name * x) row xs).sum + u b.name) matrix bias

/-- Numbers through one layer after the other. -/
def linearThrough (u : String → ℚ) : List Layer → List ℚ → Except Failure (List ℚ)
  | [], xs => .ok xs
  | l :: ls, xs => do
    let ys ← l.linear u xs
    linearThrough u ls ys

/-- A dense layer without a nonlinearity. -/
def Layer.IsLinear (l : Layer) : Prop := ∃ d, l.kind = .dense d ∧ d.activation = .identity

/-! ### One layer -/

theorem mem_of_mem_rows {n k : Nat} {ws row : List Weight} (h : row ∈ Layer.rows n k ws)
    {w : Weight} (hw : w ∈ row) : w ∈ ws := by
  induction k generalizing ws with
  | zero => cases h
  | succ k ih =>
      rcases List.mem_cons.1 h with rfl | h
      · exact List.mem_of_mem_take hw
      · exact List.mem_of_mem_drop (ih h)

/-- The names that an affine function of a row and a bias is made of. -/
theorem mem_names_of_row {row : List Weight} {b : Weight}
    (hrow : row ∈ Layer.rows inputs l.outputs l.weights) (hb : b ∈ l.weights) :
    ∀ x ∈ b.name :: row.map Weight.name, x ∈ l.weights.map Weight.name := by
  refine List.forall_mem_cons.2 ⟨List.mem_map_of_mem hb, fun x hx => ?_⟩
  obtain ⟨w, hw, rfl⟩ := List.mem_map.1 hx
  exact List.mem_map_of_mem (mem_of_mem_rows hrow hw)

namespace Layer.Seated

variable (h : l.Seated index inputs)

include h

theorem row_eq {d : Dense} (hkind : l.kind = .dense d) {row : List Weight}
    (hrow : row ∈ Layer.rows inputs l.outputs l.weights) :
    row.length = inputs ∧ (row.map Weight.name).Nodup := by
  have hnames : row.map Weight.name ∈
      (Layer.rows inputs l.outputs l.weights).map (List.map Weight.name) := List.mem_map_of_mem hrow
  rw [h.names_matrix hkind] at hnames
  obtain ⟨r, -, hr⟩ := List.mem_map.1 hnames
  refine ⟨?_, ?_⟩
  · simpa using (congrArg List.length hr).symm
  · rw [← hr]
    exact List.nodup_range.map fun c c' heq => (matrixName_inj heq).2.2

theorem linear_eq (u : String → ℚ) (xs : List ℚ) :
    l.linear u xs = .ok (List.zipWith (fun row b =>
      (List.zipWith (fun w x => u w.name * x) row xs).sum + u b.name)
        (Layer.rows inputs l.outputs l.weights) (l.weights.drop (l.outputs * inputs))) := by
  rw [Layer.linear, h.matrix_eq, h.bias_eq]
  rfl

theorem linear_congr (hu : ∀ x ∈ l.weights.map Weight.name, u x = u' x) (xs : List ℚ) :
    l.linear u xs = l.linear u' xs := by
  have hweight (v : Weight) (hv : v ∈ l.weights) : u v.name = u' v.name :=
    hu _ (List.mem_map_of_mem hv)
  rw [h.linear_eq, h.linear_eq, ← List.map_uncurry_zip_eq_zipWith, ← List.map_uncurry_zip_eq_zipWith]
  refine congrArg Except.ok (List.map_congr_left ?_)
  rintro ⟨row, b⟩ hmem
  obtain ⟨hrow, hb⟩ := List.of_mem_zip hmem
  have hproducts : List.zipWith (fun w x => u w.name * x) row xs =
      List.zipWith (fun w x => u' w.name * x) row xs := by
    rw [← List.map_uncurry_zip_eq_zipWith, ← List.map_uncurry_zip_eq_zipWith]
    refine List.map_congr_left ?_
    rintro ⟨v, x⟩ hvx
    simp only [Function.uncurry_apply_pair,
      hweight v (mem_of_mem_rows hrow (List.of_mem_zip hvx).1)]
  simp only [Function.uncurry_apply_pair, hproducts, hweight b (List.mem_of_mem_drop hb)]

/-- The outputs of a linear layer are affine functions. -/
theorem expressions_linear [Engine] (hlinear : l.IsLinear) (hes : es.length = inputs) :
    ∃ out, l.expressions es = .ok out ∧ out.length = l.outputs ∧
      out = List.zipWith (fun row b => Layer.affine row b es)
        (Layer.rows inputs l.outputs l.weights) (l.weights.drop (l.outputs * inputs)) := by
  obtain ⟨d, hkind, hidentity⟩ := hlinear
  have hexpressions := h.expressions_dense hkind hes
  simp only [hidentity, Activation.apply] at hexpressions
  refine ⟨_, hexpressions, ?_, rfl⟩
  rw [List.length_zipWith, length_rows, List.length_drop, h.length_weights hkind]
  omega

/-- Polynomials through a linear layer. -/
theorem polynomials [Engine] (hvalues : Engine.KeepsValues) (hlinear : l.IsLinear)
    (hes : es.length = inputs) (hpolynomials : ∀ e ∈ es, Polynomial N e)
    (hnames : ∀ x ∈ l.weights.map Weight.name, N x) :
    ∃ out, l.expressions es = .ok out ∧ out.length = l.outputs ∧ (∀ e ∈ out, Polynomial N e) ∧
      ∀ u, l.linear u (es.map (Expr.valueAt u)) = .ok (out.map (Expr.valueAt u)) := by
  obtain ⟨out, hout, hlength, heq⟩ := h.expressions_linear hlinear hes
  have haffine (row : List Weight) (hrow : row ∈ Layer.rows inputs l.outputs l.weights) (b : Weight)
      (hb : b ∈ l.weights.drop (l.outputs * inputs)) : Polynomial N (Layer.affine row b es) ∧
        ∀ u : String → ℚ, (Layer.affine row b es).valueAt u =
          (List.zipWith (fun w e => u w.name * e.valueAt u) row es).sum + u b.name := by
    rw [affine_eq]
    obtain ⟨hpolynomial, hvalue⟩ := hvalues.affine hpolynomials fun x hx =>
      hnames x (mem_names_of_row hrow (List.mem_of_mem_drop hb) x hx)
    exact ⟨hpolynomial, fun u => by rw [affineOf, hvalue, List.zipWith_map_left]⟩
  refine ⟨out, hout, hlength, fun e he => ?_, fun u => ?_⟩
  · rw [heq, ← List.map_uncurry_zip_eq_zipWith] at he
    obtain ⟨⟨row, b⟩, hmem, rfl⟩ := List.mem_map.1 he
    obtain ⟨hrow, hb⟩ := List.of_mem_zip hmem
    exact (haffine row hrow b hb).1
  · rw [h.linear_eq, heq, List.map_zipWith, ← List.map_uncurry_zip_eq_zipWith,
      ← List.map_uncurry_zip_eq_zipWith]
    refine congrArg Except.ok (List.map_congr_left ?_)
    rintro ⟨row, b⟩ hmem
    obtain ⟨hrow, hb⟩ := List.of_mem_zip hmem
    simp only [Function.uncurry_apply_pair, (haffine row hrow b hb).2, List.zipWith_map_right]

/-- Signals through a linear layer. What comes out has a term for each input and
one more. -/
theorem signals (hlinear : l.IsLinear) (hpos : 0 < inputs) (hes : es.length = inputs)
    (hsignals : ∀ e ∈ es, Signal N e) (hfresh : ∀ x ∈ l.weights.map Weight.name, ¬N x) :
    ∃ out, l.expressions es = .ok out ∧ out.length = l.outputs ∧
      ∀ e ∈ out, Signal (fun x => N x ∨ x ∈ l.weights.map Weight.name) e ∧
        e.terms.length = inputs + 1 := by
  obtain ⟨out, hout, hlength, heq⟩ := h.expressions_linear hlinear hes
  refine ⟨out, hout, hlength, fun e he => ?_⟩
  rw [heq, ← List.map_uncurry_zip_eq_zipWith] at he
  obtain ⟨⟨row, b⟩, hmem, rfl⟩ := List.mem_map.1 he
  obtain ⟨hrow, hb⟩ := List.of_mem_zip hmem
  have hnames := mem_names_of_row hrow (List.mem_of_mem_drop hb)
  obtain ⟨d, hkind, -⟩ := hlinear
  obtain ⟨hcount, hdistinct⟩ := h.row_eq hkind hrow
  obtain ⟨hsignal, hterms⟩ := Expr.signal_affine (affine_eq row b es).symm (by simp [hcount, hes])
    hdistinct hsignals (fun x hx => hfresh x (hnames x (List.mem_cons_of_mem _ hx)))
    (List.ne_nil_of_length_pos (hes ▸ hpos))
  exact ⟨hsignal.mono fun x hx => hx.imp_right (hnames x), by rw [Function.uncurry_apply_pair, hterms, hes]⟩

end Layer.Seated

/-! ### Stacks -/

theorem Stacked.linearThrough_congr (h : Stacked index inputs ls)
    (hu : ∀ x ∈ ls.flatMap fun l => l.weights.map Weight.name, u x = u' x) (xs : List ℚ) :
    linearThrough u ls xs = linearThrough u' ls xs := by
  induction ls generalizing index inputs xs with
  | nil => rfl
  | cons l ls ih =>
      simp only [List.flatMap_cons, List.mem_append, or_imp, forall_and] at hu
      rw [linearThrough, linearThrough, h.1.linear_congr hu.1]
      cases l.linear u' xs with
      | error f => simp only [Bind.bind, Except.bind]
      | ok ys => exact ih h.2 hu.2 ys

/-- Polynomials through a stack of linear layers. -/
theorem Stacked.polynomials [Engine] (hvalues : Engine.KeepsValues) (h : Stacked index inputs ls)
    (hlinear : ∀ l ∈ ls, l.IsLinear) (hes : es.length = inputs)
    (hpolynomials : ∀ e ∈ es, Polynomial N e)
    (hnames : ∀ x ∈ ls.flatMap fun l => l.weights.map Weight.name, N x) :
    ∃ out, through ls es = .ok out ∧ out.length = outputsOf inputs ls ∧
      (∀ e ∈ out, Polynomial N e) ∧
      ∀ u, linearThrough u ls (es.map (Expr.valueAt u)) = .ok (out.map (Expr.valueAt u)) := by
  induction ls generalizing index inputs es with
  | nil => exact ⟨es, rfl, hes, hpolynomials, fun u => rfl⟩
  | cons l ls ih =>
      rw [List.forall_mem_cons] at hlinear
      simp only [List.flatMap_cons, List.mem_append, or_imp, forall_and] at hnames
      obtain ⟨mid, hmid, hlength, hmidPolynomials, hmidValue⟩ :=
        h.1.polynomials hvalues hlinear.1 hes hpolynomials hnames.1
      obtain ⟨out, hout, hcount, houtPolynomials, houtValue⟩ :=
        ih h.2 hlinear.2 hlength hmidPolynomials hnames.2
      refine ⟨out, by rw [through, hmid]; exact hout, by rw [outputsOf_cons, hcount],
        houtPolynomials, fun u => ?_⟩
      rw [linearThrough, hmidValue]
      exact houtValue u

/-- Signals through a stack of linear layers. What comes out has a term for
each input of the last layer and one more. -/
theorem Stacked.signals (h : Stacked index inputs ls) (hlinear : ∀ l ∈ ls, l.IsLinear)
    (hpos : 0 < inputs) (hes : es.length = inputs) (hsignals : ∀ e ∈ es, Signal N e)
    (hfresh : ∀ x ∈ ls.flatMap fun l => l.weights.map Weight.name, ¬N x) :
    ∃ out, through ls es = .ok out ∧
      ∀ e ∈ out, Signal (fun x => N x ∨ x ∈ ls.flatMap fun l => l.weights.map Weight.name) e ∧
        (ls ≠ [] → e.terms.length = outputsOf inputs ls.dropLast + 1) := by
  have hnodup := h.nodup
  induction ls generalizing index inputs es N with
  | nil =>
      refine ⟨es, rfl, fun e he => ⟨(hsignals e he).mono fun x hx => .inl hx, ?_⟩⟩
      exact fun hsome => absurd rfl hsome
  | cons l ls ih =>
      rw [List.forall_mem_cons] at hlinear
      rw [List.flatMap_cons] at hfresh hnodup
      obtain ⟨hnodup₁, hnodup₂, hdisjoint⟩ := List.nodup_append.1 hnodup
      obtain ⟨mid, hmid, hlength, hmidSignals⟩ := h.1.signals hlinear.1 hpos hes hsignals
        fun x hx => hfresh x (List.mem_append_left _ hx)
      -- The names of later layers are none of those that the outputs of this one are made of.
      obtain ⟨out, hout, houtSignals⟩ := ih h.2 hlinear.2 h.1.outputs hlength
        (fun e he => (hmidSignals e he).1)
        (fun x hx => not_or.2 ⟨hfresh x (List.mem_append_right _ hx),
          fun hmem => hdisjoint x hmem x hx rfl⟩) hnodup₂
      refine ⟨out, by rw [through, hmid]; exact hout,
        fun e he => ⟨(houtSignals e he).1.mono fun x hx => ?_, fun _ => ?_⟩⟩
      · rw [List.flatMap_cons, List.mem_append]
        exact or_assoc.1 hx
      · cases ls with
        | nil =>
            obtain rfl : mid = out := Except.ok.inj hout
            exact (hmidSignals e he).2
        | cons k ls =>
            rw [List.dropLast_cons_of_ne_nil (List.cons_ne_nil k ls), outputsOf_cons]
            exact (houtSignals e he).2 (List.cons_ne_nil k ls)

end Gantry.Network
