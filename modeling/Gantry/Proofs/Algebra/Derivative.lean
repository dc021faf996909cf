import Mathlib
import Gantry.Proofs.Algebra.Power

/-!
Derivatives of polynomials. The derivative of a polynomial is a polynomial, and
its values are the slopes of the values.
-/

namespace Gantry.Algebra.Expr

open Function (update)

variable {s : String → ℚ} {N : String → Prop} {e b d : Expr} {es fs : List Expr} {x : String}

/-! ### Symbols that do not occur -/

theorem mentionsAny_eq (x : String) (es : List Expr) :
    mentionsAny x es = es.any (mentions x) := by
  induction es with
  | nil => rfl
  | cons e es ih => rw [mentionsAny, ih, List.any_cons]

/-- The value does not depend on a symbol that does not occur. -/
theorem valueAt_update (h : Polynomial N e) (hx : e.mentions x = false) (s : String → ℚ) (t : ℚ) :
    e.valueAt (update s x t) = e.valueAt s := by
  induction h with
  | number q => simp
  | @symbol y r hy =>
      have hne : y ≠ x := by simpa [mentions] using hx
      simp [hne]
  | sum hne h ih =>
      rw [mentions, mentionsAny_eq, List.any_eq_false] at hx
      rw [valueAt_sum, valueAt_sum]
      exact congrArg List.sum (List.map_congr_left fun u hu => ih u hu (by simpa using hx u hu))
  | product hne h hflat hnumber ih =>
      rw [mentions, mentionsAny_eq, List.any_eq_false] at hx
      rw [valueAt_product, valueAt_product]
      exact congrArg List.prod (List.map_congr_left fun u hu => ih u hu (by simpa using hx u hu))
  | power h hbase hn ih =>
      rw [mentions, Bool.or_eq_false_iff] at hx
      rw [valueAt_power, valueAt_power, ih hx.1]

/-! ### Products -/

theorem derivatives_eq (x : String) (es : List Expr) : derivatives x es = es.map (derivative x) := by
  induction es with
  | nil => rfl
  | cons e es ih => rw [derivatives, ih, List.map_cons]

theorem chain_polynomial (h : ∀ e ∈ es, Polynomial N e) :
    Polynomial N (chain es) ∧ ∀ s, (chain es).valueAt s = (es.map (valueAt s)).prod := by
  suffices hfold : ∀ acc, Polynomial N acc →
      Polynomial N (es.foldl (fun acc e => productOf [acc, e]) acc) ∧ ∀ s,
        (es.foldl (fun acc e => productOf [acc, e]) acc).valueAt s =
          acc.valueAt s * (es.map (valueAt s)).prod by
    obtain ⟨hpolynomial, hvalue⟩ := hfold one polynomial_one
    exact ⟨hpolynomial, fun s => by rw [chain, hvalue, valueAt_one, one_mul]⟩
  induction es with
  | nil => exact fun acc hacc => ⟨hacc, by simp⟩
  | cons e es ih =>
      intro acc hacc
      rw [List.forall_mem_cons] at h
      obtain ⟨hproduct, hworth⟩ := productOf_polynomial hacc h.1
      obtain ⟨hpolynomial, hvalue⟩ := ih h.2 _ hproduct
      exact ⟨hpolynomial, fun s => by
        rw [List.foldl_cons, hvalue, hworth, List.map_cons, List.prod_cons, mul_assoc]⟩

/-- The slope of a product of values from the slopes of its factors. -/
def slopeOf : List (ℚ × ℚ) → ℚ
  | [] => 0
  | (v, d) :: ps => d * (ps.map Prod.fst).prod + v * slopeOf ps

theorem hasDerivAt_prod {α : Type} (fs : List α) (v : α → ℚ → ℚ) (d : α → ℚ) (t : ℚ)
    (h : ∀ f ∈ fs, HasDerivAt (v f) (d f) t) :
    HasDerivAt (fun u => (fs.map fun f => v f u).prod) (slopeOf (fs.map fun f => (v f t, d f))) t := by
  induction fs with
  | nil => exact hasDerivAt_const t 1
  | cons f fs ih =>
      rw [List.forall_mem_cons] at h
      simp only [List.map_cons, List.prod_cons, slopeOf]
      refine (HasDerivAt.fun_mul h.1 (ih h.2)).congr_deriv ?_
      rw [List.map_map]
      rfl

theorem hasDerivAt_sum {α : Type} (ts : List α) (v : α → ℚ → ℚ) (d : α → ℚ) (t : ℚ)
    (h : ∀ f ∈ ts, HasDerivAt (v f) (d f) t) :
    HasDerivAt (fun u => (ts.map fun f => v f u).sum) (ts.map d).sum t := by
  induction ts with
  | nil => exact hasDerivAt_const t 0
  | cons f fs ih =>
      rw [List.forall_mem_cons] at h
      simp only [List.map_cons, List.sum_cons]
      exact HasDerivAt.fun_add h.1 (ih h.2)

theorem valueAt_of_isZero (h : Polynomial N e) (hzero : e.isZero = true) : e.valueAt s = 0 := by
  cases h with
  | number q => simpa [isZero] using hzero
  | _ => cases hzero

/-- A term of the product rule: the factor in the middle is replaced by its
derivative. -/
def ruleTerm (p : (List Expr × Expr × List Expr) × Expr) : Option Expr :=
  if p.2.isZero then none else some (chain (p.1.1 ++ p.2 :: p.1.2.2))

theorem productRule_eq (fs ds : List Expr) :
    productRule fs ds = sumOf (((splits [] fs).zip ds).filterMap ruleTerm) := rfl

/-- The terms of the product rule, behind factors that are not differentiated. -/
theorem productRule_terms (D : Expr → Expr) (before fs : List Expr)
    (hbefore : ∀ f ∈ before, Polynomial N f) (hfs : ∀ f ∈ fs, Polynomial N f ∧ Polynomial N (D f)) :
    (∀ t ∈ ((splits before fs).zip (fs.map D)).filterMap ruleTerm, Polynomial N t) ∧ ∀ s,
      ((((splits before fs).zip (fs.map D)).filterMap ruleTerm).map (valueAt s)).sum =
        (before.map (valueAt s)).prod * slopeOf (fs.map fun f => (f.valueAt s, (D f).valueAt s)) := by
  induction fs generalizing before with
  | nil => simp [splits, slopeOf]
  | cons f fs ih =>
      rw [List.forall_mem_cons] at hfs
      obtain ⟨hpolynomial, hvalue⟩ := ih (before ++ [f])
        (by simpa [or_imp, forall_and] using ⟨hbefore, hfs.1.1⟩) hfs.2
      have hstep (s : String → ℚ) : ((before ++ [f]).map (valueAt s)).prod =
          (before.map (valueAt s)).prod * f.valueAt s := by simp
      rw [splits, List.map_cons, List.zip_cons_cons]
      cases hzero : (D f).isZero with
      | true =>
          have hskip : ruleTerm ((before, f, fs), D f) = none := by simp [ruleTerm, hzero]
          rw [List.filterMap_cons_none hskip]
          refine ⟨hpolynomial, fun s => ?_⟩
          have hD : (D f).valueAt s = 0 := valueAt_of_isZero hfs.1.2 hzero
          rw [hvalue, hstep, List.map_cons, slopeOf, hD]
          ring
      | false =>
          have hkeep : ruleTerm ((before, f, fs), D f) = some (chain (before ++ D f :: fs)) := by
            simp [ruleTerm, hzero]
          have hparts : ∀ g ∈ before ++ D f :: fs, Polynomial N g := by
            intro g hg
            rcases List.mem_append.1 hg with hg | hg
            · exact hbefore g hg
            · rcases List.mem_cons.1 hg with rfl | hg
              · exact hfs.1.2
              · exact (hfs.2 g hg).1
          obtain ⟨hchain, hworth⟩ := chain_polynomial hparts
          rw [List.filterMap_cons_some hkeep]
          refine ⟨List.forall_mem_cons.2 ⟨hchain, hpolynomial⟩, fun s => ?_⟩
          rw [List.map_cons, List.sum_cons, hvalue, hstep, hworth, List.map_cons, slopeOf, List.map_map]
          simp only [List.map_append, List.prod_append, List.map_cons, List.prod_cons,
            Function.comp_def]
          ring

/-! ### Derivatives -/

/-- The derivative by a symbol that does not occur is zero. -/
theorem zero_polynomial_of_not_mentions (h : Polynomial N e) (hx : e.mentions x = false) :
    Polynomial N zero ∧ ∀ s : String → ℚ,
      HasDerivAt (fun t => e.valueAt (update s x t)) (zero.valueAt s) (s x) := by
  refine ⟨polynomial_zero, fun s => ?_⟩
  simp only [valueAt_update h hx, valueAt_zero]
  exact hasDerivAt_const (s x) _

/-- The derivative of a polynomial is a polynomial that gives the slope of its
values. -/
theorem derivative_polynomial (h : Polynomial N e) (x : String) :
    Polynomial N (e.derivative x) ∧ ∀ s : String → ℚ,
      HasDerivAt (fun t => e.valueAt (update s x t)) ((e.derivative x).valueAt s) (s x) := by
  induction h with
  | number q =>
      exact ⟨polynomial_zero, fun s => by simpa [derivative] using hasDerivAt_const (s x) q⟩
  | @symbol y r hy =>
      rw [derivative]
      split
      · rename_i hxy
        refine ⟨polynomial_one, fun s => ?_⟩
        simp only [hxy, valueAt_symbol, Function.update_self, valueAt_one]
        exact hasDerivAt_id' (s x)
      · rename_i hxy
        exact zero_polynomial_of_not_mentions (.symbol r hy) (by simpa [mentions] using hxy)
  | @sum ts hne h ih =>
      rw [derivative, derivatives_eq]
      have hterms : ∀ d ∈ ts.map (derivative x), Polynomial N d := by
        simpa using fun t ht => (ih t ht).1
      obtain ⟨hpolynomial, hvalue⟩ := sumOf_polynomial hterms
      refine ⟨hpolynomial, fun s => ?_⟩
      simp only [hvalue, valueAt_sum, List.map_map]
      exact hasDerivAt_sum ts (fun u t => u.valueAt (update s x t))
        (fun u => (u.derivative x).valueAt s) (s x) fun u hu => (ih u hu).2 s
  | @product f fs hne h hflat hnumber ih =>
      rw [derivative]
      split
      · obtain ⟨hterms, hslope⟩ := productRule_terms (N := N) (derivative x) [] (f :: fs)
          (by simp) fun g hg => ⟨h g hg, (ih g hg).1⟩
        rw [productRule_eq, derivatives_eq]
        obtain ⟨hpolynomial, hvalue⟩ := sumOf_polynomial hterms
        refine ⟨hpolynomial, fun s => ?_⟩
        have hproduct := hasDerivAt_prod (f :: fs) (fun g t => g.valueAt (update s x t))
          (fun g => (g.derivative x).valueAt s) (s x) fun g hg => (ih g hg).2 s
        rw [hvalue, hslope]
        simpa using hproduct
      · rename_i hmentions
        exact zero_polynomial_of_not_mentions (.product hne h hflat hnumber)
          (by simpa [mentions] using hmentions)
  | @power b n h hbase hn ih =>
      rw [derivative]
      split
      · have hexponent : (ofInt n).derivative x = zero := rfl
        obtain ⟨hpolynomial, hvalue⟩ := powerRule_polynomial hn h hbase ih.1
        rw [hexponent]
        refine ⟨hpolynomial, fun s => ?_⟩
        simp only [valueAt_power, zpow_natCast, hvalue]
        refine (HasDerivAt.fun_pow (ih.2 s) n).congr_deriv ?_
        rw [Function.update_eq_self]
      · rename_i hmentions
        exact zero_polynomial_of_not_mentions (.power h hbase hn)
          (by simpa [mentions] using hmentions)

end Gantry.Algebra.Expr
