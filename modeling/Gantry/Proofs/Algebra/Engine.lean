import Gantry.Algebra.Engine
import Gantry.Proofs.Algebra.Derivative
import Gantry.Proofs.Algebra.Readers
import Gantry.Proofs.Algebra.Slopes

/-!
What the algebra has to do with the shapes of expressions and with their values.
One that keeps their shape makes well-formed expressions of well-formed ones,
whatever else it makes of them; one that keeps their values makes polynomials of
polynomials, with the values that are asked for. The standard one does both.
Gradients are made by its operations from derivatives, so they are well-formed
too, and partial derivatives if they are of polynomials.
-/

namespace Gantry.Algebra.Engine

variable {N : String → Prop} {a b e : Expr} {es : List Expr}

/-! ### Keeping the shape -/

/-- An algebra makes well-formed expressions of well-formed ones, and of the
texts of formulas. -/
structure KeepsShape [Engine] : Prop where
  sumOf : ∀ {es : List Expr}, (∀ e ∈ es, e.WellFormed) → (Engine.sumOf es).WellFormed
  productOf : ∀ {es : List Expr}, (∀ e ∈ es, e.WellFormed) → (Engine.productOf es).WellFormed
  powerOf : ∀ {b e : Expr}, b.WellFormed → e.WellFormed → (Engine.powerOf b e).WellFormed
  negated : ∀ {e : Expr}, e.WellFormed → (Engine.negated e).WellFormed
  applied : ∀ {f : Head} {es : List Expr}, f.Named → (∀ e ∈ es, e.WellFormed) →
    (Engine.applied f es).WellFormed
  derivative : ∀ (x : String) {e : Expr}, e.WellFormed → (Engine.derivative x e).WellFormed
  read : ∀ {known : List (String × Expr)} {s : String} {f : Formula} {e : Expr},
    Formula.parse s = .ok f → (∀ p ∈ known, p.2.WellFormed) → Engine.read known s = .ok e →
    e.WellFormed

theorem keepsShape_standard : @KeepsShape Engine.standard where
  sumOf := Expr.wellFormed_sumOf
  productOf := Expr.wellFormed_productOf
  powerOf := Expr.wellFormed_powerOf
  negated := Expr.wellFormed_negated
  applied := Expr.wellFormed_applied
  derivative x _ h := Expr.wellFormed_derivative h x
  read hs hknown h := Expr.wellFormed_read hknown hs h

theorem forall_mem_dropAllImpulses [Engine] (hes : ∀ e ∈ es, (dropImpulses e).1.WellFormed) :
    ∀ e ∈ (dropAllImpulses es).1, e.WellFormed := by
  induction es with
  | nil => simp [dropAllImpulses]
  | cons e es ih =>
      rw [List.forall_mem_cons] at hes
      rw [dropAllImpulses]
      exact List.forall_mem_cons.2 ⟨hes.1, ih hes.2⟩

namespace KeepsShape

variable [Engine] (h : KeepsShape)

include h

theorem unary {f : Head} (hf : f.Named) (he : e.WellFormed) : (Engine.applied f [e]).WellFormed :=
  h.applied hf (List.forall_mem_singleton.2 he)

theorem sumOf_pair (ha : a.WellFormed) (hb : b.WellFormed) : (Engine.sumOf [a, b]).WellFormed :=
  h.sumOf (List.forall_mem_cons.2 ⟨ha, List.forall_mem_singleton.2 hb⟩)

theorem productOf_pair (ha : a.WellFormed) (hb : b.WellFormed) :
    (Engine.productOf [a, b]).WellFormed :=
  h.productOf (List.forall_mem_cons.2 ⟨ha, List.forall_mem_singleton.2 hb⟩)

theorem minus (ha : a.WellFormed) (hb : b.WellFormed) : (Engine.minus a b).WellFormed :=
  h.sumOf_pair ha (h.negated hb)

theorem quotientOf (ha : a.WellFormed) (hb : b.WellFormed) : (Engine.quotientOf a b).WellFormed :=
  have hpower := h.powerOf hb Expr.wellFormed_minusOne
  Expr.wellFormed_ite hpower (h.productOf_pair ha hpower)

/-- What is changed is put together again; what is not changed is as before. -/
theorem dropImpulses (he : e.WellFormed) : (Engine.dropImpulses e).1.WellFormed := by
  induction he with
  | @intro e node children ih =>
      have hself : e.WellFormed := .intro node children
      have hparts := forall_mem_dropAllImpulses ih
      cases e with
      | sum ts =>
          rw [Engine.dropImpulses]
          exact Expr.wellFormed_ite (h.sumOf hparts) hself
      | product fs =>
          rw [Engine.dropImpulses]
          exact Expr.wellFormed_ite (h.productOf hparts) hself
      | power b e =>
          have hb := ih b (by simp [Expr.children])
          have he := ih e (by simp [Expr.children])
          rw [Engine.dropImpulses]
          exact Expr.wellFormed_ite (h.powerOf hb he) hself
      | apply f args =>
          by_cases hf : f = .impulse
          · subst hf
            exact Expr.wellFormed_zero
          · rw [Engine.dropImpulses]
            · exact Expr.wellFormed_ite (h.applied node hparts) hself
            · exact hf
      | _ => exact hself

theorem gradient (he : e.WellFormed) (x : String) : (Engine.gradient x e).WellFormed :=
  h.dropImpulses (h.derivative x he)

end KeepsShape

/-! ### Keeping values -/

/-- An algebra makes polynomials of polynomials, which have the values that are
asked for. -/
structure KeepsValues [Engine] : Prop where
  sumOf : ∀ {N : String → Prop} {es : List Expr}, (∀ e ∈ es, e.Polynomial N) →
    (Engine.sumOf es).Polynomial N ∧
      ∀ s, (Engine.sumOf es).valueAt s = (es.map (Expr.valueAt s)).sum
  productOf : ∀ {N : String → Prop} {a b : Expr}, a.Polynomial N → b.Polynomial N →
    (Engine.productOf [a, b]).Polynomial N ∧
      ∀ s, (Engine.productOf [a, b]).valueAt s = a.valueAt s * b.valueAt s
  negated : ∀ {N : String → Prop} {e : Expr}, e.Polynomial N →
    (Engine.negated e).Polynomial N ∧ ∀ s, (Engine.negated e).valueAt s = -e.valueAt s
  square : ∀ {N : String → Prop} {e : Expr}, e.Polynomial N →
    (Engine.powerOf e (Expr.ofInt 2)).Polynomial N ∧
      ∀ s, (Engine.powerOf e (Expr.ofInt 2)).valueAt s = e.valueAt s ^ 2
  reciprocal : ∀ {N : String → Prop} {k : ℕ}, 0 < k →
    (Engine.powerOf (Expr.ofInt k) Expr.minusOne).Polynomial N ∧
      ∀ s, (Engine.powerOf (Expr.ofInt k) Expr.minusOne).valueAt s = 1 / k
  derivative : ∀ {N : String → Prop} {e : Expr} (x : String), e.Polynomial N →
    (Engine.derivative x e).Polynomial N ∧ ∀ s : String → ℚ,
      HasDerivAt (fun t => e.valueAt (Function.update s x t)) ((Engine.derivative x e).valueAt s) (s x)

theorem keepsValues_standard : @KeepsValues Engine.standard where
  sumOf := Expr.sumOf_polynomial
  productOf := Expr.productOf_polynomial
  negated := Expr.negated_polynomial
  square := Expr.square_polynomial
  reciprocal := Expr.reciprocal_polynomial
  derivative x h := Expr.derivative_polynomial h x

theorem dropAllImpulses_eq [Engine] (h : ∀ e ∈ es, dropImpulses e = (e, false)) :
    dropAllImpulses es = (es, false) := by
  induction es with
  | nil => rfl
  | cons e es ih =>
      rw [List.forall_mem_cons] at h
      rw [dropAllImpulses, h.1, ih h.2]
      rfl

/-- There are no impulses in a polynomial. -/
theorem dropImpulses_polynomial [Engine] (h : e.Polynomial N) : dropImpulses e = (e, false) := by
  induction h with
  | number q => rfl
  | symbol r hx => rfl
  | sum hne h ih => simp [dropImpulses, dropAllImpulses_eq ih]
  | product hne h hflat hnumber ih => simp [dropImpulses, dropAllImpulses_eq ih]
  | power h hbase hn ih =>
      have hexponent (n : ℕ) : dropImpulses (Expr.ofInt n) = (Expr.ofInt n, false) := rfl
      simp [dropImpulses, ih, hexponent]

namespace KeepsValues

variable [Engine] (h : KeepsValues)

include h

theorem minus (ha : a.Polynomial N) (hb : b.Polynomial N) : (Engine.minus a b).Polynomial N ∧
    ∀ s, (Engine.minus a b).valueAt s = a.valueAt s - b.valueAt s := by
  obtain ⟨hnegated, hopposite⟩ := h.negated hb
  have hsummands : ∀ e ∈ [a, Engine.negated b], e.Polynomial N := by simp [ha, hnegated]
  obtain ⟨hpolynomial, hvalue⟩ := h.sumOf hsummands
  exact ⟨hpolynomial, fun s => by rw [Engine.minus, hvalue]; simp [hopposite, sub_eq_add_neg]⟩

theorem quotientOf (ha : a.Polynomial N) {k : ℕ} (hk : 0 < k) :
    (Engine.quotientOf a (Expr.ofInt k)).Polynomial N ∧
      ∀ s, (Engine.quotientOf a (Expr.ofInt k)).valueAt s = a.valueAt s / k := by
  obtain ⟨hreciprocal, hinverse⟩ := h.reciprocal (N := N) hk
  rw [Engine.quotientOf]
  split
  · rename_i hone
    rw [Expr.isOne_eq_true_iff.1 hone]
    exact ⟨hreciprocal, fun s => by rw [hinverse, Expr.valueAt_one]⟩
  · obtain ⟨hpolynomial, hvalue⟩ := h.productOf ha hreciprocal
    exact ⟨hpolynomial, fun s => by rw [hvalue, hinverse, mul_one_div]⟩

/-- The gradient of a polynomial is its partial derivative. -/
theorem gradient (he : e.Polynomial N) (x : String) :
    (Engine.gradient x e).Polynomial N ∧ ∀ s : String → ℚ,
      HasDerivAt (fun t => e.valueAt (Function.update s x t)) ((Engine.gradient x e).valueAt s) (s x) := by
  have hderivative := h.derivative x he
  have hgradient : Engine.gradient x e = Engine.derivative x e := by
    rw [Engine.gradient, dropImpulses_polynomial hderivative.1]
  rw [hgradient]
  exact hderivative

/-- Affine functions of polynomials, with symbols for their coefficients. -/
theorem affine {ws : List String} {x : String} (hes : ∀ e ∈ es, e.Polynomial N)
    (hws : ∀ w ∈ x :: ws, N w) :
    (Engine.sumOf (List.zipWith (fun w e => Engine.productOf [.symbol w true, e]) ws es ++
        [.symbol x true])).Polynomial N ∧
      ∀ s, (Engine.sumOf (List.zipWith (fun w e => Engine.productOf [.symbol w true, e]) ws es ++
          [.symbol x true])).valueAt s =
        (List.zipWith (fun w e => s w * e.valueAt s) ws es).sum + s x := by
  have hproducts : ∀ p ∈ ws.zip es, (Engine.productOf [.symbol p.1 true, p.2]).Polynomial N ∧
      ∀ s, (Engine.productOf [.symbol p.1 true, p.2]).valueAt s = s p.1 * p.2.valueAt s := by
    rintro ⟨w, e⟩ hp
    obtain ⟨hw, he⟩ := List.of_mem_zip hp
    have hsymbol : (Expr.symbol w true).Polynomial N :=
      .symbol true (hws w (List.mem_cons_of_mem x hw))
    simpa using h.productOf hsymbol (hes e he)
  have hterms : ∀ t ∈ List.zipWith (fun w e => Engine.productOf [.symbol w true, e]) ws es ++
      [.symbol x true], t.Polynomial N := by
    intro t ht
    rw [← List.map_uncurry_zip_eq_zipWith] at ht
    rcases List.mem_append.1 ht with ht | ht
    · obtain ⟨p, hp, rfl⟩ := List.mem_map.1 ht
      exact (hproducts p hp).1
    · exact List.mem_singleton.1 ht ▸ .symbol true (hws x List.mem_cons_self)
  obtain ⟨hpolynomial, hvalue⟩ := h.sumOf hterms
  refine ⟨hpolynomial, fun s => ?_⟩
  rw [hvalue, List.map_append, List.sum_append, List.map_singleton, List.sum_singleton,
    Expr.valueAt_symbol, ← List.map_uncurry_zip_eq_zipWith, ← List.map_uncurry_zip_eq_zipWith,
    List.map_map]
  congr 2
  exact List.map_congr_left fun p hp => (hproducts p hp).2 s

end KeepsValues

end Gantry.Algebra.Engine
