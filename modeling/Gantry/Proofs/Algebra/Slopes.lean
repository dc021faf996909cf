import Gantry.Proofs.Algebra.Derivative
import Gantry.Proofs.Algebra.Functions

/-!
Derivatives of well-formed expressions are well-formed. Impulses may be among
their nodes.
-/

namespace Gantry.Algebra.Expr

variable {a b d e : Expr} {es ds fs : List Expr}

/-! ### Rules -/

theorem wellFormed_square (he : e.WellFormed) : (square e).WellFormed :=
  wellFormed_powerOf he (wellFormed_ofInt 2)

theorem wellFormed_chain (h : ∀ e ∈ es, e.WellFormed) : (chain es).WellFormed := by
  suffices hfold : ∀ acc : Expr, acc.WellFormed →
      (es.foldl (fun acc e => productOf [acc, e]) acc).WellFormed from hfold one wellFormed_one
  induction es with
  | nil => exact fun _ hacc => hacc
  | cons e es ih =>
      rw [List.forall_mem_cons] at h
      exact fun acc hacc => ih h.2 _ (wellFormed_productOf_pair hacc h.1)

/-- What a list is split into is the list. -/
theorem forall_mem_of_mem_splits {p : List Expr × Expr × List Expr} (hes : ∀ e ∈ es, e.WellFormed)
    (h : ∀ f ∈ fs, f.WellFormed) (hp : p ∈ splits es fs) :
    p.2.1.WellFormed ∧ ∀ f ∈ p.1 ++ p.2.2, f.WellFormed := by
  induction fs generalizing es with
  | nil => cases hp
  | cons f fs ih =>
      rw [List.forall_mem_cons] at h
      rw [splits] at hp
      obtain rfl | hp := List.mem_cons.1 hp
      · exact ⟨h.1, List.forall_mem_append.2 ⟨hes, h.2⟩⟩
      · exact ih (List.forall_mem_append.2 ⟨hes, List.forall_mem_singleton.2 h.1⟩) h.2 hp

theorem wellFormed_productRule (hfs : ∀ f ∈ fs, f.WellFormed) (hds : ∀ d ∈ ds, d.WellFormed) :
    (productRule fs ds).WellFormed := by
  refine wellFormed_sumOf fun e he => ?_
  obtain ⟨⟨p, d⟩, hpd, he⟩ := List.mem_filterMap.1 he
  obtain ⟨hp, hd⟩ := List.of_mem_zip hpd
  obtain ⟨-, hothers⟩ := forall_mem_of_mem_splits (by simp) hfs hp
  rw [List.forall_mem_append] at hothers
  rw [Option.ite_none_left_eq_some] at he
  refine Option.some.inj he.2 ▸ wellFormed_chain (List.forall_mem_append.2 ⟨hothers.1, ?_⟩)
  exact List.forall_mem_cons.2 ⟨hds d hd, hothers.2⟩

theorem wellFormed_powerRule (hb : b.WellFormed) (he : e.WellFormed) (ha : a.WellFormed)
    (hd : d.WellFormed) : (powerRule b e a d).WellFormed := by
  have hlog : (applied .log [b]).WellFormed := wellFormed_applied trivial (by simpa using hb)
  have hgrown := wellFormed_productOf_pair hd hlog
  have hscaled := wellFormed_quotientOf (wellFormed_productOf_pair ha he) hb
  exact wellFormed_productOf_pair (wellFormed_power.2 ⟨hb, he⟩)
    (wellFormed_sumOf (by simpa using ⟨hgrown, hscaled⟩))

theorem wellFormed_impulse (ha : a.WellFormed) : (applied .impulse [a]).WellFormed :=
  wellFormed_applied trivial (by simpa using ha)

theorem wellFormed_slope {f : Head} (he : e.WellFormed) (ha : a.WellFormed) :
    (slope f e a).WellFormed := by
  have happly {f : Head} (hf : f.Named) : (applied f [a]).WellFormed :=
    wellFormed_applied hf (List.forall_mem_singleton.2 ha)
  have hpair {e : Expr} (he : e.WellFormed) : (sumOf [one, e]).WellFormed :=
    wellFormed_sumOf (by simpa using he)
  unfold slope
  split
  · exact he
  · exact wellFormed_quotientOf wellFormed_one ha
  · exact happly (f := .cos) trivial
  · exact wellFormed_negated (happly (f := .sin) trivial)
  · exact hpair (wellFormed_square he)
  · exact wellFormed_quotientOf wellFormed_one (wellFormed_coSine ha)
  · exact wellFormed_quotientOf wellFormed_minusOne (wellFormed_coSine ha)
  · exact wellFormed_quotientOf wellFormed_one (hpair (wellFormed_square ha))
  · exact happly (f := .cosh) trivial
  · exact happly (f := .sinh) trivial
  · exact wellFormed_minus wellFormed_one (wellFormed_square (happly (f := .tanh) trivial))
  · exact wellFormed_impulse ha

theorem wellFormed_extremumSlope (isLarger : Bool) (ha : a.WellFormed)
    (h : ∀ e ∈ es, e.WellFormed) : (extremumSlope isLarger a es).WellFormed := by
  have hrest := wellFormed_extremumOf isLarger h
  unfold extremumSlope
  refine wellFormed_applied trivial (List.forall_mem_singleton.2 ?_)
  exact wellFormed_ite (wellFormed_minus ha hrest) (wellFormed_minus hrest ha)

theorem wellFormed_functionRule {f : Head} (hf : f.Named)
    (hes : ∀ e ∈ es, e.WellFormed) (hds : ∀ d ∈ ds, d.WellFormed) :
    (functionRule f es ds).WellFormed := by
  have hextremum (isLarger : Bool) : ∀ e ∈ (splits [] es).map fun p =>
      extremumSlope isLarger p.2.1 (p.1 ++ p.2.2), e.WellFormed := by
    refine List.forall_mem_map.2 fun p hp => ?_
    obtain ⟨ha, hothers⟩ := forall_mem_of_mem_splits (by simp) hes hp
    exact wellFormed_extremumSlope isLarger ha hothers
  -- One slope for each operand, whichever function it is.
  have hrule (partials : List Expr) (hpartials : ∀ p ∈ partials, p.WellFormed) :
      (sumOf ((partials.zip ds).filterMap fun p =>
        if p.2.isZero then none else some (productOf [p.1, p.2]))).WellFormed := by
    refine wellFormed_sumOf (List.forall_mem_filterMap.2 fun p hpd e he => ?_)
    obtain ⟨hp, hd⟩ := List.of_mem_zip hpd
    rw [Option.ite_none_left_eq_some] at he
    exact Option.some.inj he.2 ▸ wellFormed_productOf_pair (hpartials p.1 hp) (hds p.2 hd)
  unfold functionRule
  refine hrule _ ?_
  split
  · next y x =>
    have hy : y.WellFormed := hes y (by simp)
    have hx : x.WellFormed := hes x (by simp)
    have hr : (sumOf [square x, square y]).WellFormed :=
      wellFormed_sumOf (by simpa using ⟨wellFormed_square hx, wellFormed_square hy⟩)
    simpa using ⟨wellFormed_quotientOf hx hr, wellFormed_quotientOf (wellFormed_negated hy) hr⟩
  · exact hextremum true
  · exact hextremum false
  · have ha := List.forall_mem_singleton.1 hes
    exact List.forall_mem_singleton.2 (wellFormed_slope (wellFormed_unary hf ha) ha)
  · intro e he
    obtain ⟨a, ha, rfl⟩ := List.mem_map.1 he
    exact wellFormed_impulse (hes a ha)

/-! ### Derivatives -/

theorem wellFormed_derivative (h : e.WellFormed) (x : String) :
    (e.derivative x).WellFormed := by
  induction h with
  | @intro e node children ih =>
      have hderivatives : ∀ d ∈ derivatives x e.children, d.WellFormed := by
        rw [derivatives_eq]
        exact List.forall_mem_map.2 ih
      cases e with
      | number c => exact wellFormed_zero
      | constant c => exact wellFormed_zero
      | symbol y r => exact wellFormed_ite wellFormed_one wellFormed_zero
      | sum ts =>
          rw [derivative]
          exact wellFormed_sumOf hderivatives
      | product fs =>
          rw [derivative]
          exact wellFormed_ite (wellFormed_productRule children hderivatives) wellFormed_zero
      | power b e =>
          rw [derivative]
          exact wellFormed_ite (wellFormed_powerRule (children b (by simp [Expr.children]))
            (children e (by simp [Expr.children])) (ih b (by simp [Expr.children]))
            (ih e (by simp [Expr.children]))) wellFormed_zero
      | apply f args =>
          have hrule := wellFormed_functionRule node children hderivatives
          by_cases habs : ∃ a, f = .abs ∧ args = [a]
          · obtain ⟨a, rfl, rfl⟩ := habs
            have hsign : (applied .sign [a]).WellFormed := wellFormed_applied trivial children
            rw [derivative]
            exact wellFormed_ite (wellFormed_productOf_pair (ih a List.mem_cons_self) hsign)
              wellFormed_zero
          · rw [derivative]
            · exact wellFormed_ite hrule wellFormed_zero
            · exact fun a hf hargs => habs ⟨a, hf, hargs⟩

end Gantry.Algebra.Expr
