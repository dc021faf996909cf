import Gantry.Proofs.Algebra.Polynomial

/-!
Sums of polynomials. Collecting like terms, distributing a number and taking
the opposite give polynomials with the values that the operations have.
-/

namespace Gantry.Algebra.Expr

variable {s : String → ℚ} {N : String → Prop} {e a b t : Expr} {es ts : List Expr} {c q : ℚ}

/-! ### Collecting terms -/

/-- The value of collected terms. -/
def worth (s : String → ℚ) (l : List (Expr × ℚ)) : ℚ := (l.map fun p => p.2 * p.1.valueAt s).sum

theorem worth_gather (s : String → ℚ) (t : Expr) (c : ℚ) (l : List (Expr × ℚ)) :
    worth s (gather t c l) = worth s l + c * t.valueAt s := by
  induction l with
  | nil => simp [gather, worth]
  | cons p l ih =>
      obtain ⟨u, d⟩ := p
      rw [gather]
      split
      · obtain rfl : u = t := eq_of_beq ‹_›
        simp only [worth, List.map_cons, List.sum_cons]
        ring
      · simp only [worth, List.map_cons, List.sum_cons] at ih ⊢
        rw [ih, add_assoc]

theorem add_exact (c d : ℚ) : (Coefficient.exact c).add (.exact d) = .exact (c + d) := rfl

/-- Collected terms with exact coefficients. -/
def exactly (q : ℚ) (l : List (Expr × ℚ)) : Collected := ⟨.exact q, l.map fun p => (p.1, .exact p.2)⟩

theorem forall_mem_gather {P : Expr → Prop} {l : List (Expr × ℚ)} (ht : P t)
    (h : ∀ p ∈ l, P p.1) : ∀ p ∈ gather t c l, P p.1 := by
  have hkeys : ∀ u ∈ (gather t c l).map Prod.fst, P u := by
    intro u hu
    rcases mem_keys_gather.1 hu with rfl | hu
    · exact ht
    · obtain ⟨p, hp, rfl⟩ := List.mem_map.1 hu
      exact h p hp
  exact fun p hp => hkeys p.1 (List.mem_map_of_mem hp)

theorem collect_exactly (q : ℚ) (l : List (Expr × ℚ)) (hl : ∀ p ∈ l, Bare N p.1)
    (h : ∀ t ∈ ts, Polynomial N t) :
    ∃ q' l', collect (exactly q l) ts = exactly q' l' ∧ (∀ p ∈ l', Bare N p.1) ∧
      ∀ s, q' + worth s l' = q + worth s l + (ts.map (valueAt s)).sum := by
  induction ts generalizing q l with
  | nil => exact ⟨q, l, rfl, hl, by simp⟩
  | cons t ts ih =>
      rw [List.forall_mem_cons] at h
      by_cases hnumber : t.isNumber = true
      · cases h.1 with
        | number c =>
            obtain ⟨q', l', hcollect, hl', hvalue⟩ := ih (q + c) l hl h.2
            refine ⟨q', l', hcollect, hl', fun s => ?_⟩
            rw [hvalue, List.map_cons, List.sum_cons, valueAt_number]
            ring
        | _ => cases hnumber
      · obtain ⟨c, u, hsplit, hu, hvalue⟩ := exists_split h.1 (by simpa using hnumber)
        have hstep : collect (exactly q l) (t :: ts) = collect (exactly q (gather u c l)) ts := by
          have hterms := addTerm_map add_exact u c l
          cases t with
          | number c => cases hnumber rfl
          | _ => simp only [collect, exactly, hsplit, hterms]
        obtain ⟨q', l', hcollect, hl', hvalue'⟩ :=
          ih q (gather u c l) (forall_mem_gather hu hl) h.2
        refine ⟨q', l', hstep.trans hcollect, hl', fun s => ?_⟩
        rw [hvalue', worth_gather, List.map_cons, List.sum_cons, hvalue]
        ring

/-- The terms that collected terms are written as. -/
theorem rebuilt_exactly {l : List (Expr × ℚ)} (hl : ∀ p ∈ l, Bare N p.1) :
    (∀ t ∈ (l.map fun p => (p.1, Coefficient.exact p.2)).filterMap rebuildTerm,
      Polynomial N t ∧ t.isNumber = false) ∧
    ∀ s, (((l.map fun p => (p.1, Coefficient.exact p.2)).filterMap rebuildTerm).map
      (valueAt s)).sum = worth s l := by
  induction l with
  | nil => simp [worth]
  | cons p l ih =>
      obtain ⟨t, c⟩ := p
      rw [List.forall_mem_cons] at hl
      obtain ⟨hpolynomial, hvalue⟩ := ih hl.2
      obtain ⟨ht, hnumber, hworth⟩ := withCoefficient_bare hl.1 c
      rw [List.map_cons]
      by_cases hc : c = 0
      · have hskip : rebuildTerm (t, .exact c) = none := by simp [rebuildTerm, hc]
        rw [List.filterMap_cons_none hskip]
        exact ⟨hpolynomial, fun s => by rw [hvalue]; simp [worth, hc]⟩
      · have hkeep : rebuildTerm (t, .exact c) = some (withCoefficient (.exact c) t) := by
          simp [rebuildTerm, hc]
        rw [List.filterMap_cons_some hkeep]
        refine ⟨List.forall_mem_cons.2 ⟨⟨ht, hnumber⟩, hpolynomial⟩, fun s => ?_⟩
        rw [List.map_cons, List.sum_cons, hvalue, hworth]
        simp [worth]

/-! ### Sums -/

theorem sum_values_filter_isZero (h : ∀ e ∈ es, Polynomial N e) (s : String → ℚ) :
    ((es.filter (!·.isZero)).map (valueAt s)).sum = (es.map (valueAt s)).sum := by
  induction es with
  | nil => rfl
  | cons e es ih =>
      rw [List.forall_mem_cons] at h
      cases hzero : e.isZero with
      | false => simp [hzero, ih h.2]
      | true =>
          have hvalue : e.valueAt s = 0 := by
            cases h.1 with
            | number q => simpa [isZero] using hzero
            | _ => cases hzero
          simp [hzero, ih h.2, hvalue]

theorem sum_values_flatMap_terms (es : List Expr) (s : String → ℚ) :
    ((es.flatMap terms).map (valueAt s)).sum = (es.map (valueAt s)).sum := by
  induction es with
  | nil => rfl
  | cons e es ih => simp [sum_values_terms, ih]

/-- A sum of polynomials is a polynomial with the sum of their values. -/
theorem sumOf_polynomial (h : ∀ e ∈ es, Polynomial N e) :
    Polynomial N (sumOf es) ∧ ∀ s, (sumOf es).valueAt s = (es.map (valueAt s)).sum := by
  have hsome : ∀ e ∈ es.filter (!·.isZero), Polynomial N e :=
    fun e he => h e (List.mem_filter.1 he).1
  have hvalues := sum_values_filter_isZero h
  unfold sumOf
  split
  · rename_i heq
    exact ⟨polynomial_zero, fun s => by rw [← hvalues, heq]; simp⟩
  · rename_i e heq
    exact ⟨hsome e (by simp [heq]), fun s => by rw [← hvalues, heq]; simp⟩
  · have hterms : ∀ t ∈ (es.filter (!·.isZero)).flatMap terms, Polynomial N t := by
      intro t ht
      obtain ⟨e, he, ht⟩ := List.mem_flatMap.1 ht
      exact (hsome e he).terms t ht
    obtain ⟨q, l, hcollect, hl, hvalue⟩ := collect_exactly 0 [] (by simp) hterms
    obtain ⟨hrebuilt, hworth⟩ := rebuilt_exactly hl
    have htotal (s : String → ℚ) : q + worth s l = (es.map (valueAt s)).sum := by
      rw [hvalue, sum_values_flatMap_terms, hvalues]
      simp [worth]
    have hcollect' : collect ⟨.zero, []⟩ ((es.filter (!·.isZero)).flatMap terms) = exactly q l :=
      hcollect
    have hdefined : ((exactly q l).number == .undefined ||
        (exactly q l).terms.any (·.2 == .undefined)) = false := by
      simp [exactly]
    have hkept : ((exactly q l).terms.filterMap rebuildTerm).filter
        (!absorbed (exactly q l).number ·) = (exactly q l).terms.filterMap rebuildTerm :=
      List.filter_eq_self.2 fun t _ => by simp [exactly, absorbed]
    simp only [hcollect', hdefined, hkept]
    split
    · cases ‹false = true›
    · split
      · rename_i hzero
        have hq : q = 0 := by simpa [exactly] using hzero
        refine ⟨polynomial_ofTerms fun t ht => (hrebuilt t (mem_sortParts.1 ht)).1, fun s => ?_⟩
        rw [valueAt_ofTerms, sum_values_sortParts, ← htotal, hq, zero_add]
        exact hworth s
      · refine ⟨polynomial_ofTerms ?_, fun s => ?_⟩
        · exact List.forall_mem_cons.2
            ⟨.number q, fun t ht => (hrebuilt t (mem_sortParts.1 ht)).1⟩
        · rw [valueAt_ofTerms, List.map_cons, List.sum_cons, sum_values_sortParts, ← htotal]
          exact congrArg₂ (· + ·) (valueAt_number q) (hworth s)

/-! ### Multiples -/

theorem scaleTerm_polynomial (h : Polynomial N t) (c : ℚ) :
    Polynomial N (scaleTerm (.exact c) t) ∧
      ∀ s, (scaleTerm (.exact c) t).valueAt s = c * t.valueAt s := by
  by_cases hnumber : t.isNumber = true
  · cases h with
    | number q => exact ⟨.number (c * q), fun s => by simp [scaleTerm, Coefficient.mul]⟩
    | _ => cases hnumber
  · obtain ⟨d, u, hsplit, hu, hvalue⟩ := exists_split h (by simpa using hnumber)
    have hscale : scaleTerm (.exact c) t = withCoefficient (.exact (c * d)) u := by
      cases t with
      | number c => cases hnumber rfl
      | _ => simp only [scaleTerm, hsplit, Coefficient.mul]
    obtain ⟨hpolynomial, -, hworth⟩ := withCoefficient_bare hu (c * d)
    rw [hscale]
    exact ⟨hpolynomial, fun s => by rw [hworth, hvalue, mul_assoc]⟩

/-- The numbers among terms, and their sum. -/
theorem exists_sum_numbers (h : ∀ t ∈ ts, Polynomial N t) :
    ∃ q, (ts.filterMap number?).foldl Coefficient.add .zero = .exact q ∧ ∀ s,
      q + ((ts.filter fun t => t.number?.isNone).map (valueAt s)).sum = (ts.map (valueAt s)).sum := by
  suffices hfold : ∀ q₀ : ℚ, ∃ q, (ts.filterMap number?).foldl Coefficient.add (.exact q₀) = .exact q ∧
      ∀ s, q + ((ts.filter fun t => t.number?.isNone).map (valueAt s)).sum =
        q₀ + (ts.map (valueAt s)).sum by
    obtain ⟨q, hq, hvalue⟩ := hfold 0
    exact ⟨q, hq, fun s => by rw [hvalue, zero_add]⟩
  induction ts with
  | nil => exact fun q₀ => ⟨q₀, rfl, by simp⟩
  | cons t ts ih =>
      intro q₀
      rw [List.forall_mem_cons] at h
      by_cases hnumber : t.isNumber = true
      · cases h.1 with
        | number c =>
            have hc : (number (.exact c)).number? = some (.exact c) := rfl
            obtain ⟨q, hq, hvalue⟩ := ih h.2 (q₀ + c)
            refine ⟨q, ?_, fun s => ?_⟩
            · rw [List.filterMap_cons_some hc, List.foldl_cons]
              exact hq
            · rw [List.filter_cons_of_neg (by simp [hc]), hvalue, List.map_cons, List.sum_cons,
                valueAt_number, add_assoc]
        | _ => cases hnumber
      · have hnone : t.number? = none := by
          cases t with
          | number c => cases hnumber rfl
          | _ => rfl
        obtain ⟨q, hq, hvalue⟩ := ih h.2 q₀
        refine ⟨q, by rw [List.filterMap_cons_none hnone]; exact hq, fun s => ?_⟩
        rw [List.filter_cons_of_pos (by simp [hnone]), List.map_cons, List.sum_cons, List.map_cons,
          List.sum_cons, add_left_comm, hvalue, add_left_comm]

/-- A number distributed over terms multiplies their sum. -/
theorem distribute_polynomial (h : ∀ t ∈ ts, Polynomial N t) (c : ℚ) :
    Polynomial N (distribute (.exact c) ts) ∧
      ∀ s, (distribute (.exact c) ts).valueAt s = c * (ts.map (valueAt s)).sum := by
  have hscaled : ∀ t ∈ ts.map (scaleTerm (.exact c)), Polynomial N t := by
    intro t ht
    obtain ⟨u, hu, rfl⟩ := List.mem_map.1 ht
    exact (scaleTerm_polynomial (h u hu) c).1
  have hsum (s : String → ℚ) : ((ts.map (scaleTerm (.exact c))).map (valueAt s)).sum =
      c * (ts.map (valueAt s)).sum := by
    rw [List.map_map, ← List.sum_map_mul_left]
    exact congrArg List.sum (List.map_congr_left fun t ht => (scaleTerm_polynomial (h t ht) c).2 s)
  obtain ⟨q, hq, hvalue⟩ := exists_sum_numbers hscaled
  have hothers : ∀ t ∈ sortParts ((ts.map (scaleTerm (.exact c))).filter fun t => t.number?.isNone),
      Polynomial N t := fun t ht => hscaled t (List.mem_filter.1 (mem_sortParts.1 ht)).1
  simp only [distribute, hq]
  split
  · rename_i hzero
    have hq : q = 0 := by simpa using hzero
    refine ⟨polynomial_ofTerms hothers, fun s => ?_⟩
    rw [valueAt_ofTerms, sum_values_sortParts, ← hsum, ← hvalue, hq, zero_add]
  · refine ⟨polynomial_ofTerms (List.forall_mem_cons.2 ⟨.number q, hothers⟩), fun s => ?_⟩
    rw [valueAt_ofTerms, List.map_cons, List.sum_cons, sum_values_sortParts, valueAt_number, hvalue,
      hsum]

theorem scale_polynomial (h : Polynomial N e) (c : ℚ) :
    Polynomial N (scale (.exact c) e) ∧ ∀ s, (scale (.exact c) e).valueAt s = c * e.valueAt s := by
  by_cases hc : c = 1
  · simpa [scale, hc] using h
  · have hone : (Coefficient.exact c).isOne = false := by simpa using hc
    have hterm := scaleTerm_polynomial h c
    cases h with
    | sum hne h => simpa [scale, hone] using distribute_polynomial h c
    | _ => simpa [scale, hone] using hterm

theorem negated_polynomial (h : Polynomial N e) :
    Polynomial N (negated e) ∧ ∀ s, (negated e).valueAt s = -e.valueAt s := by
  obtain ⟨hpolynomial, hvalue⟩ := scale_polynomial h (-1)
  have hscale : negated e = scale (.exact (-1)) e := by simp [negated, Coefficient.ofInt]
  rw [hscale]
  exact ⟨hpolynomial, fun s => by rw [hvalue, neg_one_mul]⟩

theorem minus_polynomial (ha : Polynomial N a) (hb : Polynomial N b) :
    Polynomial N (minus a b) ∧ ∀ s, (minus a b).valueAt s = a.valueAt s - b.valueAt s := by
  obtain ⟨hnegated, hopposite⟩ := negated_polynomial hb
  have hsummands : ∀ e ∈ [a, negated b], Polynomial N e := by simp [ha, hnegated]
  obtain ⟨hpolynomial, hvalue⟩ := sumOf_polynomial hsummands
  exact ⟨hpolynomial, fun s => by rw [minus, hvalue]; simp [hopposite, sub_eq_add_neg]⟩

end Gantry.Algebra.Expr
