import Gantry.Algebra.Function
import Gantry.Proofs.Algebra.Forms

/-!
Functions of well-formed expressions are well-formed. A function is applied
with as many operands as it takes, or is replaced by an expression that is made
of its operands.
-/

namespace Gantry.Algebra.Expr

variable {a b e x y : Expr} {es ts : List Expr}

/-! ### Trigonometric functions -/

@[simp] theorem wellFormed_pi : pi.WellFormed := wellFormed_constant

@[simp] theorem wellFormed_rational (q : Rat) : (rational q).WellFormed := wellFormed_number

theorem wellFormed_coSine (hx : x.WellFormed) : (coSine x).WellFormed :=
  wellFormed_sqrtOf (wellFormed_minus wellFormed_one (wellFormed_powerOf hx (wellFormed_ofInt 2)))

theorem wellFormed_rootOnePlusSquare (hx : x.WellFormed) : (rootOnePlusSquare x).WellFormed :=
  wellFormed_sqrtOf (wellFormed_sumOf
    (by simpa using wellFormed_powerOf hx (wellFormed_ofInt 2)))

theorem wellFormed_sineAt? {q : Rat} (h : sineAt? q = some e) : e.WellFormed := by
  have hroot (k : Int) : (productOf [half, sqrtOf (ofInt k)]).WellFormed :=
    wellFormed_productOf_pair wellFormed_half (wellFormed_sqrtOf (wellFormed_ofInt k))
  have hsize (r : Rat) {v : Expr} (hv : (if r = 0 then some zero
      else if r = 1 / 6 then some half
      else if r = 1 / 4 then some (productOf [half, sqrtOf (ofInt 2)])
      else if r = 1 / 3 then some (productOf [half, sqrtOf (ofInt 3)])
      else if r = 1 / 2 then some one
      else none) = some v) : v.WellFormed := by
    split at hv
    · exact Option.some.inj hv ▸ wellFormed_zero
    · split at hv
      · exact Option.some.inj hv ▸ wellFormed_half
      · split at hv
        · exact Option.some.inj hv ▸ hroot 2
        · split at hv
          · exact Option.some.inj hv ▸ hroot 3
          · split at hv
            · exact Option.some.inj hv ▸ wellFormed_one
            · cases hv
  obtain ⟨v, hv, rfl⟩ := Option.map_eq_some_iff.1 h
  exact wellFormed_ite (wellFormed_negated (hsize _ hv)) (hsize _ hv)

theorem wellFormed_cosineAt? {q : Rat} (h : cosineAt? q = some e) : e.WellFormed :=
  wellFormed_sineAt? h

theorem wellFormed_of_quarterTurns? {m : Rat} (hts : ∀ t ∈ ts, t.WellFormed)
    (h : quarterTurns? ts = some (m, e)) : e.WellFormed := by
  unfold quarterTurns? at h
  split at h
  · dsimp only at h
    split at h
    · cases h
    · obtain rfl := (Prod.mk.inj (Option.some.inj h)).2
      refine wellFormed_sumOf (List.forall_mem_cons.2 ⟨?_, fun t ht => ?_⟩)
      · exact wellFormed_productOf_pair (wellFormed_rational _) wellFormed_pi
      · exact hts t (List.mem_of_mem_filter ht)
  · cases h

theorem wellFormed_oddly {f : Expr → Expr} (hf : ∀ {a : Expr}, a.WellFormed → (f a).WellFormed)
    (ha : a.WellFormed) : (oddly f a).WellFormed :=
  wellFormed_ite (wellFormed_negated (hf (wellFormed_negated ha))) (hf ha)

theorem wellFormed_evenly {f : Expr → Expr} (hf : ∀ {a : Expr}, a.WellFormed → (f a).WellFormed)
    (ha : a.WellFormed) : (evenly f a).WellFormed :=
  wellFormed_ite (hf (wellFormed_negated ha)) (hf ha)

theorem wellFormed_sine (ha : a.WellFormed) : (sine a).WellFormed := by
  have hself {a : Expr} (ha : a.WellFormed) : (apply .sin [a]).WellFormed := wellFormed_unary trivial ha
  have hcos {a : Expr} (ha : a.WellFormed) : (apply .cos [a]).WellFormed := wellFormed_unary trivial ha
  unfold sine
  split
  · exact wellFormed_operand ha
  · exact wellFormed_coSine (wellFormed_operand ha)
  · exact wellFormed_quotientOf (wellFormed_operand ha)
      (wellFormed_rootOnePlusSquare (wellFormed_operand ha))
  · split
    · next hturns =>
      have hrest := wellFormed_of_quarterTurns? (wellFormed_sum.1 ha).2 hturns
      split
      · next hs hc =>
        refine wellFormed_sumOf (List.forall_mem_cons.2 ⟨?_, List.forall_mem_singleton.2 ?_⟩)
        · exact wellFormed_productOf_pair (wellFormed_sineAt? hs) (wellFormed_evenly hcos hrest)
        · exact wellFormed_productOf_pair (wellFormed_cosineAt? hc) (wellFormed_oddly hself hrest)
      · exact hself ha
    · exact hself ha
  · refine wellFormed_ite wellFormed_zero ?_
    cases h : (halfTurns? _).bind sineAt? with
    | none => exact hself ha
    | some v =>
        obtain ⟨q, -, hq⟩ := Option.bind_eq_some_iff.1 h
        exact wellFormed_sineAt? hq

theorem wellFormed_cosine (ha : a.WellFormed) : (cosine a).WellFormed := by
  have hself {a : Expr} (ha : a.WellFormed) : (apply .cos [a]).WellFormed := wellFormed_unary trivial ha
  have hsin {a : Expr} (ha : a.WellFormed) : (apply .sin [a]).WellFormed := wellFormed_unary trivial ha
  unfold cosine
  split
  · exact wellFormed_operand ha
  · exact wellFormed_coSine (wellFormed_operand ha)
  · exact wellFormed_quotientOf wellFormed_one (wellFormed_rootOnePlusSquare (wellFormed_operand ha))
  · split
    · next hturns =>
      have hrest := wellFormed_of_quarterTurns? (wellFormed_sum.1 ha).2 hturns
      split
      · next hs hc =>
        exact wellFormed_minus
          (wellFormed_productOf_pair (wellFormed_cosineAt? hc) (wellFormed_evenly hself hrest))
          (wellFormed_productOf_pair (wellFormed_sineAt? hs) (wellFormed_oddly hsin hrest))
      · exact hself ha
    · exact hself ha
  · refine wellFormed_ite wellFormed_one ?_
    cases h : (halfTurns? _).bind cosineAt? with
    | none => exact hself ha
    | some v =>
        obtain ⟨q, -, hq⟩ := Option.bind_eq_some_iff.1 h
        exact wellFormed_cosineAt? hq

theorem wellFormed_tangent (ha : a.WellFormed) : (tangent a).WellFormed := by
  unfold tangent
  split
  · exact wellFormed_operand ha
  · exact wellFormed_quotientOf (wellFormed_operand ha) (wellFormed_coSine (wellFormed_operand ha))
  · exact wellFormed_quotientOf (wellFormed_coSine (wellFormed_operand ha)) (wellFormed_operand ha)
  · refine wellFormed_ite wellFormed_zero ?_
    split
    · next hs hc =>
      obtain ⟨q, -, hq⟩ := Option.bind_eq_some_iff.1 hs
      obtain ⟨r, -, hr⟩ := Option.bind_eq_some_iff.1 hc
      exact wellFormed_quotientOf (wellFormed_sineAt? hq) (wellFormed_cosineAt? hr)
    · exact wellFormed_unary trivial ha

theorem wellFormed_fractionOfPi (q : Rat) : (productOf [rational q, pi]).WellFormed :=
  wellFormed_productOf_pair (wellFormed_rational q) wellFormed_pi

theorem wellFormed_halfPi : (productOf [half, pi]).WellFormed := wellFormed_fractionOfPi (1 / 2)

theorem wellFormed_arcSine (ha : a.WellFormed) : (arcSine a).WellFormed := by
  have hself : (apply .asin [a]).WellFormed := wellFormed_unary trivial ha
  unfold arcSine
  split
  · exact wellFormed_ite wellFormed_zero <| wellFormed_ite wellFormed_halfPi <|
      wellFormed_ite (wellFormed_fractionOfPi _) hself
  · exact hself

theorem wellFormed_arcCosine (ha : a.WellFormed) : (arcCosine a).WellFormed := by
  have hself : (apply .acos [a]).WellFormed := wellFormed_unary trivial ha
  unfold arcCosine
  split
  · exact wellFormed_ite wellFormed_halfPi <| wellFormed_ite wellFormed_zero <|
      wellFormed_ite wellFormed_pi <| wellFormed_ite (wellFormed_fractionOfPi _) <|
        wellFormed_ite (wellFormed_fractionOfPi _) hself
  · exact hself

theorem wellFormed_arcTangent (ha : a.WellFormed) : (arcTangent a).WellFormed := by
  have hself : (apply .atan [a]).WellFormed := wellFormed_unary trivial ha
  unfold arcTangent
  split
  · exact wellFormed_halfPi
  · split
    · exact wellFormed_ite wellFormed_zero <| wellFormed_ite (wellFormed_fractionOfPi _) hself
    · exact hself

theorem wellFormed_arcTangent2 (hy : y.WellFormed) (hx : x.WellFormed) :
    (arcTangent2 y x).WellFormed := by
  have hself : (apply .atan2 [y, x]).WellFormed :=
    wellFormed_apply.2 ⟨trivial, by simpa using ⟨hy, hx⟩⟩
  have hslope : (oddly arcTangent (quotientOf y x)).WellFormed :=
    wellFormed_oddly wellFormed_arcTangent (wellFormed_quotientOf hy hx)
  have hturned : (sumOf [oddly arcTangent (quotientOf y x), pi]).WellFormed :=
    wellFormed_sumOf (by simpa using hslope)
  unfold arcTangent2
  exact wellFormed_ite (wellFormed_ite hslope <|
    wellFormed_ite (wellFormed_minus hslope wellFormed_pi) <| wellFormed_ite hturned <|
    wellFormed_ite wellFormed_halfPi <| wellFormed_ite (wellFormed_fractionOfPi _) <|
    wellFormed_ite wellFormed_number hself) hself

/-! ### Other functions of one operand -/

theorem wellFormed_hyperbolic {f : Head} {atZero atInfinity : Expr} (hf : f.Named)
    (hzero : atZero.WellFormed) (hinfinity : atInfinity.WellFormed) (ha : a.WellFormed) :
    (hyperbolic f atZero atInfinity a).WellFormed := by
  refine wellFormed_ite hzero ?_
  split
  · exact hinfinity
  · exact wellFormed_unary hf ha

theorem wellFormed_logRatio (q : Rat) : (logRatio q).WellFormed :=
  wellFormed_ite wellFormed_zero <|
    wellFormed_ite (wellFormed_negated (wellFormed_unary trivial (wellFormed_ofInt _)))
      (wellFormed_unary trivial (wellFormed_rational q))

theorem wellFormed_logarithm (ha : a.WellFormed) : (logarithm a).WellFormed := by
  have hturned {size : Expr} (hsize : size.WellFormed) :
      (sumOf [size, productOf [.constant .imaginary, pi]]).WellFormed :=
    wellFormed_sumOf (by simpa using
      ⟨hsize, wellFormed_productOf_pair wellFormed_constant wellFormed_pi⟩)
  unfold logarithm
  dsimp only
  split
  · split
    · exact wellFormed_ite wellFormed_number <|
        wellFormed_ite (hturned (wellFormed_logRatio _)) (wellFormed_logRatio _)
    · exact wellFormed_ite wellFormed_number (hturned wellFormed_number)
    · exact wellFormed_number
    · exact wellFormed_number
  · exact wellFormed_one
  · exact wellFormed_ite (wellFormed_operand ha) (wellFormed_unary trivial ha)
  · exact wellFormed_unary trivial ha

theorem wellFormed_signOf (ha : a.WellFormed) : (signOf a).WellFormed := by
  refine wellFormed_ite wellFormed_one <| wellFormed_ite wellFormed_minusOne <|
    wellFormed_ite wellFormed_zero ?_
  split
  · rw [wellFormed_product] at ha
    have hrest (q : Expr → Bool) (fs : List Expr) (hfs : ∀ f ∈ fs, f.WellFormed) :
        (apply .sign [ofFactors (fs.filter q)]).WellFormed :=
      wellFormed_unary trivial (wellFormed_ofFactors.2 fun f hf => hfs f (List.mem_of_mem_filter hf))
    exact wellFormed_ite (wellFormed_negated (hrest _ _ ha)) (hrest _ _ ha)
  · exact ha
  · exact wellFormed_unary trivial ha

theorem wellFormed_stepOf (ha : a.WellFormed) : (stepOf a).WellFormed :=
  wellFormed_ite wellFormed_zero <| wellFormed_ite wellFormed_one <|
    wellFormed_ite wellFormed_half (wellFormed_unary trivial ha)

theorem wellFormed_of_wholeValue? (ha : a.WellFormed) (h : wholeValue? a = some e) :
    e.WellFormed := by
  unfold wholeValue? at h
  split at h <;> rw [Option.ite_none_right_eq_some] at h
  · exact Option.some.inj h.2 ▸ wellFormed_ofInt _
  · exact Option.some.inj h.2 ▸ ha

theorem wellFormed_roundOf {f : Head} (hf : f.Named) (toward : Binary64 → Binary64)
    (ha : a.WellFormed) : (roundOf f toward a).WellFormed := by
  have hwhole : (sumOf (a.terms.filterMap wholeValue?)).WellFormed := by
    refine wellFormed_sumOf fun e he => ?_
    obtain ⟨t, ht, he⟩ := List.mem_filterMap.1 he
    exact wellFormed_of_wholeValue? (ha.terms t ht) he
  have hrest : (apply f [sumOf (a.terms.filter fun t => (wholeValue? t).isNone)]).WellFormed :=
    wellFormed_unary hf (wellFormed_sumOf fun t ht => ha.terms t (List.mem_of_mem_filter ht))
  have hpair {e : Expr} (he : e.WellFormed) :
      (sumOf [sumOf (a.terms.filterMap wholeValue?), e]).WellFormed :=
    wellFormed_sumOf (by simpa using ⟨hwhole, he⟩)
  unfold roundOf
  split
  · exact ha
  · exact ha
  · exact ha
  · refine wellFormed_ite hwhole <| ?_
    split
    · split
      · exact hpair (wellFormed_ofInt _)
      · exact hpair hrest
    · exact hpair hrest

/-! ### Extrema -/

theorem forall_mem_orderedOperands (h : ∀ e ∈ es, e.WellFormed) :
    ∀ e ∈ orderedOperands es, e.WellFormed := by
  intro e he
  obtain ⟨k, hk, rfl⟩ := List.mem_map.1 he
  obtain ⟨a, ha, rfl⟩ := List.mem_map.1 ((perm_sortBy _ _).mem_iff.1 hk)
  exact h a ha

theorem forall_mem_dedup (h : ∀ e ∈ es, e.WellFormed) : ∀ e ∈ dedup es, e.WellFormed := by
  induction es with
  | nil => exact h
  | cons e es ih =>
      have hes := (List.forall_mem_cons.1 h).2
      exact forall_mem_ite (ih hes) (List.forall_mem_cons.2 ⟨h e List.mem_cons_self, ih hes⟩)

theorem forall_mem_addOperand (isLarger : Bool) (ha : a.WellFormed) (h : ∀ e ∈ es, e.WellFormed) :
    ∀ e ∈ addOperand isLarger a es, e.WellFormed := by
  induction es with
  | nil => simpa [addOperand] using ha
  | cons z zs ih =>
      have hz := List.forall_mem_cons.1 h
      exact forall_mem_ite (ih hz.2)
        (forall_mem_ite h (List.forall_mem_cons.2 ⟨hz.1, ih hz.2⟩))

theorem forall_mem_addOperands (isLarger : Bool) (hts : ∀ t ∈ ts, t.WellFormed)
    (h : ∀ e ∈ es, e.WellFormed) :
    ∀ e ∈ ts.foldl (fun acc v => addOperand isLarger v acc) es, e.WellFormed := by
  induction ts generalizing es with
  | nil => exact h
  | cons t ts ih =>
      rw [List.forall_mem_cons] at hts
      exact ih hts.2 (forall_mem_addOperand isLarger hts.1 h)

theorem wellFormed_extremumOf (isLarger : Bool) (h : ∀ e ∈ es, e.WellFormed) :
    (extremumOf isLarger es).WellFormed := by
  have hhead (as : List Expr) (has : ∀ a ∈ as, a.WellFormed) :
      (apply (if isLarger then .larger else .smaller) as).WellFormed :=
    wellFormed_apply.2 ⟨by cases isLarger <;> trivial, has⟩
  unfold extremumOf
  extract_lets head flat
  have hflat : ∀ e ∈ flat, e.WellFormed := by
    refine forall_mem_flatMap (fun e he => ?_) h
    split
    · exact forall_mem_ite (wellFormed_apply.1 he).2 (List.forall_mem_singleton.2 he)
    · exact List.forall_mem_singleton.2 he
  have hkept (p : Expr → Bool) := forall_mem_orderedOperands (forall_mem_dedup fun e he =>
    hflat e (List.mem_of_mem_filter (p := p) he))
  have hoperands (p q : Expr → Bool) := forall_mem_orderedOperands
    (forall_mem_addOperands isLarger (fun e he => hkept p e (List.mem_of_mem_filter (p := q) he))
      (List.forall_mem_nil _))
  refine wellFormed_ite wellFormed_number ?_
  split
  · exact wellFormed_number
  · next e he => exact hoperands _ _ e (he ▸ List.mem_singleton_self e)
  · exact hhead _ (hoperands _ _)

/-! ### Functions by their heads -/

theorem wellFormed_of_evaluated? {f : Head} (h : evaluated? f es = some e) : e.WellFormed := by
  unfold evaluated? at h
  split at h
  · split at h
    · rw [Option.ite_none_right_eq_some] at h
      exact Option.some.inj h.2 ▸ wellFormed_number
    · cases h
  -- Five functions are not evaluated here.
  · cases h
  · cases h
  · cases h
  · cases h
  · cases h
  · split at h
    · rw [Option.ite_none_left_eq_some] at h
      exact Option.some.inj h.2 ▸ wellFormed_number
    · cases h
  · cases h

/-- What is applied need not be known. -/
theorem wellFormed_applied {f : Head} (hf : f.Named) (h : ∀ e ∈ es, e.WellFormed) :
    (applied f es).WellFormed := by
  unfold applied
  split
  · next he => exact wellFormed_of_evaluated? he
  · split
    · exact wellFormed_extremumOf true h
    · exact wellFormed_extremumOf false h
    · exact wellFormed_arcTangent2 (h _ (by simp)) (h _ (by simp))
    · have ha := List.forall_mem_singleton.1 h
      refine wellFormed_ite ha ?_
      split
      · exact wellFormed_expOf ha
      · exact wellFormed_logarithm ha
      · exact wellFormed_oddly wellFormed_sine ha
      · exact wellFormed_evenly wellFormed_cosine ha
      · exact wellFormed_oddly wellFormed_tangent ha
      · exact wellFormed_oddly wellFormed_arcSine ha
      · exact wellFormed_arcCosine ha
      · exact wellFormed_oddly wellFormed_arcTangent ha
      · exact wellFormed_oddly (wellFormed_hyperbolic trivial wellFormed_zero wellFormed_number) ha
      · exact wellFormed_evenly (wellFormed_hyperbolic trivial wellFormed_one wellFormed_number) ha
      · exact wellFormed_oddly (wellFormed_hyperbolic trivial wellFormed_zero wellFormed_one) ha
      · exact wellFormed_absOf ha
      · exact wellFormed_roundOf (f := .floor) trivial _ ha
      · exact wellFormed_roundOf (f := .ceiling) trivial _ ha
      · exact wellFormed_signOf ha
      · exact wellFormed_stepOf ha
      · exact wellFormed_ite wellFormed_zero (wellFormed_unary hf ha)
      · exact wellFormed_unary hf ha
    · exact wellFormed_apply.2 ⟨hf, h⟩

end Gantry.Algebra.Expr
