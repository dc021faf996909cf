import Gantry.Proofs.Algebra.Formation

/-!
The mutual recursion of products, powers, exponentials and absolute values
keeps expressions well-formed: each of its functions does with one more call of
allowance what all of them do with one less.
-/

namespace Gantry.Algebra.Expr

variable {a b e inner : Expr} {es fs ts : List Expr} {fuel : Nat}

/-- With an allowance of `fuel` well-formed expressions make well-formed ones. -/
structure Forms (fuel : Nat) : Prop where
  times : ∀ {es : List Expr}, (∀ e ∈ es, e.WellFormed) → (times fuel es).WellFormed
  multiply : ∀ {es : List Expr}, (∀ e ∈ es, e.WellFormed) → (multiply fuel es).WellFormed
  raise : ∀ {b e : Expr}, b.WellFormed → e.WellFormed → (raise fuel b e).WellFormed
  raiseProduct : ∀ {fs : List Expr} {e : Expr}, (∀ f ∈ fs, f.WellFormed) → e.WellFormed →
    (raiseProduct fuel fs e).WellFormed
  raisePower : ∀ {b inner e : Expr}, b.WellFormed → inner.WellFormed → e.WellFormed →
    (raisePower fuel b inner e).WellFormed
  exponential : ∀ {a : Expr}, a.WellFormed → (exponential fuel a).WellFormed
  absolute : ∀ {a : Expr}, a.WellFormed → (absolute fuel a).WellFormed

theorem forms_zero : Forms 0 where
  times h := by rw [Expr.times]; exact wellFormed_ofFactors.2 h
  multiply h := by rw [Expr.multiply]; exact wellFormed_ofFactors.2 h
  raise hb he := by rw [Expr.raise]; exact wellFormed_power.2 ⟨hb, he⟩
  raiseProduct hfs he := by
    rw [Expr.raiseProduct]
    exact wellFormed_power.2 ⟨wellFormed_ofFactors.2 hfs, he⟩
  raisePower hb hinner he := by
    rw [Expr.raisePower]
    exact wellFormed_power.2 ⟨wellFormed_power.2 ⟨hb, hinner⟩, he⟩
  exponential ha := by
    rw [Expr.exponential]
    exact wellFormed_apply.2 ⟨trivial, List.forall_mem_singleton.2 ha⟩
  absolute ha := by
    rw [Expr.absolute]
    exact wellFormed_apply.2 ⟨trivial, List.forall_mem_singleton.2 ha⟩

namespace Forms

variable (h : Forms fuel)

include h

theorem times_succ (hes : ∀ e ∈ es, e.WellFormed) : (Expr.times (fuel + 1) es).WellFormed := by
  have hkept : ∀ e ∈ es.filter fun e => !e.isOne, e.WellFormed :=
    fun e he => hes e (List.mem_of_mem_filter he)
  rw [Expr.times]
  generalize es.filter (fun e => !e.isOne) = kept at hkept
  split
  · exact wellFormed_one
  · exact hkept _ List.mem_cons_self
  · next a b =>
    obtain ⟨ha, hb⟩ : a.WellFormed ∧ b.WellFormed := by simpa using hkept
    have hswapped : (if b.ratio?.isSome then (b, a) else (a, b)).1.WellFormed ∧
        (if b.ratio?.isSome then (b, a) else (a, b)).2.WellFormed := by
      split
      · exact ⟨hb, ha⟩
      · exact ⟨ha, hb⟩
    generalize (if b.ratio?.isSome then (b, a) else (a, b)) = swapped at hswapped
    obtain ⟨a, b⟩ := swapped
    dsimp only at hswapped ⊢
    split
    · next q r ts _ hsplit =>
      have hsum : (sum ts).WellFormed := by
        have := wellFormed_splitCoefficient.2 hswapped.2
        rwa [hsplit] at this
      split
      · exact wellFormed_zero
      · split
        · exact wellFormed_distribute (wellFormed_sum.1 hsum).2
        · exact wellFormed_withCoefficient.2 hsum
    · exact h.multiply (by simpa using hswapped)
  · exact h.multiply hkept

theorem multiply_succ (hes : ∀ e ∈ es, e.WellFormed) :
    (Expr.multiply (fuel + 1) es).WellFormed := by
  rw [Expr.multiply]
  have hpowers := gathers_gatherPowers
    (gathers_ofList (forall_mem_flatMap (fun _ => WellFormed.factors) hes))
  dsimp only
  generalize Factors.ofList (es.flatMap factors) = found at hpowers
  generalize (if found.radicals.isEmpty then (1, []) else Radical.combine found.radicals) = reduced
  generalize gatherPowers found.powers = before at hpowers
  have hafter : ∀ p ∈ before.map (fun p => Expr.raise fuel p.1 p.2), p.WellFormed :=
    List.forall_mem_map.2 fun p hp => h.raise (hpowers p hp).1 (hpowers p hp).2
  have hfixed : ∀ f ∈ (turn found.turns).2 ++ reduced.2.map Radical.expr, f.WellFormed := by
    intro f hf
    obtain hf | hf := List.mem_append.1 hf
    · exact forall_mem_turn _ f hf
    · obtain ⟨r, -, rfl⟩ := List.mem_map.1 hf
      exact wellFormed_radical r
  split
  · refine h.multiply (List.forall_mem_append.2 ⟨?_, hafter⟩)
    exact List.forall_mem_cons.2 ⟨wellFormed_number, hfixed⟩
  · refine wellFormed_finishProduct (List.forall_mem_append.2 ⟨hfixed, fun f hf => ?_⟩)
    exact hafter f (List.mem_of_mem_filter hf)

omit h in
theorem exponential_number {c : Coefficient} :
    (Expr.exponential (fuel + 1) (number c)).WellFormed := by
  unfold Expr.exponential
  dsimp only
  split
  · exact wellFormed_number
  · split <;> exact wellFormed_number
  · exact wellFormed_number
  · exact wellFormed_number
  · split
    · exact wellFormed_one
    · split
      · exact wellFormed_constant
      · exact wellFormed_unary trivial wellFormed_number

theorem exponential_product (ha : (product fs).WellFormed) :
    (Expr.exponential (fuel + 1) (product fs)).WellFormed := by
  have hself : (apply .exp [product fs]).WellFormed := wellFormed_unary trivial ha
  rw [wellFormed_product] at ha
  rw [Expr.exponential]
  -- A logarithm among the factors is undone.
  split
  · next x hlogs =>
    have hx : x.WellFormed := by
      obtain ⟨f, hf, hx⟩ := List.mem_filterMap.1 (hlogs ▸ List.mem_singleton_self x)
      split at hx
      · exact Option.some.inj hx ▸ wellFormed_operand (ha _ hf)
      · cases hx
    split
    · exact h.raise hx (h.times fun f hf => ha f (List.mem_of_mem_filter hf))
    · exact hself
  · exact hself

theorem exponential_sum (ha : (sum ts).WellFormed) :
    (Expr.exponential (fuel + 1) (sum ts)).WellFormed := by
  have hself : (apply .exp [sum ts]).WellFormed := wellFormed_unary trivial ha
  rw [wellFormed_sum] at ha
  rw [Expr.exponential]
  have hparts : ∀ p ∈ ts.map (fun t => if t.isOne then .apply .exp [t] else Expr.exponential fuel t),
      p.WellFormed := by
    intro p hp
    obtain ⟨t, ht, rfl⟩ := List.mem_map.1 hp
    split
    · exact wellFormed_unary trivial (ha.2 t ht)
    · exact h.exponential (ha.2 t ht)
  generalize ts.map (fun t => if t.isOne then .apply .exp [t] else Expr.exponential fuel t) = parts
    at hparts
  -- Terms whose exponential is known come out of the sum.
  have hinside {f : Expr → Option Expr} (hf : ∀ p t, f p = some t → p = apply .exp [t]) :
      (sumOf (parts.filterMap f)).WellFormed := by
    refine wellFormed_sumOf (List.forall_mem_filterMap.2 fun p hp t ht => ?_)
    exact wellFormed_operand (hf p t ht ▸ hparts p hp)
  have houtside (q : Expr → Bool) : (Expr.times fuel (parts.filter q)).WellFormed :=
    h.times fun p hp => hparts p (List.mem_of_mem_filter hp)
  split
  · exact hself
  · split
    · split
      · exact houtside _
      · refine h.times (List.forall_mem_cons.2 ⟨houtside _, List.forall_mem_singleton.2 ?_⟩)
        exact wellFormed_unary trivial wellFormed_number
    · refine h.times (List.forall_mem_cons.2 ⟨houtside _, List.forall_mem_singleton.2 ?_⟩)
      refine wellFormed_unary trivial (hinside fun p t ht => ?_)
      split at ht
      · exact Option.some.inj ht ▸ rfl
      · cases ht

theorem exponential_succ (ha : a.WellFormed) : (Expr.exponential (fuel + 1) a).WellFormed := by
  have hself : (apply .exp [a]).WellFormed := wellFormed_unary trivial ha
  cases a with
  | number => exact exponential_number
  | product => exact h.exponential_product ha
  | sum => exact h.exponential_sum ha
  | constant => rwa [Expr.exponential] <;> nofun
  | symbol => rwa [Expr.exponential] <;> nofun
  | power => rwa [Expr.exponential] <;> nofun
  | apply f es =>
    unfold Expr.exponential
    split
    any_goals contradiction
    · next hlog => exact wellFormed_operand (hlog ▸ ha)
    · exact hself

theorem raise_succ (hb : b.WellFormed) (he : e.WellFormed) :
    (Expr.raise (fuel + 1) b e).WellFormed := by
  have hself : (power b e).WellFormed := wellFormed_power.2 ⟨hb, he⟩
  unfold Expr.raise
  refine wellFormed_ite wellFormed_one <| wellFormed_ite hb ?_
  split
  · -- A sign of the base is taken out.
    have hp := h.raise (wellFormed_negated hb) he
    exact wellFormed_ite hp (wellFormed_negated hp)
  -- Otherwise it depends on the base.
  · split
    · next c d _ =>
      have hfactors := forall_mem_numericPower c d
      split
      · next p hp => exact hfactors p (hp ▸ List.mem_singleton_self p)
      · exact h.multiply hfactors
    · exact wellFormed_ite wellFormed_one <| wellFormed_ite hb hself
    · exact h.exponential he
    · exact h.multiply (List.forall_mem_cons.2 ⟨wellFormed_number, forall_mem_turn _⟩)
    · split
      · next big s hs =>
        have hs' := wellFormed_of_balanced? (wellFormed_sum.1 hb).2 hs
        refine h.times (List.forall_mem_cons.2
          ⟨h.raise wellFormed_number he, List.forall_mem_singleton.2 ?_⟩)
        exact wellFormed_power.2 ⟨hs', he⟩
      · exact hself
    · rw [wellFormed_product] at hb
      refine wellFormed_ite (h.times fun f hf => ?_) (h.raiseProduct hb he)
      obtain ⟨g, hg, rfl⟩ := List.mem_map.1 hf
      exact h.raise (hb g hg) he
    · rw [wellFormed_power] at hb
      exact h.raisePower hb.1 hb.2 he
    · exact wellFormed_ite (h.exponential (h.times (by simpa using ⟨wellFormed_operand hb, he⟩)))
        hself
    · have ha := wellFormed_operand hb
      split
      · exact wellFormed_ite hself <| wellFormed_ite (h.raise ha he) <|
          h.times (List.forall_mem_cons.2
            ⟨h.raise ha (wellFormed_ofInt _), List.forall_mem_singleton.2 hb⟩)
      · exact hself
    · split
      · exact wellFormed_ite wellFormed_one hself
      · exact hself
    · exact hself

/-- The roots of the factors that are taken out, and the power of those that
are left, whichever they are. -/
theorem wellFormed_roots {p : List Expr × List Expr} (hfs : ∀ f ∈ fs, f.WellFormed)
    (he : e.WellFormed) (hp : (∀ f ∈ p.1, f.WellFormed) ∧ ∀ f ∈ p.2, f.WellFormed) :
    (match p with
      | (outside, inside) =>
        if outside.isEmpty then power (ofFactors fs) e
        else
          let roots := outside.map fun f => Expr.raise fuel f e
          if inside.isEmpty then Expr.multiply fuel roots
          else
            match Expr.times fuel inside with
            | .number c => Expr.multiply fuel (Expr.raise fuel (.number c) e :: roots)
            | rest => Expr.multiply fuel (roots ++ [power rest e])).WellFormed := by
  obtain ⟨outside, inside⟩ := p
  have hroots : ∀ f ∈ outside.map (fun f => Expr.raise fuel f e), f.WellFormed := by
    intro f hf
    obtain ⟨g, hg, rfl⟩ := List.mem_map.1 hf
    exact h.raise (hp.1 g hg) he
  have hrest := h.times hp.2
  dsimp only
  split
  · exact wellFormed_power.2 ⟨wellFormed_ofFactors.2 hfs, he⟩
  · split
    · exact h.multiply hroots
    · split
      · exact h.multiply (List.forall_mem_cons.2 ⟨h.raise wellFormed_number he, hroots⟩)
      · refine h.multiply (List.forall_mem_append.2 ⟨hroots, List.forall_mem_singleton.2 ?_⟩)
        exact wellFormed_power.2 ⟨hrest, he⟩

theorem raiseProduct_succ (hfs : ∀ f ∈ fs, f.WellFormed) (he : e.WellFormed) :
    (Expr.raiseProduct (fuel + 1) fs e).WellFormed := by
  have hfilter (q : Expr → Bool) : ∀ f ∈ fs.filter q, f.WellFormed :=
    fun f hf => hfs f (List.mem_of_mem_filter hf)
  unfold Expr.raiseProduct
  refine h.wellFormed_roots hfs he ?_
  split
  · exact ⟨hfilter _, hfilter _⟩
  · next n hn =>
    have hn : n.WellFormed := hfilter isNegative n (hn ▸ List.mem_singleton_self n)
    split
    · exact ⟨List.forall_mem_append.2 ⟨hfilter _, by simpa using wellFormed_negated hn⟩,
        List.forall_mem_append.2 ⟨hfilter _, by simp⟩⟩
    · exact ⟨hfilter _, List.forall_mem_append.2 ⟨hfilter _, by simpa using hn⟩⟩
  · next n ns _ hns =>
    obtain ⟨hn, hns⟩ := List.forall_mem_cons.1 (hns ▸ hfilter isNegative)
    have hsign {q : Prop} [Decidable q] : (if q then n else one).WellFormed :=
      wellFormed_ite hn wellFormed_one
    have hleft {q : Expr → Bool} {r : Prop} [Decidable r] {s : Expr} (hs : s.WellFormed) :
        ∀ f ∈ if r then fs.filter q else fs.filter q ++ [s], f.WellFormed := by
      split
      · exact hfilter q
      · exact List.forall_mem_append.2 ⟨hfilter q, List.forall_mem_singleton.2 hs⟩
    constructor
    · refine List.forall_mem_append.2 ⟨hfilter _, List.forall_mem_map.2 fun f hf => ?_⟩
      refine wellFormed_negated ?_
      split at hf
      · exact hns f hf
      · exact List.forall_mem_cons.2 ⟨hn, hns⟩ f hf
    · exact hleft (wellFormed_ite (wellFormed_negated hsign) hsign)

theorem raisePower_succ (hb : b.WellFormed) (hinner : inner.WellFormed) (he : e.WellFormed) :
    (Expr.raisePower (fuel + 1) b inner e).WellFormed := by
  have hself : (power (power b inner) e).WellFormed :=
    wellFormed_power.2 ⟨wellFormed_power.2 ⟨hb, hinner⟩, he⟩
  have hproduct : (Expr.times fuel [inner, e]).WellFormed := h.times (by simpa using ⟨hinner, he⟩)
  have hsize {q : Prop} [Decidable q] : (if q then Expr.absolute fuel b else b).WellFormed :=
    wellFormed_ite (h.absolute hb) hb
  unfold Expr.raisePower
  exact wellFormed_ite (h.raise hb hproduct) <| wellFormed_ite hself <|
    wellFormed_ite (h.raise hb (wellFormed_negated he)) <|
      wellFormed_ite (h.raise hsize hproduct) hself

theorem absolute_succ (ha : a.WellFormed) : (Expr.absolute (fuel + 1) a).WellFormed := by
  have hself {a : Expr} (ha : a.WellFormed) : (apply .abs [a]).WellFormed := wellFormed_unary trivial ha
  unfold Expr.absolute
  split
  · split <;> exact wellFormed_number
  · exact wellFormed_one
  · next fs =>
    rw [wellFormed_product] at ha
    have hunknown (q : Expr → Bool) : (Expr.times fuel (fs.filter q)).WellFormed :=
      h.times fun f hf => ha f (List.mem_of_mem_filter hf)
    extract_lets known unknown
    have hknown : (Expr.times fuel known).WellFormed := by
      refine h.times (List.forall_mem_filterMap.2 fun f hf p hp => ?_)
      split at hp
      · cases hp
      · cases hp
      · exact Option.some.inj hp ▸ h.absolute (ha f hf)
    refine wellFormed_ite hknown ?_
    exact h.times (List.forall_mem_cons.2
      ⟨hknown, List.forall_mem_singleton.2 (hself (hunknown _))⟩)
  · refine wellFormed_ite wellFormed_zero <| wellFormed_ite ha <|
      wellFormed_ite (wellFormed_negated ha) ?_
    split
    · refine wellFormed_ite (hself ha) ?_
      split
      · exact wellFormed_ite ha
          (h.raise (h.absolute (wellFormed_power.1 ha).1) wellFormed_number)
      · exact wellFormed_ite ha (hself ha)
    · exact wellFormed_ite (hself (wellFormed_negated ha)) (hself ha)
    · exact hself ha

end Forms

theorem forms_succ (h : Forms fuel) : Forms (fuel + 1) where
  times := h.times_succ
  multiply := h.multiply_succ
  raise := h.raise_succ
  raiseProduct := h.raiseProduct_succ
  raisePower := h.raisePower_succ
  exponential := h.exponential_succ
  absolute := h.absolute_succ

theorem forms (fuel : Nat) : Forms fuel := by
  induction fuel with
  | zero => exact forms_zero
  | succ fuel ih => exact forms_succ ih

theorem wellFormed_productOf (h : ∀ e ∈ es, e.WellFormed) : (productOf es).WellFormed :=
  (forms _).times h

theorem wellFormed_productOf_pair (ha : a.WellFormed) (hb : b.WellFormed) :
    (productOf [a, b]).WellFormed :=
  wellFormed_productOf (by simpa using ⟨ha, hb⟩)

theorem wellFormed_powerOf (hb : b.WellFormed) (he : e.WellFormed) : (powerOf b e).WellFormed :=
  (forms _).raise hb he

theorem wellFormed_expOf (ha : a.WellFormed) : (expOf a).WellFormed := (forms _).exponential ha

theorem wellFormed_absOf (ha : a.WellFormed) : (absOf a).WellFormed := (forms _).absolute ha

theorem wellFormed_quotientOf (ha : a.WellFormed) (hb : b.WellFormed) :
    (quotientOf a b).WellFormed := by
  have hinverse := wellFormed_powerOf hb wellFormed_minusOne
  unfold quotientOf
  split
  · exact hinverse
  · exact wellFormed_productOf_pair ha hinverse

theorem wellFormed_sqrtOf (ha : a.WellFormed) : (sqrtOf a).WellFormed :=
  wellFormed_powerOf ha wellFormed_half

end Gantry.Algebra.Expr
