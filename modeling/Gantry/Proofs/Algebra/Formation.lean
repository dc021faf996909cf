import Gantry.Algebra.Product
import Gantry.Proofs.Algebra.Equality
import Gantry.Proofs.Algebra.Shape

/-!
Sums, products and powers of well-formed expressions are well-formed. Whatever
is gathered from an expression or put together of such parts is made of its
nodes, of numbers and of heads that have their operands.
-/

namespace Gantry.Algebra.Expr

variable {e b t : Expr} {es ts fs : List Expr} {c d : Coefficient} {fuel : Nat}

/-! ### Parts -/

@[simp] theorem wellFormed_ofInt (n : Int) : (ofInt n).WellFormed := wellFormed_number
@[simp] theorem wellFormed_zero : zero.WellFormed := wellFormed_number
@[simp] theorem wellFormed_one : one.WellFormed := wellFormed_number
@[simp] theorem wellFormed_minusOne : minusOne.WellFormed := wellFormed_number
@[simp] theorem wellFormed_half : half.WellFormed := wellFormed_number

@[simp] theorem wellFormed_ofFactors : (ofFactors fs).WellFormed ↔ ∀ f ∈ fs, f.WellFormed :=
  transparent_formed.everywhere_ofFactors

@[simp] theorem wellFormed_splitCoefficient :
    e.splitCoefficient.2.WellFormed ↔ e.WellFormed :=
  transparent_formed.everywhere_splitCoefficient

@[simp] theorem wellFormed_withCoefficient : (withCoefficient c e).WellFormed ↔ e.WellFormed :=
  transparent_formed.everywhere_withCoefficient

@[simp] theorem wellFormed_scaleTerm : (scaleTerm c e).WellFormed ↔ e.WellFormed :=
  transparent_formed.everywhere_scaleTerm

theorem WellFormed.terms (h : e.WellFormed) : ∀ t ∈ e.terms, t.WellFormed := by
  cases e with
  | sum ts => exact (wellFormed_sum.1 h).2
  | _ => exact List.forall_mem_singleton.2 h

theorem WellFormed.factors (h : e.WellFormed) : ∀ f ∈ e.factors, f.WellFormed := by
  cases e with
  | product fs => exact wellFormed_product.1 h
  | _ => exact List.forall_mem_singleton.2 h

theorem wellFormed_ite {p : Prop} [Decidable p] (hb : b.WellFormed) (he : e.WellFormed) :
    (if p then b else e).WellFormed := by
  split
  · exact hb
  · exact he

theorem forall_mem_ite {p : Prop} [Decidable p] (hes : ∀ e ∈ es, e.WellFormed)
    (hfs : ∀ f ∈ fs, f.WellFormed) : ∀ e ∈ if p then es else fs, e.WellFormed := by
  split
  · exact hes
  · exact hfs

/-- A function of one operand. -/
theorem wellFormed_unary {f : Head} (hf : f.Named) (he : e.WellFormed) :
    (apply f [e]).WellFormed :=
  wellFormed_apply.2 ⟨hf, List.forall_mem_singleton.2 he⟩

theorem wellFormed_operand {f : Head} (h : (apply f [e]).WellFormed) : e.WellFormed :=
  List.forall_mem_singleton.1 (wellFormed_apply.1 h).2

theorem wellFormed_ofTerms (h : ∀ t ∈ ts, t.WellFormed) : (ofTerms ts).WellFormed := by
  unfold ofTerms
  split
  · exact wellFormed_zero
  · exact h _ List.mem_cons_self
  · next hne _ => exact wellFormed_sum.2 ⟨hne, h⟩

theorem forall_mem_flatMap {f : Expr → List Expr} (hf : ∀ e : Expr, e.WellFormed → ∀ p ∈ f e, p.WellFormed)
    (h : ∀ e ∈ es, e.WellFormed) : ∀ p ∈ es.flatMap f, p.WellFormed := by
  intro p hp
  obtain ⟨e, he, hp⟩ := List.mem_flatMap.1 hp
  exact hf e (h e he) p hp

theorem forall_mem_sortParts (h : ∀ e ∈ es, e.WellFormed) : ∀ e ∈ sortParts es, e.WellFormed :=
  fun e he => h e (mem_sortParts.1 he)

/-! ### Sums -/

/-- What is collected has coefficients; they do not matter here. -/
def Collects (l : List (Expr × Coefficient)) : Prop := ∀ p ∈ l, p.1.WellFormed

theorem collects_addTerm {l : List (Expr × Coefficient)} (ht : t.WellFormed) (h : Collects l) :
    Collects (addTerm t c l) := by
  induction l with
  | nil => simpa [Collects, addTerm] using ht
  | cons p l ih =>
      obtain ⟨s, d⟩ := p
      obtain ⟨hs, hl⟩ := List.forall_mem_cons.1 h
      rw [addTerm]
      split
      · exact List.forall_mem_cons.2 ⟨hs, hl⟩
      · exact List.forall_mem_cons.2 ⟨hs, ih hl⟩

theorem collects_collect {known : Collected} (hknown : Collects known.terms)
    (h : ∀ t ∈ ts, t.WellFormed) : Collects (collect known ts).terms := by
  induction ts generalizing known with
  | nil => exact hknown
  | cons t ts ih =>
      obtain ⟨ht, hts⟩ := List.forall_mem_cons.1 h
      cases t with
      | number c => exact ih hknown hts
      | _ => exact ih (collects_addTerm (wellFormed_splitCoefficient.2 ht) hknown) hts

theorem wellFormed_rebuildTerm {p : Expr × Coefficient} (h : p.1.WellFormed)
    (ht : t ∈ rebuildTerm p) : t.WellFormed := by
  obtain ⟨s, c⟩ := p
  rw [rebuildTerm, Option.mem_def, Option.ite_none_left_eq_some] at ht
  exact Option.some.inj ht.2 ▸ wellFormed_withCoefficient.2 h

theorem wellFormed_sumOf (h : ∀ e ∈ es, e.WellFormed) : (sumOf es).WellFormed := by
  have hkept : ∀ e ∈ es.filter fun e => !e.isZero, e.WellFormed :=
    fun e he => h e (List.mem_of_mem_filter he)
  unfold sumOf
  generalize es.filter (fun e => !e.isZero) = kept at hkept
  split
  · exact wellFormed_zero
  · exact hkept _ List.mem_cons_self
  · have hfound : Collects (collect ⟨.zero, []⟩ (kept.flatMap terms)).terms :=
      collects_collect (by simp [Collects]) (forall_mem_flatMap (fun _ => WellFormed.terms) hkept)
    dsimp only
    generalize collect ⟨.zero, []⟩ (kept.flatMap terms) = found at hfound
    have hterms : ∀ t ∈ sortParts ((found.terms.filterMap rebuildTerm).filter
        (!absorbed found.number ·)), t.WellFormed := by
      refine forall_mem_sortParts fun t ht => ?_
      obtain ⟨p, hp, ht⟩ := List.mem_filterMap.1 (List.mem_of_mem_filter ht)
      exact wellFormed_rebuildTerm (hfound p hp) ht
    split
    · exact wellFormed_number
    · split
      · exact wellFormed_ofTerms hterms
      · exact wellFormed_ofTerms (List.forall_mem_cons.2 ⟨wellFormed_number, hterms⟩)

theorem wellFormed_distribute (h : ∀ t ∈ ts, t.WellFormed) : (distribute c ts).WellFormed := by
  have hothers : ∀ t ∈ sortParts ((ts.map (scaleTerm c)).filter fun t => t.number?.isNone),
      t.WellFormed := by
    refine forall_mem_sortParts fun t ht => ?_
    obtain ⟨s, hs, rfl⟩ := List.mem_map.1 (List.mem_of_mem_filter ht)
    exact wellFormed_scaleTerm.2 (h s hs)
  unfold distribute
  dsimp only
  split
  · exact wellFormed_ofTerms hothers
  · exact wellFormed_ofTerms (List.forall_mem_cons.2 ⟨wellFormed_number, hothers⟩)

theorem wellFormed_scale (h : e.WellFormed) : (scale c e).WellFormed := by
  unfold scale
  split
  · exact h
  · split
    · exact wellFormed_distribute (wellFormed_sum.1 h).2
    · exact wellFormed_scaleTerm.2 h

theorem wellFormed_negated (h : e.WellFormed) : (negated e).WellFormed := wellFormed_scale h

theorem wellFormed_minus (he : e.WellFormed) (hb : b.WellFormed) : (minus e b).WellFormed :=
  wellFormed_sumOf (by simpa using ⟨he, wellFormed_negated hb⟩)

/-! ### Powers of numbers -/

theorem wellFormed_radical (r : Radical) : r.expr.WellFormed :=
  wellFormed_power.2 ⟨wellFormed_number, wellFormed_number⟩

theorem forall_mem_turn (q : Rat) : ∀ f ∈ (turn q).2, f.WellFormed := by
  unfold turn
  dsimp only
  split
  · simp
  · split <;> simp

theorem forall_mem_numericPower (c d : Coefficient) : ∀ f ∈ numericPower c d, f.WellFormed := by
  unfold numericPower
  split
  · simp
  · simp
  · simp
  · split <;> simp
  · simp
  · split
    · simp
    · split
      · split <;> simp
      · simp
  · split
    · simp
    · split
      · simp
      · intro f hf
        simp only [List.cons_append, List.mem_cons, List.mem_append, List.mem_map] at hf
        obtain rfl | hf | ⟨r, -, rfl⟩ := hf
        · exact wellFormed_number
        · exact forall_mem_turn _ f hf
        · exact wellFormed_radical r
  · dsimp only
    split <;> simp

/-! ### Products -/

theorem wellFormed_basePower (h : e.WellFormed) :
    e.basePower.1.WellFormed ∧ e.basePower.2.WellFormed := by
  unfold basePower
  split
  · exact wellFormed_power.1 h
  · exact ⟨wellFormed_constant, List.forall_mem_singleton.1 (wellFormed_apply.1 h).2⟩
  · exact ⟨h, wellFormed_one⟩

/-- Both parts of powers are well-formed. -/
def Gathers (ps : List (Expr × Expr)) : Prop :=
  ∀ p ∈ ps, p.1.WellFormed ∧ p.2.WellFormed

theorem gathers_add {known : Factors} (hknown : Gathers known.powers) (h : e.WellFormed) :
    Gathers (known.add e).powers := by
  unfold Factors.add
  split
  · exact hknown
  · exact hknown
  · exact hknown
  · exact List.forall_mem_cons.2 ⟨wellFormed_basePower h, hknown⟩

theorem gathers_ofList (h : ∀ e ∈ es, e.WellFormed) : Gathers (Factors.ofList es).powers := by
  have hfold : ∀ known : Factors, Gathers known.powers →
      Gathers (es.foldl Factors.add known).powers := by
    induction es with
    | nil => exact fun _ hknown => hknown
    | cons e es ih =>
        rw [List.forall_mem_cons] at h
        exact fun known hknown => ih h.2 _ (gathers_add hknown h.1)
  intro p hp
  exact hfold .none (by simp [Gathers, Factors.none]) p (List.mem_reverse.1 hp)

/-- Exponents gathered for bases. -/
def Grouped (l : List (Expr × List (Expr × Coefficient))) : Prop :=
  ∀ p ∈ l, p.1.WellFormed ∧ Collects p.2

theorem grouped_addExponent {l : List (Expr × List (Expr × Coefficient))} (hb : b.WellFormed)
    (he : e.WellFormed) (h : Grouped l) : Grouped (addExponent b e l) := by
  have he := wellFormed_splitCoefficient.2 he
  induction l with
  | nil =>
      rw [addExponent]
      exact List.forall_mem_singleton.2 ⟨hb, List.forall_mem_singleton.2 he⟩
  | cons p l ih =>
      obtain ⟨d, es⟩ := p
      obtain ⟨⟨hd, hes⟩, hl⟩ := List.forall_mem_cons.1 h
      rw [addExponent]
      split
      · exact List.forall_mem_cons.2 ⟨⟨hd, collects_addTerm he hes⟩, hl⟩
      · exact List.forall_mem_cons.2 ⟨⟨hd, hes⟩, ih hl⟩

theorem gathers_gatherPowers {ps : List (Expr × Expr)} (h : Gathers ps) :
    Gathers (gatherPowers ps) := by
  have hfold : ∀ l, Grouped l →
      Grouped (ps.foldl (fun acc p => addExponent p.1 p.2 acc) l) := by
    induction ps with
    | nil => exact fun _ hl => hl
    | cons p ps ih =>
        obtain ⟨hp, hps⟩ := List.forall_mem_cons.1 h
        exact fun l hl => ih hps _ (grouped_addExponent hp.1 hp.2 hl)
  intro q hq
  obtain ⟨⟨b, es⟩, hgroup, hq⟩ := List.mem_flatMap.1 hq
  obtain ⟨⟨t, c⟩, ht, hq⟩ := List.mem_filterMap.1 hq
  obtain ⟨hb, hes⟩ := hfold [] (by simp [Grouped]) _ hgroup
  rw [Option.ite_none_left_eq_some] at hq
  obtain rfl := Option.some.inj hq.2
  exact ⟨hb, wellFormed_scale (hes _ ht)⟩

/-- The product of a number and those factors that it does not take in. -/
def arranged (c : Coefficient) (fs : List Expr) : Expr :=
  if c == .undefined then .number .undefined
  else if c.isZero then zero
  else
    match sortParts fs with
    | [.sum ts] => if c.isOne then .sum ts else if c.isFinite then distribute c ts
        else .product [.number c, .sum ts]
    | fs => ofFactors (numberUnlessOne c ++ fs)

/-- An infinite number takes in factors and changes with their signs. -/
theorem exists_arranged (c : Coefficient) (fs : List Expr) :
    ∃ d gs, finishProduct c fs = arranged d gs ∧ gs ⊆ fs := by
  have hfilter (p : Expr → Bool) : fs.filter p ⊆ fs := List.filter_subset_self fs
  cases c with
  | infinite s =>
      exact ⟨_, _, rfl, fun f hf => hfilter _ (List.mem_of_mem_filter hf)⟩
  | unsignedInfinite => exact ⟨_, _, rfl, hfilter _⟩
  | _ => exact ⟨_, _, rfl, List.Subset.refl fs⟩

theorem wellFormed_arranged (h : ∀ f ∈ fs, f.WellFormed) : (arranged c fs).WellFormed := by
  have hsorted := forall_mem_sortParts h
  unfold arranged
  split
  · exact wellFormed_number
  · split
    · exact wellFormed_zero
    · split
      · next ts hts =>
        have hsum : (sum ts).WellFormed := hsorted _ (hts ▸ List.mem_singleton_self _)
        split
        · exact hsum
        · split
          · exact wellFormed_distribute (wellFormed_sum.1 hsum).2
          · simpa using hsum
      · rw [wellFormed_ofFactors, List.forall_mem_append]
        refine ⟨?_, hsorted⟩
        unfold numberUnlessOne
        split <;> simp

theorem wellFormed_finishProduct (h : ∀ f ∈ fs, f.WellFormed) :
    (finishProduct c fs).WellFormed := by
  obtain ⟨d, gs, heq, hgs⟩ := exists_arranged c fs
  exact heq ▸ wellFormed_arranged fun g hg => h g (hgs hg)

theorem wellFormed_of_balanced? {big : Coefficient} (h : ∀ t ∈ ts, t.WellFormed)
    (hs : balanced? ts c = some (big, e)) : e.WellFormed := by
  unfold balanced? at hs
  dsimp only at hs
  split at hs
  · cases hs
  · split at hs
    · cases hs
    · obtain rfl := (Prod.mk.inj (Option.some.inj hs)).2
      refine wellFormed_sumOf fun e he => ?_
      simp only [List.map_map, List.mem_map] at he
      obtain ⟨t, ht, rfl⟩ := he
      simpa using h t ht

end Gantry.Algebra.Expr
