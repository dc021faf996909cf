import Gantry.Proofs.Algebra.Engine
import Gantry.Proofs.Algebra.Text

/-!
Sums of terms that have nothing in common. Where no two terms are multiples of
the same expression, nothing is collected and a sum holds its terms in order.
Products of different bases are such terms, so a sum of them stays one, and so
does its difference to a new symbol.
-/

namespace Gantry.Algebra.Expr

variable {N : String → Prop} {e a b t : Expr} {es ts fs : List Expr} {c : Coefficient}
  {l : List (Expr × Coefficient)}

/-! ### Sums without like terms -/

/-- What a term is a multiple of, and its coefficient. -/
def partsOf (t : Expr) : Expr × Coefficient := (t.splitCoefficient.2, t.splitCoefficient.1)

/-- A term that collecting leaves as it is. -/
structure Separate (t : Expr) : Prop where
  number : t.isNumber = false
  terms : t.terms = [t]
  rebuilt : rebuildTerm (partsOf t) = some t
  exact : ∃ q, (partsOf t).2 = .exact q

theorem addTerm_of_notMem (h : t ∉ l.map Prod.fst) : addTerm t c l = l ++ [(t, c)] := by
  induction l with
  | nil => rfl
  | cons p l ih =>
      obtain ⟨s, d⟩ := p
      rw [List.map_cons, List.mem_cons, not_or] at h
      rw [addTerm, if_neg (by simpa using Ne.symm h.1), ih h.2, List.cons_append]

theorem collect_separate (hts : ∀ t ∈ ts, Separate t)
    (hdistinct : (l.map Prod.fst ++ ts.map fun t => (partsOf t).1).Nodup) :
    collect ⟨c, l⟩ ts = ⟨c, l ++ ts.map partsOf⟩ := by
  induction ts generalizing l with
  | nil => simp [collect]
  | cons t ts ih =>
      rw [List.forall_mem_cons] at hts
      rw [List.map_cons] at hdistinct
      have hnew : (partsOf t).1 ∉ l.map Prod.fst := fun hmem =>
        (List.nodup_append.1 hdistinct).2.2 _ hmem _ List.mem_cons_self rfl
      have hstep : collect ⟨c, l⟩ (t :: ts) = collect ⟨c, l ++ [partsOf t]⟩ ts := by
        have hadd := addTerm_of_notMem (c := (partsOf t).2) hnew
        have hnumber := hts.1.number
        cases t with
        | number d => cases hnumber
        | _ => exact congrArg (fun l => collect ⟨c, l⟩ ts) hadd
      rw [hstep, ih hts.2 (by simpa using hdistinct), List.append_assoc]
      rfl

theorem filterMap_rebuildTerm (hts : ∀ t ∈ ts, Separate t) :
    (ts.map partsOf).filterMap rebuildTerm = ts := by
  induction ts with
  | nil => rfl
  | cons t ts ih =>
      rw [List.forall_mem_cons] at hts
      rw [List.map_cons, List.filterMap_cons_some hts.1.rebuilt, ih hts.2]

theorem Separate.isZero_eq_false (h : Separate t) : t.isZero = false := by
  cases t with
  | number c => cases h.number
  | _ => rfl

/-- Expressions whose terms are all separate are put together. -/
theorem sumOf_separate (hes : ∀ e ∈ es, e.isZero = false) (hlength : 2 ≤ es.length)
    (hts : ∀ t ∈ es.flatMap terms, Separate t)
    (hdistinct : ((es.flatMap terms).map fun t => (partsOf t).1).Nodup) :
    sumOf es = ofTerms (sortParts (es.flatMap terms)) := by
  have hfilter : es.filter (!·.isZero) = es := List.filter_eq_self.2 fun e he => by simp [hes e he]
  have hcollect : collect ⟨.zero, []⟩ (es.flatMap terms) = ⟨.zero, (es.flatMap terms).map partsOf⟩ :=
    collect_separate hts (by simpa using hdistinct)
  have hdefined : ((Coefficient.zero == .undefined) ||
      ((es.flatMap terms).map partsOf).any (·.2 == .undefined)) = false := by
    rw [Bool.or_eq_false_iff, List.any_eq_false]
    refine ⟨rfl, fun p hp => ?_⟩
    obtain ⟨t, ht, rfl⟩ := List.mem_map.1 hp
    obtain ⟨q, hq⟩ := (hts t ht).exact
    simp [hq]
  have hkept : (es.flatMap terms).filter (!absorbed .zero ·) = es.flatMap terms :=
    List.filter_eq_self.2 fun t _ => rfl
  unfold sumOf
  rw [hfilter]
  split
  · simp at hlength
  · simp at hlength
  · simp only [hcollect, hdefined, filterMap_rebuildTerm hts, hkept]
    rfl

theorem ofTerms_eq_sum (h : 2 ≤ ts.length) : ofTerms ts = .sum ts := by
  rcases ts with - | ⟨t, - | ⟨u, ts⟩⟩
  · simp at h
  · simp at h
  · rfl

/-- Different terms without coefficients are put together in order. -/
theorem sumOf_different (hts : ∀ t ∈ ts, Separate t ∧ (partsOf t).1 = t) (hdistinct : ts.Nodup)
    (hlength : 2 ≤ ts.length) : sumOf ts = .sum (sortParts ts) := by
  have hterms : ts.flatMap terms = ts :=
    (List.flatMap_congr fun t ht => (hts t ht).1.terms).trans (List.flatMap_singleton' _)
  have hkeys : ts.map (fun t => (partsOf t).1) = ts :=
    (List.map_congr_left fun t ht => (hts t ht).2).trans (List.map_id' _)
  rw [sumOf_separate (fun t ht => (hts t ht).1.isZero_eq_false) hlength
    (by rw [hterms]; exact fun t ht => (hts t ht).1) (by rwa [hterms, hkeys]), hterms,
    ofTerms_eq_sum (by rwa [(perm_sortParts _).length_eq])]

/-! ### Products of two bases -/

theorem gathered_pair (hne : a ≠ b) :
    gathered [(a, (1 : ℤ)), (b, 1)] = [(a, 1), (b, 1)] := by
  have hbeq : (a == b) = false := by simpa using hne
  simp [gathered, gatherAll, gather, hbeq]

theorem ofFactors_eq_product (h : 2 ≤ fs.length) : ofFactors fs = .product fs := by
  rcases fs with - | ⟨f, - | ⟨g, fs⟩⟩
  · simp at h
  · simp at h
  · rfl

theorem multiply_bases (ha : Polynomial N a) (hb : Polynomial N b) (habase : a.isBase = true)
    (hbbase : b.isBase = true) (hne : a ≠ b) (fuel : ℕ) :
    multiply (fuel + 2) [a, b] = .product (sortParts [a, b]) := by
  have hfactors : [a, b].flatMap factors = [a, b] := by
    simp [factors_of_flat (isProduct_base habase), factors_of_flat (isProduct_base hbbase)]
  have hatoms : ∀ f ∈ [a, b].flatMap factors, Atom N f := by
    rw [hfactors]
    simpa using ⟨Atom.base ha habase, Atom.base hb hbbase⟩
  have hpowers : powersOf [a, b] = [(a, 1), (b, 1)] := by
    rw [powersOf_cons_base habase, powersOf_cons_base hbbase]
    rfl
  have hwritten : [(a, (1 : ℤ)), (b, 1)].map writePower = [a, b] := rfl
  have hcoefficient : ([a, b].map coefficientOf).prod = 1 := by
    simp [coefficientOf_base habase, coefficientOf_base hbbase]
  rw [multiply_atoms hatoms, hfactors, hpowers, gathered_pair hne, hwritten, hcoefficient]
  obtain ⟨habsurd, -⟩ | ⟨ts, habsurd, -⟩ | ⟨-, heq⟩ := finishProduct_cases 1 [a, b]
  · exact absurd habsurd one_ne_zero
  · cases habsurd
  · have hone : numberUnlessOne (.exact 1) = [] := by simp [numberUnlessOne]
    rw [heq, hone, List.nil_append,
      ofFactors_eq_product (by rw [(perm_sortParts _).length_eq]; exact le_rfl)]

/-- The product of two different bases has them as its factors. -/
theorem productOf_bases (ha : Polynomial N a) (hb : Polynomial N b) (habase : a.isBase = true)
    (hbbase : b.isBase = true) (hne : a ≠ b) :
    ∃ fs, productOf [a, b] = .product fs ∧ fs.Perm [a, b] := by
  rw [productOf_eq]
  obtain ⟨rfl, -⟩ | ⟨rfl, -⟩ | ⟨x, y, horder, heq⟩ := times_cases a b 99
  · cases habase
  · cases hbbase
  · obtain ⟨hperm, hx⟩ : [x, y].Perm [a, b] ∧ x.isBase = true := by
      obtain ⟨rfl, rfl⟩ | ⟨rfl, rfl⟩ := horder
      · exact ⟨.refl _, habase⟩
      · exact ⟨.swap _ _ _, hbbase⟩
    obtain heq | ⟨q, r, ts, rfl, -⟩ := heq
    · have hmultiply : multiply 99 [x, y] = .product (sortParts [x, y]) := by
        obtain ⟨rfl, rfl⟩ | ⟨rfl, rfl⟩ := horder
        · exact multiply_bases ha hb habase hbbase hne 97
        · exact multiply_bases hb ha hbbase habase (Ne.symm hne) 97
      exact ⟨_, heq.trans hmultiply, (perm_sortParts _).trans hperm⟩
    · cases hx

/-! ### Affine functions -/

/-- A symbol, or a sum of different terms without coefficients. -/
structure Signal (N : String → Prop) (e : Expr) : Prop where
  polynomial : Polynomial N e
  base : e.isBase = true
  terms : ∀ t ∈ e.terms, Separate t ∧ (partsOf t).1 = t
  distinct : e.terms.Nodup
  numerals : e.numerals = []

theorem Signal.mono {M : String → Prop} (h : Signal N e) (hM : ∀ x, N x → M x) : Signal M e :=
  { h with polynomial := h.polynomial.mono hM }

theorem separate_of_split (hsplit : t.splitCoefficient = (.one, t)) (hnumber : t.isNumber = false)
    (hsum : t.isSum = false) : Separate t ∧ (partsOf t).1 = t := by
  have hterms : t.terms = [t] := by cases t <;> simp_all [isSum, Expr.terms]
  have hparts : partsOf t = (t, .one) := by rw [partsOf, hsplit]
  have hrebuilt : rebuildTerm (t, .one) = some t := by
    simp [rebuildTerm, Coefficient.one, withCoefficient]
  exact ⟨⟨hnumber, hterms, hparts ▸ hrebuilt, ⟨1, by rw [hparts]; rfl⟩⟩, by rw [hparts]⟩

theorem separate_symbol (x : String) (r : Bool) :
    Separate (.symbol x r) ∧ (partsOf (.symbol x r)).1 = .symbol x r :=
  separate_of_split rfl rfl rfl

theorem separate_product (hab : fs.Perm [a, b]) (ha : a.isBase = true) (hb : b.isBase = true) :
    Separate (.product fs) ∧ (partsOf (.product fs)).1 = .product fs := by
  refine separate_of_split ?_ rfl rfl
  cases fs with
  | nil => cases hab.length_eq
  | cons f fs =>
      have hf : f = a ∨ f = b := by simpa using hab.mem_iff.1 List.mem_cons_self
      have hbase : f.isBase = true := by
        obtain rfl | rfl := hf
        · exact ha
        · exact hb
      cases f <;> simp_all [isBase, splitCoefficient]

theorem signal_symbol {x : String} (hx : N x) (r : Bool) : Signal N (.symbol x r) where
  polynomial := .symbol r hx
  base := rfl
  terms t ht := List.mem_singleton.1 ht ▸ separate_symbol x r
  distinct := List.nodup_singleton _
  numerals := by simp [Expr.numerals]

theorem Polynomial.name {x : String} {r : Bool} (h : Polynomial N (.symbol x r)) : N x := by
  cases h with
  | symbol r hx => exact hx

section

variable {ws : List String} {x : String}
  (ha : sumOf (List.zipWith (fun w e => productOf [.symbol w true, e]) ws es ++
    [.symbol x true]) = a)

include ha

variable (hlength : ws.length = es.length) (hdistinct : ws.Nodup) (hes : ∀ e ∈ es, Signal N e)
  (hfresh : ∀ w ∈ ws, ¬N w)

include hlength hdistinct hes hfresh

omit ha in
/-- Products of signals with different new symbols are different terms. -/
theorem products_separate :
    ∃ ts, List.zipWith (fun w e => productOf [.symbol w true, e]) ws es = ts ∧ ts.Nodup ∧
      ∀ t ∈ ts, Separate t ∧ (partsOf t).1 = t ∧ t.isProduct = true ∧ t.numerals = [] := by
  have hproduct (k : ℕ) (hk : k < ws.length) (hk' : k < es.length) :
      ∃ fs, productOf [.symbol ws[k] true, es[k]] = .product fs ∧
        fs.Perm [.symbol ws[k] true, es[k]] := by
    have hsignal := hes es[k] (List.getElem_mem hk')
    refine productOf_bases (N := fun x => N x ∨ x = ws[k]) (.symbol true (.inr rfl))
      (hsignal.polynomial.mono fun x hx => .inl hx) rfl hsignal.base fun heq => ?_
    exact hfresh _ (List.getElem_mem hk) (heq ▸ hsignal.polynomial).name
  refine ⟨_, rfl, ?_, fun t ht => ?_⟩
  · refine List.pairwise_iff_getElem.2 fun i j hi hj hij heq => ?_
    rw [List.length_zipWith] at hi hj
    rw [List.getElem_zipWith, List.getElem_zipWith] at heq
    obtain ⟨fs, hfs, hperm⟩ := hproduct i (by omega) (by omega)
    obtain ⟨gs, hgs, hperm'⟩ := hproduct j (by omega) (by omega)
    obtain rfl : fs = gs := by
      rw [hfs, hgs] at heq
      exact Expr.product.inj heq
    have hmem : Expr.symbol ws[i] true ∈ [.symbol ws[j] true, es[j]] :=
      hperm'.mem_iff.1 (hperm.mem_iff.2 List.mem_cons_self)
    rcases List.mem_cons.1 hmem with hname | hname
    · have hij' := (List.Nodup.getElem_inj_iff hdistinct).1 (Expr.symbol.inj hname).1
      omega
    · have hsignal := hes es[j] (List.getElem_mem _)
      rw [← List.mem_singleton.1 hname] at hsignal
      exact hfresh _ (List.getElem_mem _) hsignal.polynomial.name
  · obtain ⟨k, hk, rfl⟩ := List.getElem_of_mem ht
    rw [List.length_zipWith] at hk
    obtain ⟨fs, hfs, hperm⟩ := hproduct k (by omega) (by omega)
    have hsignal := hes es[k] (List.getElem_mem _)
    have hseparate := separate_product hperm rfl hsignal.base
    have hnumerals : (Expr.product fs).numerals = [] := by
      rw [Expr.numerals, numeralsAll_eq, List.flatMap_eq_nil_iff]
      intro f hf
      obtain rfl | rfl : f = .symbol ws[k] true ∨ f = es[k] := by simpa using hperm.mem_iff.1 hf
      · simp [Expr.numerals]
      · exact hsignal.numerals
    rw [List.getElem_zipWith, hfs]
    exact ⟨hseparate.1, hseparate.2, rfl, hnumerals⟩

/-- An affine function of signals has a product for each of them and one more
term. -/
theorem terms_affine (hsome : es ≠ []) :
    ∃ ts, a = .sum ts ∧ ts.Perm (List.zipWith (fun w e => productOf [.symbol w true, e]) ws es ++
      [.symbol x true]) ∧ ts.Nodup ∧ ∀ t ∈ ts, Separate t ∧ (partsOf t).1 = t ∧ t.numerals = [] := by
  obtain ⟨ts, hts, hnodup, hseparate⟩ := products_separate hlength hdistinct hes hfresh
  have hall : ∀ t ∈ ts ++ [symbol x true], Separate t ∧ (partsOf t).1 = t ∧ t.numerals = [] := by
    intro t ht
    rcases List.mem_append.1 ht with ht | ht
    · exact ⟨(hseparate t ht).1, (hseparate t ht).2.1, (hseparate t ht).2.2.2⟩
    · rw [List.mem_singleton.1 ht]
      exact ⟨(separate_symbol x true).1, (separate_symbol x true).2, by simp [Expr.numerals]⟩
  have hdifferent : (ts ++ [symbol x true]).Nodup := by
    refine List.nodup_append.2 ⟨hnodup, List.nodup_singleton _, fun t ht u hu heq => ?_⟩
    rw [List.mem_singleton.1 hu] at heq
    have hproduct := (hseparate t ht).2.2.1
    rw [heq] at hproduct
    cases hproduct
  have htwo : 2 ≤ (ts ++ [symbol x true]).length := by
    have := List.length_pos_iff.2 hsome
    rw [← hts, List.length_append, List.length_zipWith, hlength, min_self, List.length_singleton]
    omega
  refine ⟨sortParts (ts ++ [symbol x true]), ?_, hts ▸ perm_sortParts _,
    (perm_sortParts _).nodup_iff.2 hdifferent, fun t ht => hall t (mem_sortParts.1 ht)⟩
  rw [← ha, hts, sumOf_different (fun t ht => ⟨(hall t ht).1, (hall t ht).2.1⟩) hdifferent htwo]

/-- An affine function of signals is a signal, with a term for each of them and
one more. -/
theorem signal_affine (hsome : es ≠ []) :
    Signal (fun y => N y ∨ y ∈ x :: ws) a ∧ a.terms.length = es.length + 1 := by
  obtain ⟨ts, hsum, hperm, hnodup, hts⟩ := terms_affine ha hlength hdistinct hes hfresh hsome
  have hpolynomial : Polynomial (fun y => N y ∨ y ∈ x :: ws) a := ha ▸ (Engine.keepsValues_standard.affine
    (fun e he => (hes e he).polynomial.mono fun y hy => .inl hy) fun w hw => .inr hw).1
  rw [hsum] at hpolynomial ⊢
  refine ⟨⟨hpolynomial, rfl, fun t ht => ⟨(hts t ht).1, (hts t ht).2.1⟩, hnodup, ?_⟩, ?_⟩
  · rw [Expr.numerals, numeralsAll_eq, List.flatMap_eq_nil_iff]
    exact fun t ht => (hts t ht).2.2
  · rw [Expr.terms, hperm.length_eq, List.length_append, List.length_zipWith, hlength, min_self,
      List.length_singleton]

end

/-! ### Differences -/

theorem negated_symbol (x : String) (r : Bool) :
    negated (.symbol x r) = .product [.number (.exact (-1)), .symbol x r] := by
  have hone : ¬(-1 : ℚ) = 1 := by norm_num
  simp [negated, scale, scaleTerm, Coefficient.ofInt, splitCoefficient, Coefficient.one,
    Coefficient.mul, withCoefficient, hone]

theorem terms_ne_nil (h : Polynomial N e) : e.terms ≠ [] := by
  cases h with
  | sum hne h => exact hne
  | _ => exact List.cons_ne_nil _ _

/-- The difference of a signal and a new symbol is a sum, which has one term more. -/
theorem minus_symbol (he : Signal N e) {x : String} (hx : ¬N x) (r : Bool) :
    minus e (.symbol x r) =
      .sum (sortParts (e.terms ++ [.product [.number (.exact (-1)), .symbol x r]])) := by
  have hone : ¬(-1 : ℚ) = 1 := by norm_num
  have hopposite : Separate (.product [.number (.exact (-1)), .symbol x r]) :=
    ⟨rfl, rfl, by simp [partsOf, splitCoefficient, rebuildTerm, Coefficient.isNumber,
      withCoefficient, ofFactors, hone], -1, rfl⟩
  have hterms : [e, product [.number (.exact (-1)), .symbol x r]].flatMap terms =
      e.terms ++ [.product [.number (.exact (-1)), .symbol x r]] := rfl
  have hkeys : (e.terms ++ [product [.number (.exact (-1)), .symbol x r]]).map
      (fun t => (partsOf t).1) = e.terms ++ [.symbol x r] := by
    have hsame := (List.map_congr_left fun t ht => (he.terms t ht).2).trans (List.map_id' e.terms)
    rw [List.map_append, hsame]
    rfl
  have hnew : symbol x r ∉ e.terms := fun hmem => hx (he.polynomial.terms _ hmem).name
  have hisZero : e.isZero = false := by
    have := he.base
    cases e <;> simp_all [isBase, isZero]
  rw [minus, negated_symbol, sumOf_separate (by simpa using ⟨hisZero, rfl⟩) le_rfl, hterms,
    ofTerms_eq_sum]
  · have := List.length_pos_iff.2 (terms_ne_nil he.polynomial)
    rw [(perm_sortParts _).length_eq, List.length_append]
    exact Nat.succ_le_succ this
  · rw [hterms]
    intro t ht
    rcases List.mem_append.1 ht with ht | ht
    · exact (he.terms t ht).1
    · exact List.mem_singleton.1 ht ▸ hopposite
  · rw [hterms, hkeys]
    exact List.nodup_append.2 ⟨he.distinct, List.nodup_singleton _,
      fun t ht u hu heq => hnew (List.mem_singleton.1 hu ▸ heq ▸ ht)⟩

theorem isBase_minus (he : Signal N e) {x : String} (hx : ¬N x) (r : Bool) :
    (minus e (.symbol x r)).isBase = true := by
  rw [minus_symbol he hx r]
  rfl

end Gantry.Algebra.Expr
