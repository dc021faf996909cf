import Gantry.Proofs.Algebra.Affine
import Gantry.Proofs.Formula.Depth

/-!
How deep texts of sums are read. A formula with few levels depends on few names, so the mean of
squared differences, whose terms depend on more, has more levels than terms. An affine function of
symbols has just one level more than terms.
-/

namespace Gantry

open Formula (Means)

variable {N : String → Prop} {v : (String → ℚ) → ℚ}

/-! ### Names and levels -/

namespace Formula

/-- What has an exact value is a binary tree, with room for so many names. -/
theorem two_mul_length_occurrences_le {s : String → ℚ} {f : Formula} {q : ℚ}
    (h : f.exactAt s = .ok q) : 2 * f.occurrences.length ≤ 2 ^ f.depth := by
  induction f generalizing q with
  | number n => exact Nat.zero_le _
  | constant c => exact Nat.zero_le _
  | var x => exact le_rfl
  | group e ih => exact (ih h).trans (Nat.pow_le_pow_right two_pos (Nat.le_succ _))
  | unary op e ih =>
      obtain ⟨o, -, h⟩ := bind_eq_ok_iff.1 h
      obtain ⟨p, hp, -⟩ := bind_eq_ok_iff.1 h
      exact (ih hp).trans (Nat.pow_le_pow_right two_pos (Nat.le_succ _))
  | binary op l r ihl ihr =>
      obtain ⟨p, q, hp, hq, -⟩ := exists_of_exactAt_binary h
      have hleft : 2 ^ l.depth ≤ 2 ^ Nat.max l.depth r.depth :=
        Nat.pow_le_pow_right two_pos (Nat.le_max_left _ _)
      have hright : 2 ^ r.depth ≤ 2 ^ Nat.max l.depth r.depth :=
        Nat.pow_le_pow_right two_pos (Nat.le_max_right _ _)
      have hl := ihl hp
      have hr := ihr hq
      rw [occurrences, depth, List.length_append, pow_succ]
      omega
  | call g args ih => cases h

variable {f : Formula} {x : String} {xs : List String}

theorem Means.mem_occurrences (h : Means N f v) {s : String → ℚ} {q : ℚ}
    (hx : v (Function.update s x q) ≠ v s) : x ∈ f.occurrences := by
  by_contra hnot
  have hsame : f.exactAt (Function.update s x q) = f.exactAt s :=
    evaluateOver_congr fun y hy => by
      have hne : y ≠ x := fun heq => hnot (heq ▸ hy)
      rw [Function.update_of_ne hne]
  rw [h.value, h.value] at hsame
  exact hx (Except.ok.inj hsame)

/-- A formula has room for the names that its value depends on. -/
theorem Means.two_mul_length_le (h : Means N f v) (hxs : xs.Nodup)
    (hdepends : ∀ x ∈ xs, ∃ s q, v (Function.update s x q) ≠ v s) : 2 * xs.length ≤ 2 ^ f.depth := by
  have hsubset : xs ⊆ f.occurrences := fun x hx => by
    obtain ⟨s, q, hne⟩ := hdepends x hx
    exact h.mem_occurrences hne
  have hlength := (hxs.subperm hsubset).length_le
  have hroom := two_mul_length_occurrences_le (h.value fun _ => 0)
  omega

end Formula

namespace Algebra.Expr

open Formula (Phrase sumLevel productLevel powerLevel)

variable {a b : Expr} {bs ts fs : List Expr} {n : Nat}

/-! ### Sums of deep terms -/

/-- The text of a sum has a level for each of its terms behind those of the first. -/
theorem le_depth_of_parse_sum (hN : ∀ x, N x → Nameable x) (h : Polynomial N (.sum ts))
    (hdeep : ∀ t ∈ ts, ∀ f, Means N f (fun s => t.valueAt s) → n ≤ f.depth) {f : Formula}
    (hf : Formula.parse (sum ts).text = .ok f) : ts.length - 1 + n ≤ f.depth := by
  cases h with
  | sum hne hts =>
      have hphrase : Phrase (numeralsAll ts) sumLevel
          (Deep N (fun s => (sum ts).valueAt s) (ts.length - 1 + n)) (sum ts).text.toList := by
        refine phrase_inner_sum hne (fun t ht => ?_) hdeep
        refine worded hN (hts t ht) ?_ (numerals_subset_of_mem ht)
        have hcount := nodeCount_le_of_mem ht
        rw [nodeCount]
        omega
      exact ((Formula.parse_of_phrase hphrase).1 f hf).1.2

/-! ### Means of squares -/

theorem productOf_sum_number {q : ℚ} (hzero : q ≠ 0) (hone : q ≠ 1) (ts : List Expr) :
    productOf [.sum ts, .number (.exact q)] = distribute (.exact q) ts := by
  have hfuel : productOf [.sum ts, .number (.exact q)] =
      times (99 + 1) [.sum ts, .number (.exact q)] := rfl
  have hfilter : [Expr.sum ts, .number (.exact q)].filter (!·.isOne) =
      [.sum ts, .number (.exact q)] := by
    have hnumber : (number (.exact q)).isOne = false := by simpa [isOne] using hone
    have hsum : (sum ts).isOne = false := rfl
    simp [hnumber, hsum]
  have hcoefficient : Coefficient.one.isOne = true := rfl
  rw [hfuel, times, hfilter]
  simp [ratio?, splitCoefficient, hzero, hcoefficient]

/-- Powers get a number in front when it is distributed over them. -/
theorem distribute_powers {q : ℚ} (hone : q ≠ 1) (hlength : 2 ≤ ts.length)
    (hts : ∀ t ∈ ts, ∃ b e, t = .power b e) :
    distribute (.exact q) ts = .sum (sortParts (ts.map fun t => .product [.number (.exact q), t])) := by
  have hscaled : ts.map (scaleTerm (.exact q)) = ts.map fun t => .product [.number (.exact q), t] := by
    refine List.map_congr_left fun t ht => ?_
    obtain ⟨b, e, rfl⟩ := hts t ht
    simp [scaleTerm, splitCoefficient, Coefficient.one, Coefficient.mul, withCoefficient, hone]
  have hnumbers : (ts.map fun t => Expr.product [.number (.exact q), t]).filterMap number? = [] :=
    List.filterMap_eq_nil_iff.2 (List.forall_mem_map.2 fun _ _ => rfl)
  have hothers : (ts.map fun t => Expr.product [.number (.exact q), t]).filter
      (fun t => t.number?.isNone) = ts.map fun t => .product [.number (.exact q), t] :=
    List.filter_eq_self.2 (List.forall_mem_map.2 fun _ _ => rfl)
  have hzero : (List.foldl Coefficient.add .zero []).isZero = true := rfl
  rw [distribute, hscaled, hnumbers, hothers, if_pos hzero, ofTerms_eq_sum]
  rwa [(perm_sortParts _).length_eq, List.length_map]

/-- The mean of squares of different bases has a term for each of them. -/
theorem quotientOf_squares (hbs : ∀ b ∈ bs, Polynomial N b ∧ b.isBase = true) (hnodup : bs.Nodup)
    (hlength : 2 ≤ bs.length) {k : ℕ} (hk : 1 < k) :
    ∃ ts, quotientOf (sumOf (bs.map fun b => powerOf b (ofInt 2))) (ofInt k) = .sum ts ∧
      ts.Perm (bs.map fun b => .product [.number (.exact (1 / k)), .power b (ofInt 2)]) := by
  obtain ⟨es, hes⟩ : ∃ es, es = bs.map fun b => Expr.power b (ofInt 2) := ⟨_, rfl⟩
  have hpowers : ∀ e ∈ es, ∃ b, e = .power b (ofInt 2) := by
    rw [hes]
    exact List.forall_mem_map.2 fun b _ => ⟨b, rfl⟩
  have hseparate : ∀ e ∈ es, Separate e ∧ (partsOf e).1 = e := fun e he => by
    obtain ⟨b, rfl⟩ := hpowers e he
    exact separate_of_split rfl rfl rfl
  have hcount : 2 ≤ es.length := by rwa [hes, List.length_map]
  have hsquares : bs.map (fun b => powerOf b (ofInt 2)) = es :=
    hes ▸ List.map_congr_left fun b hb => powerOf_base (hbs b hb).1 (hbs b hb).2 (by decide)
  have hdistinct : es.Nodup := hes ▸ hnodup.map fun b c heq => (Expr.power.inj heq).1
  have hmany : (1 : ℚ) < k := by exact_mod_cast hk
  have hone : (1 / k : ℚ) ≠ 1 := ((div_lt_one (by positivity)).2 hmany).ne
  have hquotient : quotientOf (sumOf es) (ofInt k) = distribute (.exact (1 / k)) (sortParts es) := by
    rw [sumOf_different hseparate hdistinct hcount, quotientOf, powerOf_ofInt_minusOne (by omega),
      productOf_sum_number (by positivity) hone]
    rfl
  have hterms : distribute (.exact (1 / k)) (sortParts es) =
      .sum (sortParts ((sortParts es).map fun t => .product [.number (.exact (1 / k)), t])) := by
    refine distribute_powers hone (by rwa [(perm_sortParts _).length_eq]) fun t ht => ?_
    obtain ⟨b, rfl⟩ := hpowers t (mem_sortParts.1 ht)
    exact ⟨b, _, rfl⟩
  have hproducts : (bs.map fun b => Expr.product [.number (.exact (1 / k)), .power b (ofInt 2)]) =
      es.map fun t => .product [.number (.exact (1 / k)), t] := by
    rw [hes, List.map_map]
    rfl
  rw [hsquares, hquotient, hterms, hproducts]
  exact ⟨_, rfl, (perm_sortParts _).trans ((perm_sortParts es).map _)⟩

/-! ### Affine functions of symbols -/

/-- Symbols with names that are read as variables. -/
def IsNamed (e : Expr) : Prop := ∃ x r, e = .symbol x r ∧ Nameable x

theorem phrase_named (h : IsNamed a) (ks : List ℕ) (fuel : ℕ) : Opens (inner (fuel + 1) a).toList ∧
    Phrase ks Formula.atomLevel (fun f => ∃ x, f = .variable x) (inner (fuel + 1) a).toList := by
  obtain ⟨x, r, rfl, hname, hvariable⟩ := h
  rw [inner]
  exact ⟨opens_name hname, (Formula.phrase_variable hname hvariable).mono le_rfl fun f hf => ⟨x, hf⟩⟩

theorem inner_product_named (hfs : fs.Perm [a, b]) (ha : IsNamed a) (hb : IsNamed b) (fuel : ℕ) :
    ∃ c d, IsNamed c ∧ IsNamed d ∧ (inner (fuel + 2) (.product fs)).toList =
      (inner (fuel + 1) c).toList ++ (['*'] ++ (inner (fuel + 1) d).toList) := by
  obtain ⟨c, d, hordered⟩ := List.length_eq_two.1 ((perm_orderedByKey fs).trans hfs).length_eq
  have hnamed : ∀ g ∈ fs, IsNamed g := fun g hg => by
    rcases List.mem_pair.1 (hfs.mem_iff.1 hg) with rfl | rfl
    · exact ha
    · exact hb
  have hplaced : ∀ g ∈ fs, within (product fs).strength g.strength (inner (fuel + 1) g) =
      inner (fuel + 1) g := fun g hg => by
    obtain ⟨x, r, rfl, -⟩ := hnamed g hg
    have hatom : powerStrength < atomStrength := by decide
    exact within_of_lt ((strength_product fs).2.trans hatom) _
  have hmem : c ∈ fs ∧ d ∈ fs := by
    constructor <;> exact (perm_orderedByKey fs).mem_iff.1 (by simp [hordered])
  refine ⟨c, d, hnamed c hmem.1, hnamed d hmem.2, ?_⟩
  obtain ⟨f, fs, rfl⟩ := List.exists_cons_of_ne_nil (List.ne_nil_of_mem hmem.1)
  have hfirst : f.isNumber = false := by
    obtain ⟨x, r, rfl, -⟩ := hnamed f List.mem_cons_self
    rfl
  rw [inner_product_bare (N := fun _ => True) hfirst fun g hg => ?_, hordered]
  · rw [List.map_cons, List.map_cons, List.map_nil, hplaced c hmem.1, hplaced d hmem.2]
    simp [productText, fraction]
  · obtain ⟨x, r, rfl, -⟩ := hnamed g hg
    exact .symbol r trivial

/-- What stands in an affine function of symbols: a symbol, or the product of two. -/
inductive NamedTerm : Expr → Prop
  | single {t : Expr} (h : IsNamed t) : NamedTerm t
  | product {fs : List Expr} {a b : Expr} (h : fs.Perm [a, b]) (ha : IsNamed a) (hb : IsNamed b) :
      NamedTerm (.product fs)

/-- What such terms are read as. -/
inductive IsMonomial : Formula → Prop
  | single (x : String) : IsMonomial (.variable x)
  | product (x y : String) : IsMonomial (.binary "*" (.variable x) (.variable y))

theorem IsMonomial.depth_le {f : Formula} (h : IsMonomial f) : f.depth ≤ 2 := by
  cases h with
  | single x => exact Nat.le_succ 1
  | product x y => exact le_rfl

theorem NamedTerm.phrase {t : Expr} (h : NamedTerm t) (ks : List ℕ) (fuel : ℕ) :
    Opens (inner (fuel + 2) t).toList ∧
      Phrase ks productLevel IsMonomial (inner (fuel + 2) t).toList := by
  cases h with
  | single h =>
      obtain ⟨hopens, hphrase⟩ := phrase_named h ks (fuel + 1)
      refine ⟨hopens, hphrase.mono (by decide) ?_⟩
      rintro _ ⟨x, rfl⟩
      exact .single x
  | product h ha hb =>
      obtain ⟨c, d, hc, hd, htext⟩ := inner_product_named h ha hb fuel
      obtain ⟨hopens, hleft⟩ := phrase_named hc ks fuel
      obtain ⟨hstar, hright⟩ := phrase_named hd ks fuel
      rw [htext]
      refine ⟨hopens.append _, Formula.phrase_mul (hleft.loosen (by decide)) (hright.loosen (by decide))
        hstar.head?_ne_star ?_⟩
      rintro _ _ ⟨x, rfl⟩ ⟨y, rfl⟩
      exact .product x y

/-- A term whose text begins with no sign is shown as it is. -/
theorem signedTerm_of_opens {t : Expr} {x : String} (hsum : t.isSum = false) (h : Opens x.toList) :
    t.signedTerm x = (false, x) := by
  have hstart : x.startsWith "-" = false := by
    rw [← Bool.not_eq_true, startsWith_minus_iff]
    rintro ⟨cs, hcs⟩
    obtain ⟨c, rest, hc, hminus, -⟩ := h
    rw [hcs] at hc
    exact hminus (List.cons.inj hc).1.symm
  simp [Expr.signedTerm, hstart, hsum]

theorem NamedTerm.signedTerm {t : Expr} (h : NamedTerm t) (fuel : ℕ) :
    t.signedTerm (inner (fuel + 2) t) = (false, inner (fuel + 2) t) := by
  refine signedTerm_of_opens ?_ (h.phrase [] fuel).1
  obtain ⟨x, r, rfl, -⟩ | - := h <;> rfl

/-- The text of a sum of such terms has just one level more than terms. -/
theorem depth_le_of_parse_sum (hne : ts ≠ []) (hts : ∀ t ∈ ts, NamedTerm t) {f : Formula}
    (hf : Formula.parse (sum ts).text = .ok f) : f.depth ≤ ts.length + 1 := by
  have hperm := perm_orderedTerms ts
  have htext : (sum ts).text = joinTerms ((orderedTerms ts).map fun t =>
      (false, inner (2 * nodeCountAll ts + 1 + 2) t)) := by
    have hfuel : 2 * (sum ts).nodeCount + 2 = 2 * nodeCountAll ts + 1 + 2 + 1 := by
      rw [nodeCount]
      omega
    rw [text, hfuel, inner]
    · exact congrArg joinTerms
        (List.map_congr_left fun t ht => (hts t (hperm.mem_iff.1 ht)).signedTerm _)
    · rintro c ⟨⟩
  have hordered : orderedTerms ts ≠ [] := fun hnil => hne (List.perm_nil.1 (hnil ▸ hperm).symm)
  have hphrase : Phrase [] sumLevel
      (fun f => orderedTerms ts ≠ [] ∧ f.depth ≤ (orderedTerms ts).length + 1)
      (sum ts).text.toList := by
    rw [htext]
    refine phrase_joinTerms (P := fun us f => us ≠ [] ∧ f.depth ≤ us.length + 1)
      (Q := fun _ negative f => negative = false ∧ f.depth ≤ 2) (fun hf hg => ?_) (fun _ hg => ?_)
      (fun t ht => ?_) hordered fun t ht => ?_
    · have hpos := List.length_pos_iff.2 hf.1
      refine ⟨by simp, ?_⟩
      rw [List.length_append, List.length_singleton]
      exact Formula.depth_binary_le hf.2 (hg.2.trans (by omega))
    · cases hg.1
    · exact ((hts t (hperm.mem_iff.1 ht)).phrase [] _).2.mono le_rfl fun f hf => ⟨rfl, hf.depth_le⟩
    · have hfirst := (hts t (hperm.mem_iff.1 ht)).phrase [] (2 * nodeCountAll ts + 1)
      refine Formula.Phrase.mono (P := IsMonomial) (by simpa using hfirst.2) (by decide)
        fun f hf => ⟨by simp, by simpa using hf.depth_le⟩
  rw [← hperm.length_eq]
  exact ((Formula.parse_of_phrase hphrase).1 f hf).1.2

/-- The terms of an affine function of symbols. -/
theorem namedTerms_affine {x : String} {ws xs : List String} (hlength : ws.length = xs.length)
    (hdistinct : ws.Nodup) (hfresh : ∀ w ∈ ws, w ∉ xs) (hsome : xs ≠ [])
    (hnameable : ∀ y ∈ x :: (ws ++ xs), Nameable y) :
    ∃ ts, sumOf (List.zipWith (fun w e => productOf [.symbol w true, e]) ws
        (xs.map fun y => .symbol y true) ++ [.symbol x true]) = .sum ts ∧
      ts.length = xs.length + 1 ∧ ∀ t ∈ ts, NamedTerm t := by
  have hsymbols : ∀ e ∈ xs.map fun y => Expr.symbol y true, Signal (· ∈ xs) e :=
    List.forall_mem_map.2 fun y hy => signal_symbol hy true
  obtain ⟨ts, hsum, hperm, -⟩ := terms_affine rfl (by simpa using hlength) hdistinct hsymbols hfresh
    (by simpa using hsome)
  have hcount : ts.length = xs.length + 1 := by
    simpa [hlength] using hperm.length_eq
  refine ⟨ts, hsum, hcount, fun t ht => ?_⟩
  rcases List.mem_append.1 (hperm.mem_iff.1 ht) with ht | ht
  · rw [List.zipWith_map_right, ← List.map_uncurry_zip_eq_zipWith] at ht
    obtain ⟨⟨w, y⟩, hwy, rfl⟩ := List.mem_map.1 ht
    obtain ⟨hw, hy⟩ := List.of_mem_zip hwy
    have hne : Expr.symbol w true ≠ .symbol y true := fun heq =>
      hfresh w hw ((Expr.symbol.inj heq).1 ▸ hy)
    obtain ⟨fs, hproduct, hfs⟩ := productOf_bases (N := fun _ => True) (.symbol true trivial)
      (.symbol true trivial) rfl rfl hne
    rw [Function.uncurry_apply_pair, hproduct]
    exact .product hfs ⟨w, true, rfl, hnameable w (by simp [hw])⟩
      ⟨y, true, rfl, hnameable y (by simp [hy])⟩
  · exact List.mem_singleton.1 ht ▸ .single ⟨x, true, rfl, hnameable x List.mem_cons_self⟩

end Algebra.Expr

end Gantry
