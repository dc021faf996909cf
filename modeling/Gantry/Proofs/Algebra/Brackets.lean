import Gantry.Proofs.Algebra.Depth
import Gantry.Proofs.Memo.Nesting

/-!
How many brackets means of squares take. The text of such a mean begins with the
square of a difference. There is nothing to share in the difference, and it takes a
bracket for each of its terms.
-/

namespace Gantry

namespace Formula

variable {f g : Formula} {op : String} {n : Nat}

theorem flat_variable (x : String) : (Formula.variable x).Flat :=
  (everywhere_iff _ _).2 ⟨rfl, by simp [children]⟩

theorem Flat.unary (hf : f.Flat) : (unary op f).Flat :=
  (everywhere_iff _ _).2 ⟨rfl, List.forall_mem_singleton.2 hf⟩

theorem Flat.binary (hf : f.Flat) (hg : g.Flat) : (binary op f g).Flat :=
  (everywhere_iff _ _).2 ⟨rfl, List.forall_mem_cons.2 ⟨hf, List.forall_mem_singleton.2 hg⟩⟩

/-- Formulas whose first group takes so many brackets. -/
def BeginsWith (n : Nat) (f : Formula) : Prop := ∃ g, FirstGroup f g ∧ n ≤ g.nesting

theorem BeginsWith.left (h : f.BeginsWith n) : (binary op f g).BeginsWith n :=
  h.imp fun _ hg => hg.imp_left .left

end Formula

namespace Algebra.Expr

open Formula (Phrase BeginsWith FirstGroup sumLevel productLevel signLevel powerLevel)

variable {N : String → Prop} {a b : Expr} {bs ts us : List Expr} {ks : List ℕ} {k n : ℕ} {f : Formula}

/-! ### Differences -/

theorem IsMonomial.flat (h : IsMonomial f) : f.Flat := by
  cases h with
  | single x => exact Formula.flat_variable x
  | product x y => exact (Formula.flat_variable x).binary (Formula.flat_variable y)

theorem IsMonomial.nesting_pos (h : IsMonomial f) : 0 < f.nesting := by
  cases h with
  | single x => exact Nat.one_pos
  | product x y => exact Nat.succ_pos _

/-- What stands in the difference of an affine function of symbols and a symbol. -/
inductive DifferenceTerm : Expr → Prop
  | named {t : Expr} (h : NamedTerm t) : DifferenceTerm t
  | opposite {a : Expr} (h : IsNamed a) : DifferenceTerm (.product [.number (.exact (-1)), a])

theorem inner_opposite (h : IsNamed a) (fuel : ℕ) :
    inner (fuel + 2) (.product [.number (.exact (-1)), a]) = "-" ++ inner (fuel + 1) a := by
  obtain ⟨x, r, rfl, -⟩ := h
  have hordered : orderedByKey [symbol x r] = [symbol x r] :=
    List.perm_singleton.1 (perm_orderedByKey _)
  have hpolynomial : ∀ g ∈ [symbol x r], Polynomial (fun _ => True) g := by
    simpa using Polynomial.symbol r trivial
  have hatom : powerStrength < atomStrength := by decide
  have hplaced : within (product [number (.exact (-1)), symbol x r]).strength
      (symbol x r).strength (inner (fuel + 1) (symbol x r)) = inner (fuel + 1) (symbol x r) :=
    within_of_lt ((strength_product _).2.trans hatom) _
  rw [inner_product_coefficient _ hpolynomial, hordered, List.map_singleton, hplaced]
  simp [productText, fraction]

theorem DifferenceTerm.phrase {t : Expr} (h : DifferenceTerm t) (ks : List ℕ) (fuel : ℕ) :
    Phrase ks productLevel Formula.Flat (t.signedTerm (inner (fuel + 2) t)).2.toList ∧
      Phrase ks sumLevel (fun f => f.Flat ∧ 0 < f.nesting)
        ((if (t.signedTerm (inner (fuel + 2) t)).1 then "-" else "") ++
          (t.signedTerm (inner (fuel + 2) t)).2).toList := by
  cases h with
  | named h =>
      have hphrase := (h.phrase ks fuel).2
      rw [h.signedTerm]
      refine ⟨hphrase.mono le_rfl fun f hf => hf.flat, ?_⟩
      exact Formula.Phrase.mono (P := IsMonomial) (by simpa using hphrase) (by decide)
        fun f hf => ⟨hf.flat, hf.nesting_pos⟩
  | @opposite a h =>
      obtain ⟨-, hphrase⟩ := phrase_named h ks fuel
      have hstart : ("-" ++ inner (fuel + 1) a).startsWith "-" = true :=
        (startsWith_minus_iff _).2 ⟨_, by rw [String.toList_append]; rfl⟩
      have hshown : (product [.number (.exact (-1)), a]).signedTerm ("-" ++ inner (fuel + 1) a) =
          (true, inner (fuel + 1) a) := by
        have hstrength : ¬(product [number (.exact (-1)), a]).strength < sumStrength :=
          (sumStrength_le_strength _).not_gt
        have hrest : (("-" ++ inner (fuel + 1) a).drop 1).toString = inner (fuel + 1) a :=
          String.toList_inj.1 (by simp)
        rw [Expr.signedTerm, hstart, hrest]
        simp [hstrength, isSum]
      rw [inner_opposite h, hshown]
      refine ⟨hphrase.mono (by decide) ?_, ?_⟩
      · rintro _ ⟨x, rfl⟩
        exact Formula.flat_variable x
      · have hminus : Phrase ks signLevel (fun f => f.Flat ∧ 0 < f.nesting)
            ('-' :: (inner (fuel + 1) a).toList) := by
          refine Formula.phrase_minus (hphrase.loosen (by decide)) ?_
          rintro _ ⟨x, rfl⟩
          exact ⟨(Formula.flat_variable x).unary, Nat.succ_pos _⟩
        simpa using hminus.loosen (by decide)

/-- A difference takes a bracket for each of its terms. -/
theorem phrase_difference (hne : ts ≠ []) (hts : ∀ t ∈ ts, DifferenceTerm t) (fuel : ℕ) :
    Phrase ks sumLevel (fun f => f.Flat ∧ ts.length ≤ f.nesting)
      (inner (fuel + 3) (.sum ts)).toList := by
  have hperm := perm_orderedTerms ts
  have hordered : orderedTerms ts ≠ [] := fun hnil => hne (List.perm_nil.1 (hnil ▸ hperm).symm)
  have hmore {us : List Expr} {t : Expr} {f g : Formula} {op : String}
      (hf : f.Flat ∧ us.length ≤ f.nesting) (hg : g.Flat) :
      (Formula.binary op f g).Flat ∧ (us ++ [t]).length ≤ (Formula.binary op f g).nesting := by
    refine ⟨hf.1.binary hg, ?_⟩
    rw [List.length_append, List.length_singleton, Formula.nesting]
    exact Nat.succ_le_succ (hf.2.trans (le_max_left _ _))
  have hterms : ∀ t ∈ orderedTerms ts, DifferenceTerm t := fun t ht => hts t (hperm.mem_iff.1 ht)
  rw [inner, ← hperm.length_eq]
  exact phrase_joinTerms (P := fun us f => f.Flat ∧ us.length ≤ f.nesting)
    (Q := fun _ _ f => f.Flat) hmore hmore (fun t ht => ((hterms t ht).phrase ks fuel).1) hordered
    fun t ht => ((hterms t ht).phrase ks fuel).2

/-! ### Means of squares -/

/-- Sums that can stand in a difference, with at least so many terms. -/
def IsDifference (n : ℕ) (b : Expr) : Prop :=
  ∃ ts, b = .sum ts ∧ n ≤ ts.length ∧ ∀ t ∈ ts, DifferenceTerm t

/-- The square of a difference begins with the difference. -/
theorem phrase_square (hb : IsDifference n b) (hn : 2 ≤ n) (hks : 2 ∈ ks) (fuel : ℕ) :
    Opens (inner (fuel + 4) (.power b (ofInt 2))).toList ∧
      Phrase ks powerLevel (BeginsWith n) (inner (fuel + 4) (.power b (ofInt 2))).toList := by
  obtain ⟨ts, rfl, hlength, hts⟩ := hb
  have hne : ts ≠ [] := List.ne_nil_of_length_pos (by omega)
  have hplace : (sum ts).strength ≤ powerStrength := by
    show sumStrength ≤ powerStrength
    decide
  have htext : (inner (fuel + 4) (.power (.sum ts) (ofInt 2))).toList =
      Formula.enclose (inner (fuel + 3) (.sum ts)).toList ++ (['*', '*'] ++ (toString 2).toList) := by
    have hpower : inner (fuel + 4) (.power (.sum ts) (ofInt (2 : ℕ))) =
        within powerStrength (sum ts).strength (inner (fuel + 3) (.sum ts)) ++ "**" ++ toString 2 :=
      inner_power one_lt_two
    rw [within, if_pos hplace] at hpower
    rw [show ofInt 2 = ofInt (2 : ℕ) from rfl, hpower]
    simp [toList_parenthesized]
  rw [htext]
  refine ⟨(opens_enclose _).append _, Formula.phrase_pow (P := BeginsWith n) ?_ hks .left⟩
  refine Formula.phrase_group (phrase_difference hne hts fuel) fun {g} hg => ?_
  have hnesting : n ≤ g.nesting := hlength.trans hg.2
  exact ⟨_, .here hg.1 (Formula.isTrivial_key_eq_false (by omega)), hnesting⟩

/-- So does the square with a denominator. -/
theorem phrase_quotient (hb : IsDifference n b) (hn : 2 ≤ n)
    (hpolynomial : Polynomial N (.power b (ofInt 2))) (hk : 1 < k) (hks : 2 ∈ ks) (hks' : k ∈ ks)
    (fuel : ℕ) :
    Opens (inner (fuel + 5) (.product [.number (.exact (1 / k)), .power b (ofInt 2)])).toList ∧
      Phrase ks productLevel (BeginsWith n)
        (inner (fuel + 5) (.product [.number (.exact (1 / k)), .power b (ofInt 2)])).toList := by
  obtain ⟨hopens, hsquare⟩ := phrase_square hb hn hks fuel
  have hordered : orderedByKey [power b (ofInt 2)] = [power b (ofInt 2)] :=
    List.perm_singleton.1 (perm_orderedByKey _)
  have hplaced : within (product [number (.exact (1 / k)), power b (ofInt 2)]).strength
      (power b (ofInt 2)).strength (inner (fuel + 4) (power b (ofInt 2))) =
        inner (fuel + 4) (power b (ofInt 2)) :=
    within_of_lt (strength_product _).2 _
  have hnum : (1 / k : ℚ).num.natAbs = 1 := by
    rw [one_div, Rat.inv_natCast_num_of_pos (by omega)]
    rfl
  have hden : (1 / k : ℚ).den = k := by
    rw [one_div, Rat.inv_natCast_den_of_pos (by omega)]
  have htext : (inner (fuel + 5) (.product [.number (.exact (1 / k)), .power b (ofInt 2)])).toList =
      (inner (fuel + 4) (.power b (ofInt 2))).toList ++ (['/'] ++ (toString k).toList) := by
    rw [inner_product_coefficient _ (List.forall_mem_singleton.2 hpolynomial), hordered,
      List.map_singleton, hplaced, productText, hnum, hden]
    simp [fraction, hk.ne']
  rw [htext]
  exact ⟨hopens.append _, Formula.phrase_div (hsquare.loosen (by decide)) hks' .left⟩

/-- The text of the mean of squares of differences begins with one of them. -/
theorem beginsWith_of_parse_squares (hk : 1 < k)
    (hbs : ∀ b ∈ bs, Polynomial N (.power b (ofInt 2)) ∧ IsDifference n b) (hn : 2 ≤ n)
    (hne : us ≠ [])
    (hus : us.Perm (bs.map fun b => .product [.number (.exact (1 / k)), .power b (ofInt 2)]))
    (hf : Formula.parse (sum us).text = .ok f) : f.BeginsWith n := by
  have hperm := perm_orderedTerms us
  have hordered : orderedTerms us ≠ [] := fun hnil => hne (List.perm_nil.1 (hnil ▸ hperm).symm)
  have hcount : 1 ≤ nodeCountAll us := by
    obtain ⟨u, us, rfl⟩ := List.exists_cons_of_ne_nil hne
    exact (nodeCount_pos u).trans_le (Nat.le_add_right _ _)
  obtain ⟨fuel, hfuel⟩ : ∃ fuel, 2 * (sum us).nodeCount + 2 = fuel + 6 :=
    ⟨2 * nodeCountAll us - 2, by rw [nodeCount]; omega⟩
  have hterms : ∀ u ∈ orderedTerms us, u.isSum = false ∧ Opens (inner (fuel + 5) u).toList ∧
      Phrase [2, k] productLevel (BeginsWith n) (inner (fuel + 5) u).toList := by
    intro u hu
    obtain ⟨b, hb, rfl⟩ := List.mem_map.1 (hus.mem_iff.1 (hperm.mem_iff.1 hu))
    obtain ⟨hpolynomial, hdifference⟩ := hbs b hb
    exact ⟨rfl, phrase_quotient hdifference hn hpolynomial hk (by simp) (by simp) fuel⟩
  have htext : (sum us).text = joinTerms ((orderedTerms us).map fun u =>
      (false, inner (fuel + 5) u)) := by
    rw [text, hfuel, inner]
    · refine congrArg joinTerms (List.map_congr_left fun u hu => ?_)
      obtain ⟨hsum, hopens, -⟩ := hterms u hu
      exact signedTerm_of_opens hsum hopens
    · rintro c ⟨⟩
  have hphrase : Phrase [2, k] sumLevel (BeginsWith n) (sum us).text.toList := by
    rw [htext]
    refine phrase_joinTerms (P := fun _ => BeginsWith n) (Q := fun _ _ => BeginsWith n)
      (fun hf _ => hf.left) (fun hf _ => hf.left) (fun u hu => (hterms u hu).2.2) hordered
      fun u hu => ?_
    simpa using (hterms u hu).2.2.loosen (by decide)
  exact ((Formula.parse_of_phrase hphrase).1 f hf).1

end Algebra.Expr

end Gantry
