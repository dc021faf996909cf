import Mathlib.Algebra.BigOperators.Group.List.Lemmas
import Gantry.Algebra.Text
import Gantry.Proofs.Algebra.Phrase
import Gantry.Proofs.Algebra.Polynomial

/-!
The text of a polynomial is read as a formula of the same exact value. Terms
and factors change places when they are shown, signs are taken out of terms,
and the denominator of a coefficient goes to the end of its product; none of
this changes the value.
-/

namespace Gantry.Algebra.Expr

open Formula (Phrase Means Spells sumLevel productLevel powerLevel atomLevel)

variable {N : String → Prop} {e t : Expr} {ts fs : List Expr} {ks : List ℕ} {fuel : Nat}
  {v w : (String → ℚ) → ℚ} {cs ds : List Char}

/-! ### The order of what is shown -/

theorem perm_orderTermsWith {α : Type} (ts : List (Expr × TermKey × α)) :
    (orderTermsWith ts).Perm (ts.map fun t => (t.1, t.2.2)) := by
  unfold orderTermsWith
  split
  · next a k x b l y =>
    split
    · exact .refl _
    · split
      · exact .swap _ _ _
      · exact (perm_sortBy _ _).map _
  · exact (perm_sortBy _ _).map _

theorem perm_orderedTerms (ts : List Expr) : (orderedTerms ts).Perm ts := by
  have h := (perm_orderTermsWith (ts.map fun t => (t, TermKey.ofTerm t (sortKeys t.factors), ()))).map
    Prod.fst
  simpa [orderedTerms, Function.comp_def] using h

theorem perm_orderedByKey (es : List Expr) : (orderedByKey es).Perm es := by
  have h := (perm_sortBy (fun a b => SortKey.le a.2 b.2) (es.map fun e => (e, e.sortKey))).map Prod.fst
  simpa [orderedByKey, Function.comp_def] using h

/-! ### Numerals -/

mutual

/-- The numbers whose numerals may be shown in the text of an expression. -/
def numerals : Expr → List ℕ
  | .number (.exact q) => [q.num.natAbs, q.den]
  | .sum ts => numeralsAll ts
  | .product fs => numeralsAll fs
  | .power b e => b.numerals ++ e.numerals
  | _ => []

def numeralsAll : List Expr → List ℕ
  | [] => []
  | e :: es => e.numerals ++ numeralsAll es

end

theorem numeralsAll_eq (es : List Expr) : numeralsAll es = es.flatMap numerals := by
  induction es with
  | nil => rfl
  | cons e es ih => rw [numeralsAll, ih, List.flatMap_cons]

/-! ### Signs -/

/-- A text that begins with neither a minus sign nor a star. -/
def Opens (cs : List Char) : Prop := ∃ c rest, cs = c :: rest ∧ c ≠ '-' ∧ c ≠ '*'

theorem Opens.append (h : Opens cs) (ds : List Char) : Opens (cs ++ ds) := by
  obtain ⟨c, rest, rfl, hminus, hstar⟩ := h
  exact ⟨c, rest ++ ds, rfl, hminus, hstar⟩

theorem Opens.head?_ne_star (h : Opens cs) (rest : List Char) : (cs ++ rest).head? ≠ some '*' := by
  obtain ⟨c, rest', rfl, -, hstar⟩ := h
  simpa using hstar

theorem opens_chars (n : Decimal.Numeral) : Opens n.chars := by
  obtain ⟨c, rest, hrest, hc⟩ := n.exists_cons
  refine ⟨c, rest, hrest, ?_, ?_⟩
  · rintro rfl
    cases hc
  · rintro rfl
    cases hc

theorem opens_numeral (k : ℕ) : Opens (toString k).toList := by
  obtain ⟨n, hchars, -⟩ := Decimal.exists_numeral_toString k
  exact hchars ▸ opens_chars n

theorem opens_name {x : String} (h : Formula.isName x = true) : Opens x.toList := by
  unfold Formula.isName at h
  split at h
  · cases h
  · next c rest hx =>
    rw [Bool.and_eq_true] at h
    refine ⟨c, rest, hx, ?_, ?_⟩
    · rintro rfl
      cases h.1
    · rintro rfl
      cases h.1

theorem opens_enclose (cs : List Char) : Opens (Formula.enclose cs) :=
  ⟨'(', _, rfl, by decide, by decide⟩

theorem toList_parenthesized (s : String) : (parenthesized s).toList = Formula.enclose s.toList := by
  simp [parenthesized, Formula.enclose]

/-- The text of a product, with or without a sign in front. -/
def SignedPhrase (N : String → Prop) (ks : List ℕ) (v : (String → ℚ) → ℚ) (cs : List Char) : Prop :=
  (Opens cs ∧ Phrase ks productLevel (Means N · v) cs) ∨
    ∃ body, cs = '-' :: body ∧ Phrase ks productLevel (Means N · fun s => -v s) body

theorem SignedPhrase.phrase (h : SignedPhrase N ks v cs) : Phrase ks productLevel (Means N · v) cs := by
  obtain ⟨-, h⟩ | ⟨body, rfl, h⟩ := h
  · exact h
  · simpa using Formula.phrase_neg h

/-- Formulas of a given value, at least so many levels deep. -/
def Deep (N : String → Prop) (v : (String → ℚ) → ℚ) (n : Nat) (f : Formula) : Prop :=
  Means N f v ∧ n ≤ f.depth

/-- What the text of an expression is read as, depending on where it stands. -/
structure Worded (N : String → Prop) (ks : List ℕ) (e : Expr) (x : String) : Prop where
  sum : e.isSum = true → Phrase ks sumLevel (Deep N (fun s => e.valueAt s) e.terms.length) x.toList
  term : e.isSum = false → SignedPhrase N ks (fun s => e.valueAt s) x.toList
  factor : e.isProduct = false → e.isNumber = false → ∀ place, sumStrength ≤ place →
    place < powerStrength → Opens (within place e.strength x).toList ∧
      Phrase ks powerLevel (Means N · fun s => e.valueAt s) (within place e.strength x).toList
  base : e.isBase = true → Opens (within powerStrength e.strength x).toList ∧
    Phrase ks atomLevel (Means N · fun s => e.valueAt s) (within powerStrength e.strength x).toList

/-! ### Sums -/

theorem sumStrength_le_strength (e : Expr) : sumStrength ≤ e.strength := by
  unfold strength
  split
  · split
    · exact le_rfl
    · split
      · split <;> decide
      · decide
  all_goals first | decide | (split <;> decide)

theorem startsWith_minus_iff (x : String) : x.startsWith "-" = true ↔ ∃ cs, x.toList = '-' :: cs := by
  rw [String.startsWith_string_iff]
  constructor
  · rintro ⟨cs, hcs⟩
    exact ⟨cs, hcs.symm⟩
  · rintro ⟨cs, hcs⟩
    exact ⟨cs, hcs.symm⟩

/-- The text of a term of a sum, whose sign is joined to it by the sum. -/
def ShownTerm (N : String → Prop) (ks : List ℕ) (t : Expr) (shown : Bool × String) : Prop :=
  Phrase ks productLevel (Means N · fun s => if shown.1 then -t.valueAt s else t.valueAt s) shown.2.toList

theorem Worded.signedTerm {x : String} (h : Worded N ks t x) : ShownTerm N ks t (signedTerm t x) := by
  unfold ShownTerm Expr.signedTerm
  cases hsum : t.isSum with
  | true =>
      have hgroup : Phrase ks productLevel (Means N · fun s => t.valueAt s) (parenthesized x).toList := by
        rw [toList_parenthesized]
        exact (Formula.phrase_group (h.sum hsum) fun hf => means_group hf.1).loosen (by decide)
      simpa using hgroup
  | false =>
      have hstrength : ¬t.strength < sumStrength := (sumStrength_le_strength t).not_gt
      obtain ⟨hopens, hphrase⟩ | ⟨body, hbody, hphrase⟩ := h.term hsum
      · have hstart : x.startsWith "-" = false := by
          rw [← Bool.not_eq_true, startsWith_minus_iff]
          rintro ⟨cs, hcs⟩
          obtain ⟨c, rest, hc, hminus, -⟩ := hopens
          rw [hcs] at hc
          exact hminus (List.cons.inj hc).1.symm
        simpa [hstart] using hphrase
      · have hstart : x.startsWith "-" = true := (startsWith_minus_iff x).2 ⟨body, hbody⟩
        simpa [hstart, hstrength, hbody] using hphrase

section Joining

variable {P : List Expr → Formula → Prop} {Q : Expr → Bool → Formula → Prop}
  {term : Expr → Bool × String}
  (hadd : ∀ {us t f g}, P us f → Q t false g → P (us ++ [t]) (.binary "+" f g))
  (hsub : ∀ {us t f g}, P us f → Q t true g → P (us ++ [t]) (.binary "-" f g))
  (h : ∀ t ∈ ts, Phrase ks productLevel (Q t (term t).1) (term t).2.toList)

include hadd hsub h

theorem phrase_joinRest {us : List Expr} {acc : String} (hacc : Phrase ks sumLevel (P us) acc.toList) :
    Phrase ks sumLevel (P (us ++ ts))
      ((ts.map term).foldl (fun acc (negative, t) => acc ++ (if negative then " - " else " + ") ++ t)
        acc).toList := by
  induction ts generalizing us acc with
  | nil => simpa using hacc
  | cons t ts ih =>
      obtain ⟨ht, hts⟩ := List.forall_mem_cons.1 h
      rw [List.append_cons]
      simp only [List.map_cons, List.foldl_cons]
      generalize term t = shown at ht
      obtain ⟨negative, x⟩ := shown
      cases negative with
      | false =>
          have hsum : Phrase ks sumLevel (P (us ++ [t])) _ := Formula.phrase_add hacc ht hadd
          exact ih hts (by simpa using hsum)
      | true =>
          have hsum : Phrase ks sumLevel (P (us ++ [t])) _ := Formula.phrase_sub hacc ht hsub
          exact ih hts (by simpa using hsum)

/-- Terms are joined one after the other, the first with its sign. -/
theorem phrase_joinTerms (hne : ts ≠ [])
    (hfirst : ∀ t ∈ ts, Phrase ks sumLevel (P [t])
      ((if (term t).1 then "-" else "") ++ (term t).2).toList) :
    Phrase ks sumLevel (P ts) (joinTerms (ts.map term)).toList := by
  obtain ⟨t, ts, rfl⟩ := List.exists_cons_of_ne_nil hne
  exact phrase_joinRest hadd hsub (List.forall_mem_cons.1 h).2 (hfirst t List.mem_cons_self)

end Joining

/-- Each further term of a sum is one level more. -/
theorem phrase_sum {term : Expr → Bool × String} (hne : ts ≠ [])
    (h : ∀ t ∈ ts, ShownTerm N ks t (term t)) {n : Nat}
    (hdeep : ∀ t ∈ ts, ∀ f, Means N f (fun s => t.valueAt s) → n ≤ f.depth) :
    Phrase ks sumLevel (Deep N (fun s => (ts.map (valueAt s)).sum) (ts.length - 1 + n))
      (joinTerms (ts.map term)).toList := by
  have hdeeper {us : List Expr} {t : Expr} {f g : Formula} {op : String}
      (hf : us.length - 1 + n ≤ f.depth) :
      (us ++ [t]).length - 1 + n ≤ (Formula.binary op f g).depth := by
    have hleft : f.depth ≤ Nat.max f.depth g.depth := Nat.le_max_left _ _
    rw [List.length_append, List.length_singleton, Nat.add_sub_cancel, Formula.depth]
    omega
  refine phrase_joinTerms
    (P := fun us => Deep N (fun s => (us.map (valueAt s)).sum) (us.length - 1 + n))
    (Q := fun t negative => (Means N · fun s => if negative then -t.valueAt s else t.valueAt s))
    (fun hf hg => ⟨?_, hdeeper hf.2⟩) (fun hf hg => ⟨?_, hdeeper hf.2⟩) h hne fun t ht => ?_
  · simpa using means_add hf.1 hg
  · simpa [sub_eq_add_neg] using means_sub hf.1 hg
  · have hphrase := h t ht
    unfold ShownTerm at hphrase
    have hsigned : Phrase ks productLevel (Means N · fun s => t.valueAt s)
        ((if (term t).1 then "-" else "") ++ (term t).2).toList := by
      cases hnegative : (term t).1 with
      | false => simpa [hnegative] using hphrase
      | true =>
          simp only [hnegative, ↓reduceIte] at hphrase
          simpa [hnegative] using Formula.phrase_neg hphrase
    refine hsigned.mono (by decide) fun f hf => ⟨by simpa using hf, ?_⟩
    simpa using hdeep t ht f hf

/-! ### Products -/

theorem toList_intercalate_star (x : String) (xs : List String) :
    ("*".intercalate (x :: xs)).toList = x.toList ++ xs.flatMap fun y => ['*'] ++ y.toList := by
  induction xs generalizing x with
  | nil => simp
  | cons y ys ih =>
      rw [String.intercalate_cons_cons, String.toList_append, String.toList_append, ih,
        List.flatMap_cons, List.append_assoc, List.append_assoc]
      rfl

/-- A text that stands in a product as one of its factors. -/
def ShownFactor (N : String → Prop) (ks : List ℕ) (v : (String → ℚ) → ℚ) (x : String) : Prop :=
  Opens x.toList ∧ Phrase ks powerLevel (Means N · v) x.toList

variable {shown : Expr → String} {q : ℚ}

theorem phrase_factors (h : ∀ g ∈ fs, ShownFactor N ks (fun s => g.valueAt s) (shown g))
    (hcs : Phrase ks productLevel (Means N · v) cs) :
    Phrase ks productLevel (Means N · fun s => v s * (fs.map (valueAt s)).prod)
      (cs ++ (fs.map shown).flatMap fun y => ['*'] ++ y.toList) := by
  induction fs generalizing v cs with
  | nil => simpa using hcs
  | cons g gs ih =>
      obtain ⟨⟨hopens, hg⟩, hgs⟩ := List.forall_mem_cons.1 h
      simp only [List.map_cons, List.prod_cons, List.flatMap_cons, ← mul_assoc, ← List.append_assoc]
      have hmul : Phrase ks productLevel (Means N · fun s => v s * g.valueAt s) _ :=
        Formula.phrase_mul hcs hg hopens.head?_ne_star means_mul
      exact ih hgs (by simpa using hmul)

/-- A product from the text of its factors: numerator, factors, denominator. -/
def productText (q : ℚ) (parts : List String) : String :=
  (if q < 0 then "-" else "") ++
    fraction ((if q.num.natAbs = 1 then [] else [toString q.num.natAbs]) ++ parts)
      (if q.den = 1 then [] else [toString q.den])

/-- What stands above the fraction line. -/
theorem phrase_numerator {k : ℕ} (hk : k ≠ 1 → k ∈ ks) (hne : fs ≠ [])
    (h : ∀ g ∈ fs, ShownFactor N ks (fun s => g.valueAt s) (shown g)) :
    Opens ("*".intercalate ((if k = 1 then [] else [toString k]) ++ fs.map shown)).toList ∧
      Phrase ks productLevel (Means N · fun s => k * (fs.map (valueAt s)).prod)
        ("*".intercalate ((if k = 1 then [] else [toString k]) ++ fs.map shown)).toList := by
  by_cases hone : k = 1
  · obtain ⟨g, gs, rfl⟩ := List.exists_cons_of_ne_nil hne
    obtain ⟨⟨hopens, hg⟩, hgs⟩ := List.forall_mem_cons.1 h
    simp only [hone, ↓reduceIte, List.nil_append, List.map_cons, toList_intercalate_star,
      List.prod_cons, Nat.cast_one, one_mul]
    exact ⟨hopens.append _, phrase_factors hgs (hg.loosen (by decide))⟩
  · simp only [hone, ↓reduceIte, List.singleton_append, toList_intercalate_star]
    exact ⟨(opens_numeral k).append _,
      phrase_factors h ((Formula.phrase_numeral (hk hone)).loosen (by decide))⟩

theorem fraction_eq {above : List String} (habove : above ≠ []) (k : ℕ) :
    (fraction above (if k = 1 then [] else [toString k])).toList =
      ("*".intercalate above).toList ++ if k = 1 then [] else ['/'] ++ (toString k).toList := by
  have hempty : above.isEmpty = false := by simpa using habove
  by_cases hk : k = 1 <;> simp [fraction, hempty, hk]

theorem phrase_fraction {k d : ℕ} (hk : k ≠ 1 → k ∈ ks) (hd : d ≠ 1 → d ∈ ks) (hpos : d ≠ 0)
    (hne : fs ≠ []) (h : ∀ g ∈ fs, ShownFactor N ks (fun s => g.valueAt s) (shown g)) :
    Opens (fraction ((if k = 1 then [] else [toString k]) ++ fs.map shown)
        (if d = 1 then [] else [toString d])).toList ∧
      Phrase ks productLevel (Means N · fun s => k * (fs.map (valueAt s)).prod / d)
        (fraction ((if k = 1 then [] else [toString k]) ++ fs.map shown)
          (if d = 1 then [] else [toString d])).toList := by
  obtain ⟨hopens, hphrase⟩ := phrase_numerator hk hne h
  rw [fraction_eq (by simp [hne])]
  refine ⟨hopens.append _, ?_⟩
  by_cases hone : d = 1
  · simpa [hone] using hphrase
  · rw [if_neg hone]
    exact Formula.phrase_div hphrase (hd hone) fun hf => means_quotient hf hpos

theorem natAbs_num_div_den (q : ℚ) : (q.num.natAbs : ℚ) / q.den = |q| := by
  conv_rhs => rw [← Rat.num_div_den q, abs_div, Nat.abs_cast, ← Int.cast_abs, ← Nat.cast_natAbs]

theorem signedPhrase_productText (hnum : q.num.natAbs ≠ 1 → q.num.natAbs ∈ ks)
    (hden : q.den ≠ 1 → q.den ∈ ks) (hne : fs ≠ [])
    (h : ∀ g ∈ fs, ShownFactor N ks (fun s => g.valueAt s) (shown g)) :
    SignedPhrase N ks (fun s => q * (fs.map (valueAt s)).prod)
      (productText q (fs.map shown)).toList := by
  obtain ⟨hopens, hphrase⟩ := phrase_fraction hnum hden q.den_nz hne h
  simp only [mul_div_right_comm, natAbs_num_div_den] at hphrase
  rw [productText]
  by_cases hneg : q < 0
  · refine .inr ⟨_, by rw [if_pos hneg, String.toList_append]; rfl, ?_⟩
    simpa [abs_of_neg hneg] using hphrase
  · rw [if_neg hneg, String.empty_append]
    exact .inl ⟨hopens, by simpa [abs_of_nonneg (not_lt.1 hneg)] using hphrase⟩

/-! ### Texts of polynomials -/

theorem isBelow_eq_false (h : Polynomial N e) : e.isBelow = false := by
  cases h with
  | power hb hbase hn =>
      simp [isBelow, splitCoefficient, ofInt, Coefficient.ofInt, Coefficient.isNumber,
        Coefficient.isNegative]
  | _ => rfl

theorem numberParts_exact {r : ℚ} (hr : 0 ≤ r) (place : Nat) :
    numberParts place (.exact r) =
      (if r.num.natAbs = 1 then [] else [toString r.num.natAbs],
        if r.den = 1 then [] else [toString r.den]) := by
  obtain ⟨n, hn⟩ := Int.eq_ofNat_of_zero_le (Rat.num_nonneg.2 hr)
  have htext : toString (n : ℤ) = toString n := rfl
  rw [numberParts, hn, Int.natAbs_natCast, htext]
  simp only [Nat.cast_eq_one]

theorem coefficientParts_exact (q : ℚ) (place : Nat) :
    (if (Coefficient.exact q).isOne then ([], [])
      else numberParts place
        (if (Coefficient.exact q).isNegative then (Coefficient.exact q).neg else .exact q)) =
      (if q.num.natAbs = 1 then [] else [toString q.num.natAbs],
        if q.den = 1 then [] else [toString q.den]) := by
  have hneg : (Coefficient.exact q).neg = .exact (-q) := by simp [Coefficient.neg]
  by_cases hone : q = 1
  · simp [hone]
  · rw [isOne_exact, if_neg (by simpa using hone), Coefficient.isNegative, hneg]
    by_cases hnegative : q < 0
    · rw [if_pos (decide_eq_true hnegative), numberParts_exact (neg_nonneg.2 hnegative.le),
        Rat.num_neg_eq_neg_num, Rat.den_neg_eq_den, Int.natAbs_neg]
    · rw [if_neg (by simpa using hnegative), numberParts_exact (not_lt.1 hnegative)]

theorem filter_isBelow (h : ∀ g ∈ fs, Polynomial N g) :
    (orderedByKey fs).filter isBelow = [] ∧
      (orderedByKey fs).filter (fun g => !g.isBelow) = orderedByKey fs := by
  have hbelow : ∀ g ∈ orderedByKey fs, g.isBelow = false := fun g hg =>
    isBelow_eq_false (h g ((perm_orderedByKey fs).mem_iff.1 hg))
  exact ⟨List.filter_eq_nil_iff.2 fun g hg => by simp [hbelow g hg],
    List.filter_eq_self.2 fun g hg => by simp [hbelow g hg]⟩

theorem inner_product_coefficient (q : ℚ) (h : ∀ g ∈ fs, Polynomial N g) :
    inner (fuel + 1) (.product (.number (.exact q) :: fs)) =
      productText q ((orderedByKey fs).map fun g =>
        within (Expr.product (.number (.exact q) :: fs)).strength g.strength (inner fuel g)) := by
  obtain ⟨hbelow, habove⟩ := filter_isBelow h
  have hsplit : (Expr.product (.number (.exact q) :: fs)).splitCoefficient.1 = .exact q := rfl
  have hnumber : (Coefficient.exact q).isNumber = true := rfl
  rw [inner, productText]
  simp only [hsplit, hnumber, habove, hbelow, ↓reduceIte, List.map_nil, List.append_nil,
    coefficientParts_exact]
  simp only [Coefficient.isNegative, decide_eq_true_eq]

/-- A product without a coefficient is shown with none. -/
theorem inner_product_bare {f : Expr} (hf : f.isNumber = false)
    (h : ∀ g ∈ f :: fs, Polynomial N g) :
    inner (fuel + 1) (.product (f :: fs)) =
      productText 1 ((orderedByKey (f :: fs)).map fun g =>
        within (Expr.product (f :: fs)).strength g.strength (inner fuel g)) := by
  obtain ⟨hbelow, habove⟩ := filter_isBelow h
  have hsplit : (Expr.product (f :: fs)).splitCoefficient.1 = .exact 1 := by
    cases f <;> simp_all [splitCoefficient, isNumber, Coefficient.one]
  cases f with
  | number c => cases hf
  | _ =>
      rw [inner, productText]
      simp only [hsplit, coefficientParts_exact]
      simp [habove, hbelow, Coefficient.isNegative]
      rintro _ _ ⟨⟩

/-! ### Texts of polynomials -/

/-- Names that are read as variables. -/
def Nameable (x : String) : Prop := Formula.isName x = true ∧ constant? x = none

theorem within_of_lt {place part : Nat} (h : place < part) (x : String) : within place part x = x :=
  if_neg h.not_ge

/-- An expression that holds together like an atom or a power is shown in any
place without parentheses. -/
theorem worded_of_phrase {x : String} {level : Nat} (hlevel : powerLevel ≤ level)
    (hsum : e.isSum = false) (hstrength : powerStrength ≤ e.strength)
    (hbase : e.isBase = true → powerStrength < e.strength ∧ level = atomLevel)
    (hopens : Opens x.toList) (h : Phrase ks level (Means N · fun s => e.valueAt s) x.toList) :
    Worded N ks e x where
  sum hsum' := by rw [hsum] at hsum'; cases hsum'
  term _ := .inl ⟨hopens, h.loosen (le_trans (by decide) hlevel)⟩
  factor _ _ place _ hplace := by
    rw [within_of_lt (hplace.trans_le hstrength)]
    exact ⟨hopens, h.loosen hlevel⟩
  base hbase' := by
    obtain ⟨hlt, rfl⟩ := hbase hbase'
    rw [within_of_lt hlt]
    exact ⟨hopens, h⟩

theorem worded_sum {x : String}
    (h : Phrase ks sumLevel (Deep N (fun s => (sum ts).valueAt s) ts.length) x.toList) :
    Worded N ks (.sum ts) x where
  sum _ := h
  term hsum := by cases hsum
  factor _ _ place hplace _ := by
    have hwithin : within place (sum ts).strength x = parenthesized x := if_pos hplace
    have hgroup : Phrase ks Formula.atomLevel (Means N · fun s => (sum ts).valueAt s) _ :=
      Formula.phrase_group h fun hf => means_group hf.1
    rw [hwithin, toList_parenthesized]
    exact ⟨opens_enclose _, hgroup.loosen (by decide)⟩
  base _ := by
    have hplace : sumStrength ≤ powerStrength := by decide
    have hwithin : within powerStrength (sum ts).strength x = parenthesized x := if_pos hplace
    rw [hwithin, toList_parenthesized]
    exact ⟨opens_enclose _, Formula.phrase_group h fun hf => means_group hf.1⟩

theorem worded_of_signedPhrase {x : String} (hsum : e.isSum = false)
    (hfactor : e.isProduct = true ∨ e.isNumber = true)
    (h : SignedPhrase N ks (fun s => e.valueAt s) x.toList) : Worded N ks e x where
  sum hsum' := by rw [hsum] at hsum'; cases hsum'
  term _ := h
  factor hproduct hnumber := by simp [hproduct, hnumber] at hfactor
  base hbase := by cases e <;> simp_all [isBase, isProduct, isNumber]

theorem toString_num (q : ℚ) :
    (toString q.num).toList = (if q < 0 then ['-'] else []) ++ (toString q.num.natAbs).toList := by
  by_cases hneg : q < 0
  · obtain ⟨n, hn⟩ := Int.eq_negSucc_of_lt_zero (Rat.num_neg.2 hneg)
    have htext : toString (Int.negSucc n) = "-" ++ toString (n + 1) := rfl
    rw [if_pos hneg, hn, Int.natAbs_negSucc, htext, String.toList_append]
    rfl
  · obtain ⟨n, hn⟩ := Int.eq_ofNat_of_zero_le (Rat.num_nonneg.2 (not_lt.1 hneg))
    rw [if_neg hneg, hn]
    rfl

theorem signedPhrase_number (hnum : q.num.natAbs ∈ ks) (hden : q.den ∈ ks) (alone : Bool) :
    SignedPhrase N ks (fun _ => q) ((Coefficient.exact q).text alone).toList := by
  have hmagnitude : Phrase ks productLevel (Means N · fun _ => |q|)
      ((toString q.num.natAbs).toList ++ if q.den = 1 then [] else ['/'] ++ (toString q.den).toList) := by
    have hnumerator : Phrase ks productLevel (Means N · fun _ => (q.num.natAbs : ℚ))
        (toString q.num.natAbs).toList := (Formula.phrase_numeral hnum).loosen (by decide)
    rw [← natAbs_num_div_den]
    by_cases hone : q.den = 1
    · simpa [hone] using hnumerator
    · rw [if_neg hone]
      exact Formula.phrase_div hnumerator hden fun hf => means_quotient hf q.den_nz
  have htext : ((Coefficient.exact q).text alone).toList =
      (if q < 0 then ['-'] else []) ++ ((toString q.num.natAbs).toList ++
        if q.den = 1 then [] else ['/'] ++ (toString q.den).toList) := by
    rw [Coefficient.text, ← List.append_assoc, ← toString_num]
    by_cases hone : q.den = 1 <;> simp [hone]
  rw [htext]
  by_cases hneg : q < 0
  · rw [if_pos hneg]
    exact .inr ⟨_, rfl, by rwa [abs_of_neg hneg] at hmagnitude⟩
  · rw [if_neg hneg]
    rw [abs_of_nonneg (not_lt.1 hneg)] at hmagnitude
    exact .inl ⟨(opens_numeral _).append _, hmagnitude⟩

theorem worded_number (hnum : q.num.natAbs ∈ ks) (hden : q.den ∈ ks) :
    Worded N ks (.number (.exact q)) (inner (fuel + 1) (.number (.exact q))) := by
  have hnumber := signedPhrase_number (N := N) hnum hden false
  exact worded_of_signedPhrase rfl (.inr rfl) (by simpa [inner] using hnumber)

theorem worded_symbol {x : String} (r : Bool) (hx : N x) (hname : Nameable x) :
    Worded N ks (.symbol x r) (inner (fuel + 1) (.symbol x r)) := by
  have hstrength : powerStrength < atomStrength := by decide
  have hphrase : Phrase ks atomLevel (Means N · fun s => s x) x.toList :=
    Formula.phrase_name hname.1 hname.2 hx
  rw [inner]
  exact worded_of_phrase (by decide) rfl hstrength.le (fun _ => ⟨hstrength, rfl⟩)
    (opens_name hname.1) (by simpa using hphrase)

theorem phrase_inner_sum (hne : ts ≠ []) (h : ∀ t ∈ ts, Worded N ks t (inner fuel t)) {n : Nat}
    (hdeep : ∀ t ∈ ts, ∀ f, Means N f (fun s => t.valueAt s) → n ≤ f.depth) :
    Phrase ks sumLevel (Deep N (fun s => (sum ts).valueAt s) (ts.length - 1 + n))
      (inner (fuel + 1) (.sum ts)).toList := by
  have hperm := perm_orderedTerms ts
  have hordered : orderedTerms ts ≠ [] := fun hnil => hne (List.perm_nil.1 (hnil ▸ hperm).symm)
  have hvalue (s : String → ℚ) :
      ((orderedTerms ts).map (valueAt s)).sum = (sum ts).valueAt s := by
    rw [valueAt_sum, (hperm.map _).sum_eq]
  have hjoin := phrase_sum hordered (fun t ht => (h t (hperm.mem_iff.1 ht)).signedTerm)
    fun t ht => hdeep t (hperm.mem_iff.1 ht)
  rw [inner]
  simpa only [hvalue, hperm.length_eq] using hjoin

theorem worded_terms (hne : ts ≠ []) (h : ∀ t ∈ ts, Worded N ks t (inner fuel t)) :
    Worded N ks (.sum ts) (inner (fuel + 1) (.sum ts)) := by
  have hlevels : ts.length - 1 + 1 = ts.length := Nat.sub_add_cancel (List.length_pos_iff.2 hne)
  exact worded_sum (hlevels ▸ phrase_inner_sum hne h fun t _ f _ => f.depth_pos)

theorem strength_product (fs : List Expr) :
    sumStrength ≤ (product fs).strength ∧ (product fs).strength < powerStrength := by
  rw [strength]
  split <;> decide

/-- The text of a product is read as the product of its coefficient and its
other factors. -/
theorem worded_productText {gs : List Expr} {x : String} (hnum : q.num.natAbs ≠ 1 → q.num.natAbs ∈ ks)
    (hden : q.den ≠ 1 → q.den ∈ ks) (hne : gs ≠ [])
    (h : ∀ g ∈ gs, g.isProduct = false ∧ g.isNumber = false ∧ Worded N ks g (inner fuel g))
    (hvalue : ∀ s, (product fs).valueAt s = q * (gs.map (valueAt s)).prod)
    (hx : x = productText q ((orderedByKey gs).map fun g =>
      within (Expr.product fs).strength g.strength (inner fuel g))) :
    Worded N ks (.product fs) x := by
  have hperm := perm_orderedByKey gs
  have hordered : orderedByKey gs ≠ [] := fun hnil => hne (List.perm_nil.1 (hnil ▸ hperm).symm)
  have hplace := strength_product fs
  have hshown : ∀ g ∈ orderedByKey gs, ShownFactor N ks (fun s => g.valueAt s)
      (within (Expr.product fs).strength g.strength (inner fuel g)) := by
    intro g hg
    obtain ⟨hproduct, hnumber, hworded⟩ := h g (hperm.mem_iff.1 hg)
    exact hworded.factor hproduct hnumber _ hplace.1 hplace.2
  have hphrase := signedPhrase_productText hnum hden hordered hshown
  simp only [(hperm.map (valueAt _)).prod_eq, ← hvalue] at hphrase
  subst hx
  exact worded_of_signedPhrase rfl (.inl rfl) hphrase

theorem worded_factors {f : Expr} (hne : fs ≠ []) (h : ∀ g ∈ f :: fs, Polynomial N g)
    (hflat : ∀ g ∈ f :: fs, g.isProduct = false) (hnumber : ∀ g ∈ fs, g.isNumber = false)
    (hks : f.numerals ⊆ ks) (hworded : ∀ g ∈ f :: fs, Worded N ks g (inner fuel g)) :
    Worded N ks (.product (f :: fs)) (inner (fuel + 1) (.product (f :: fs))) := by
  cases hf : f.isNumber with
  | false =>
      refine worded_productText (q := 1) (by simp) (by simp) (List.cons_ne_nil f fs)
        (fun g hg => ⟨hflat g hg, ?_, hworded g hg⟩) (by simp) (inner_product_bare hf h)
      exact (List.mem_cons.1 hg).elim (fun hg => hg ▸ hf) (hnumber g)
  | true =>
      cases h f List.mem_cons_self with
      | number q =>
          have hq : q.num.natAbs ∈ ks ∧ q.den ∈ ks := by simpa [numerals] using hks
          refine worded_productText (fun _ => hq.1) (fun _ => hq.2) hne (fun g hg => ?_) (by simp)
            (inner_product_coefficient q fun g hg => h g (List.mem_cons_of_mem _ hg))
          exact ⟨hflat g (List.mem_cons_of_mem _ hg), hnumber g hg,
            hworded g (List.mem_cons_of_mem _ hg)⟩
      | _ => cases hf

theorem inner_power {b : Expr} {n : ℕ} (hn : 1 < n) :
    inner (fuel + 2) (.power b (ofInt n)) =
      within powerStrength b.strength (inner (fuel + 1) b) ++ "**" ++ toString n := by
  have hcast : (1 : ℚ) < n := Nat.one_lt_cast.2 hn
  have hhalf : (ofInt n).isHalf = false := by
    have hne : (n : ℚ) ≠ 1 / 2 := by linarith
    simpa [isHalf, ofInt, Coefficient.ofInt] using hne
  have hminusHalf : (ofInt n).isMinusHalf = false := by
    have hne : (n : ℚ) ≠ -1 / 2 := by linarith
    simpa [isMinusHalf, ofInt, Coefficient.ofInt] using hne
  have hminusOne : (ofInt n).isMinusOne = false := by
    have hne : (n : ℚ) ≠ -1 := by linarith
    simpa [isMinusOne, minusOne, ofInt, Coefficient.ofInt] using hne
  have htext : inner (fuel + 1) (ofInt n) = toString n := by
    rw [ofInt, inner, Coefficient.ofInt, Coefficient.text]
    rfl
  have hstrength : powerStrength < (ofInt n).strength := by
    have hnonneg : ¬(n : ℚ) < 0 := by linarith
    simp [ofInt, Coefficient.ofInt, strength, Coefficient.isNegative, hnonneg]
    decide
  rw [inner, hhalf, hminusHalf, hminusOne]
  simp [within_of_lt hstrength, htext]

theorem worded_power {b : Expr} {n : ℕ} (hbase : b.isBase = true) (hn : 1 < n) (hks : n ∈ ks)
    (hb : Worded N ks b (inner (fuel + 1) b)) :
    Worded N ks (.power b (ofInt n)) (inner (fuel + 2) (.power b (ofInt n))) := by
  obtain ⟨hopens, hphrase⟩ := hb.base hbase
  have hpow : Phrase ks powerLevel (Means N · fun s => b.valueAt s ^ n) _ :=
    Formula.phrase_pow hphrase hks fun hf => means_pow hf (means_numeral n)
  rw [inner_power hn]
  refine worded_of_phrase (le_refl powerLevel) rfl le_rfl (fun h => by cases h) ?_ ?_
  · simpa using hopens.append _
  · simpa using hpow

theorem nodeCount_le_of_mem (h : e ∈ fs) : e.nodeCount ≤ nodeCountAll fs := by
  induction fs with
  | nil => cases h
  | cons f fs ih =>
      rw [nodeCountAll]
      rcases List.mem_cons.1 h with rfl | h
      · omega
      · have := ih h
        omega

theorem numerals_subset_of_mem (h : e ∈ fs) : e.numerals ⊆ numeralsAll fs := by
  rw [numeralsAll_eq]
  exact fun k hk => List.mem_flatMap.2 ⟨e, h, hk⟩

theorem nodeCount_pos (e : Expr) : 0 < e.nodeCount := by
  cases e <;> rw [nodeCount] <;> omega

theorem worded (hN : ∀ x, N x → Nameable x) (h : Polynomial N e) (hfuel : e.nodeCount ≤ fuel)
    (hks : e.numerals ⊆ ks) : Worded N ks e (inner fuel e) := by
  induction h generalizing fuel with
  | number q =>
      obtain ⟨fuel, rfl⟩ := Nat.exists_eq_add_of_le' (Nat.succ_le_of_lt ((nodeCount_pos _).trans_le hfuel))
      exact worded_number (hks (by simp [numerals])) (hks (by simp [numerals]))
  | symbol r hx =>
      obtain ⟨fuel, rfl⟩ := Nat.exists_eq_add_of_le' (Nat.succ_le_of_lt ((nodeCount_pos _).trans_le hfuel))
      exact worded_symbol r hx (hN _ hx)
  | sum hne h ih =>
      rw [nodeCount] at hfuel
      obtain ⟨fuel, rfl⟩ := Nat.exists_eq_add_of_le' (le_trans (Nat.le_add_right 1 _) hfuel)
      refine worded_terms hne fun t ht => ?_
      have := nodeCount_le_of_mem ht
      exact ih t ht (by omega) (List.Subset.trans (numerals_subset_of_mem ht) hks)
  | product hne h hflat hnumber ih =>
      rw [nodeCount] at hfuel
      obtain ⟨fuel, rfl⟩ := Nat.exists_eq_add_of_le' (le_trans (Nat.le_add_right 1 _) hfuel)
      refine worded_factors hne h hflat hnumber
        (List.Subset.trans (numerals_subset_of_mem List.mem_cons_self) hks) fun g hg => ?_
      have := nodeCount_le_of_mem hg
      exact ih g hg (by omega) (List.Subset.trans (numerals_subset_of_mem hg) hks)
  | @power b n h hbase hn ih =>
      rw [nodeCount] at hfuel
      have := b.nodeCount_pos
      have := (ofInt n).nodeCount_pos
      obtain ⟨fuel, rfl⟩ := Nat.exists_eq_add_of_le' (show 2 ≤ fuel by omega)
      rw [numerals, List.append_subset] at hks
      exact worded_power hbase hn (hks.2 (by simp [ofInt, Coefficient.ofInt, numerals]))
        (ih (by omega) hks.1)

theorem phrase_text (hN : ∀ x, N x → Nameable x) (h : Polynomial N e) :
    Phrase e.numerals sumLevel (Deep N (fun s => e.valueAt s) e.terms.length) e.text.toList := by
  have hsingle (hsum : e.isSum = false) {cs : List Char} {level : Nat} (hle : sumLevel ≤ level)
      (h : Phrase e.numerals level (Means N · fun s => e.valueAt s) cs) :
      Phrase e.numerals sumLevel (Deep N (fun s => e.valueAt s) e.terms.length) cs := by
    have hlength : e.terms.length = 1 := by cases e <;> first | rfl | cases hsum
    exact h.mono hle fun f hf => ⟨hf, hlength.trans_le f.depth_pos⟩
  have hinner : Phrase e.numerals sumLevel (Deep N (fun s => e.valueAt s) e.terms.length)
      (inner (2 * e.nodeCount + 2) e).toList := by
    have hworded : Worded N e.numerals e (inner (2 * e.nodeCount + 2) e) :=
      worded hN h (by omega) (List.Subset.refl _)
    cases hsum : e.isSum with
    | true => exact hworded.sum hsum
    | false => exact hsingle hsum (by decide) (hworded.term hsum).phrase
  cases h with
  | number q =>
      have hphrase : Phrase (numerals (.number (.exact q))) productLevel
          (Means N · fun s => valueAt s (.number (.exact q))) (text (.number (.exact q))).toList := by
        have hsigned : SignedPhrase N [q.num.natAbs, q.den] (fun _ => q)
            ((Coefficient.exact q).text true).toList := signedPhrase_number (by simp) (by simp) true
        simpa [text, numerals] using hsigned.phrase
      exact hsingle rfl (by decide) hphrase
  | _ => exact hinner

/-- What the text of a polynomial is read as has the value of the polynomial and
a level for each of its terms. Only a numeral with too many digits keeps the
text from being read. -/
theorem parse_text_polynomial (hN : ∀ x, N x → Nameable x) (h : Polynomial N e) :
    (∀ f, Formula.parse e.text = .ok f → f.Means N (fun s => e.valueAt s) ∧
      f.Everywhere Memo.Table.Operable ∧ e.terms.length ≤ f.depth) ∧
    ((∀ k ∈ e.numerals, k < 10 ^ wholeDigitLimit) → ∃ f, Formula.parse e.text = .ok f) := by
  obtain ⟨hread, hparse⟩ := Formula.parse_of_phrase (phrase_text hN h)
  refine ⟨fun f hf => ?_, hparse⟩
  obtain ⟨⟨hmeans, hdepth⟩, hoperable⟩ := hread f hf
  exact ⟨hmeans, hoperable, hdepth⟩

end Gantry.Algebra.Expr
