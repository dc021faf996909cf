import Gantry.Proofs.Algebra.Shape
import Gantry.Proofs.Algebra.Text
import Gantry.Proofs.Algebra.Wording

/-!
Which texts of expressions are formulas. The text of a well-formed expression
is read with any functions; only what is applied may be no function of formulas,
or take another number of operands, and only a numeral that is too long has no
value.
-/

namespace Gantry.Algebra.Expr

open Formula (Reading sumLevel productLevel signLevel powerLevel atomLevel)

variable {K L : Prop} {cs ds : List Char} {m n : Nat} {e b : Expr} {ts fs : List Expr} {x y : String}
  {xs ys : List String} {Ks Ls : List Prop} {fuel : Nat} {c : Coefficient}

/-! ### Readings with a sign -/

/-- A reading that may have a minus sign in front. -/
def SignedReading (level : Nat) (K : Prop) (cs : List Char) : Prop :=
  Opens cs ∧ Reading level K cs ∨ ∃ body, cs = '-' :: body ∧ Reading level K body

namespace SignedReading

theorem mono (h : SignedReading m K cs) (hle : n ≤ m) : SignedReading n K cs :=
  h.imp (fun h => ⟨h.1, h.2.mono hle⟩) fun ⟨body, hbody, h⟩ => ⟨body, hbody, h.mono hle⟩

theorem congr (h : SignedReading m K cs) (hKL : K ↔ L) : SignedReading m L cs :=
  h.imp (fun h => ⟨h.1, h.2.congr hKL⟩) fun ⟨body, hbody, h⟩ => ⟨body, hbody, h.congr hKL⟩

/-- At the level of signs and of products a sign in front is read. -/
theorem reading (h : SignedReading m K cs) (hm : m = signLevel ∨ m = productLevel) :
    Reading m K cs := by
  obtain ⟨-, h⟩ | ⟨body, rfl, h⟩ := h
  · exact h
  · exact Formula.reading_minus hm h

theorem head?_ne_star (h : SignedReading m K cs) (rest : List Char) : (cs ++ rest).head? ≠ some '*' := by
  obtain ⟨h, -⟩ | ⟨body, rfl, -⟩ := h
  · exact h.head?_ne_star rest
  · simp

/-- What may stand behind a reading may stand behind it with a sign. -/
theorem append (h : SignedReading m K cs) (hread : ∀ bs, Reading m K bs → Reading n L (bs ++ ds)) :
    SignedReading n L (cs ++ ds) := by
  obtain ⟨hopens, h⟩ | ⟨body, rfl, h⟩ := h
  · exact .inl ⟨hopens.append ds, hread cs h⟩
  · exact .inr ⟨body ++ ds, rfl, hread body h⟩

theorem mul (h : SignedReading productLevel K cs) (h' : SignedReading productLevel L ds) :
    SignedReading productLevel (K ∧ L) (cs ++ (['*'] ++ ds)) :=
  h.append fun _ hbs => Formula.reading_mul hbs (h'.reading (.inr rfl)) h'.head?_ne_star

theorem div (h : SignedReading productLevel K cs) (h' : SignedReading productLevel L ds) :
    SignedReading productLevel (K ∧ L) (cs ++ (['/'] ++ ds)) :=
  h.append fun _ hbs => Formula.reading_div hbs (h'.reading (.inr rfl))

theorem pow (h : SignedReading atomLevel K cs) (h' : SignedReading atomLevel L ds) :
    SignedReading powerLevel (K ∧ L) (cs ++ (['*', '*'] ++ ds)) :=
  h.append fun _ hbs => Formula.reading_pow hbs ((h'.mono (by decide)).reading (.inl rfl))

end SignedReading

theorem signedReading_enclose (h : Reading sumLevel K cs) :
    SignedReading atomLevel K (Formula.enclose cs) :=
  .inl ⟨opens_enclose cs, Formula.reading_group h⟩

theorem signedReading_name (h : Formula.isName x = true) : SignedReading atomLevel True x.toList :=
  .inl ⟨opens_name h, Formula.reading_name h⟩

theorem signedReading_numeral (n : Decimal.Numeral) : SignedReading atomLevel True n.chars :=
  .inl ⟨opens_chars n, Formula.reading_numeral n⟩

/-! ### Numbers -/

theorem signedReading_nat (k : Nat) : SignedReading atomLevel True (toString k).toList := by
  obtain ⟨n, hn, -⟩ := Decimal.exists_numeral_toString k
  exact hn ▸ signedReading_numeral n

theorem signedReading_int (k : Int) : SignedReading atomLevel True (toString k).toList := by
  cases k with
  | ofNat k => exact signedReading_nat k
  | negSucc k =>
      obtain ⟨n, hn, -⟩ := Decimal.exists_numeral_toString (k + 1)
      have htext : toString (Int.negSucc k) = "-" ++ toString (k + 1) := rfl
      rw [htext, String.toList_append, hn]
      exact .inr ⟨_, rfl, Formula.reading_numeral n⟩

theorem exists_numeral_approxText (alone : Bool) (x : Binary64) :
    ∃ n : Decimal.Numeral, (Coefficient.approxText alone x).toList = n.chars := by
  unfold Coefficient.approxText
  dsimp only
  split
  all_goals
    obtain ⟨n, hn, -⟩ := Decimal.exists_numeral_write .coefficient _
    exact ⟨n, hn⟩

theorem signedReading_ratio (q : ℚ) (alone : Bool) :
    SignedReading productLevel True ((Coefficient.exact q).text alone).toList := by
  have hnum := (signedReading_int q.num).mono (show productLevel ≤ atomLevel by decide)
  rw [Coefficient.text]
  split
  · exact hnum
  · have hden := (signedReading_nat q.den).mono (show productLevel ≤ atomLevel by decide)
    simpa using hnum.div hden

/-- The text of a number that has no fraction line holds together. -/
theorem signedReading_text (hc : ∀ q, c = .exact q → q.den = 1) (alone : Bool) :
    SignedReading atomLevel True (c.text alone).toList := by
  cases c with
  | exact q =>
      rw [Coefficient.text, if_pos (hc q rfl)]
      exact signedReading_int q.num
  | approx x =>
      rw [Coefficient.text]
      split
      · exact signedReading_numeral ⟨['0'], some ['0'], none, by simp, by simp, by simp, by simp, by simp⟩
      · split
        · obtain ⟨n, hn⟩ := exists_numeral_approxText alone x.abs
          rw [String.toList_append, hn]
          exact .inr ⟨_, rfl, Formula.reading_numeral n⟩
        · obtain ⟨n, hn⟩ := exists_numeral_approxText alone x
          exact hn ▸ signedReading_numeral n
  | infinite negative =>
      cases negative with
      | true => exact .inr ⟨"oo".toList, by rw [Coefficient.text]; rfl, Formula.reading_name (by decide)⟩
      | false => exact signedReading_name (show Formula.isName "oo" = true by decide)
  | unsignedInfinite => exact signedReading_name (show Formula.isName "zoo" = true by decide)
  | undefined => exact signedReading_name (show Formula.isName "nan" = true by decide)

/-! ### Where a text stands -/

/-- How the text of an expression is read, depending on its kind. -/
structure Legible (e : Expr) (x : String) : Prop where
  sum : e.isSum = true → Reading sumLevel (e.Everywhere Callable) x.toList
  term : e.isSum = false → SignedReading productLevel (e.Everywhere Callable) x.toList
  atom : powerStrength < e.strength → SignedReading atomLevel (e.Everywhere Callable) x.toList

namespace Legible

theorem reading (h : Legible e x) : Reading sumLevel (e.Everywhere Callable) x.toList := by
  cases hsum : e.isSum with
  | true => exact h.sum hsum
  | false => exact ((h.term hsum).reading (.inr rfl)).mono (by decide)

theorem enclosed (h : Legible e x) :
    SignedReading atomLevel (e.Everywhere Callable) (parenthesized x).toList := by
  rw [toList_parenthesized]
  exact signedReading_enclose h.reading

theorem base (h : Legible e x) :
    SignedReading atomLevel (e.Everywhere Callable) (within powerStrength e.strength x).toList := by
  unfold within
  split
  · exact h.enclosed
  · next hlt => exact h.atom (not_le.1 hlt)

theorem factor (h : Legible e x) {place : Nat} (hplace : sumStrength ≤ place) :
    SignedReading productLevel (e.Everywhere Callable) (within place e.strength x).toList := by
  unfold within
  split
  · exact h.enclosed.mono (by decide)
  · next hlt =>
    refine h.term ?_
    cases e with
    | sum ts => exact absurd hplace hlt
    | _ => rfl

end Legible

theorem legible_of_atom (hsum : e.isSum = false)
    (h : SignedReading atomLevel (e.Everywhere Callable) x.toList) : Legible e x where
  sum hsum' := by rw [hsum] at hsum'; cases hsum'
  term _ := h.mono (by decide)
  atom _ := h

theorem legible_of_term (hsum : e.isSum = false) (hstrength : e.strength ≤ powerStrength)
    (h : SignedReading productLevel (e.Everywhere Callable) x.toList) : Legible e x where
  sum hsum' := by rw [hsum] at hsum'; cases hsum'
  term _ := h
  atom hlt := absurd hlt hstrength.not_gt

theorem everywhere_callable_number : (number c).Everywhere Callable ↔ True :=
  iff_true_intro transparent_callable.everywhere_number

theorem legible_number (c : Coefficient) (alone : Bool) : Legible (.number c) (c.text alone) := by
  by_cases hc : ∀ q, c = .exact q → q.den = 1
  · exact legible_of_atom rfl ((signedReading_text hc alone).congr everywhere_callable_number.symm)
  · push Not at hc
    obtain ⟨q, rfl, hden⟩ := hc
    refine legible_of_term rfl ?_
      ((signedReading_ratio q alone).congr everywhere_callable_number.symm)
    rw [strength]
    split
    · decide
    · simp only [productStrength, powerStrength]
      decide

theorem legible_name (hname : Formula.isName x = true) (hsum : e.isSum = false)
    (hcallable : e.Everywhere Callable) : Legible e x :=
  legible_of_atom hsum ((signedReading_name hname).congr (iff_of_true trivial hcallable))

/-! ### Sums -/

theorem Legible.signedTerm (h : Legible e x) :
    Reading productLevel (e.Everywhere Callable) (signedTerm e x).2.toList := by
  unfold Expr.signedTerm
  cases hsum : e.isSum with
  | true => simpa [hsum] using (h.enclosed.mono (by decide)).reading (.inr rfl)
  | false =>
      have hstrength : ¬e.strength < sumStrength := (sumStrength_le_strength e).not_gt
      cases hstart : x.startsWith "-" with
      | true =>
          obtain ⟨cs, hcs⟩ := (startsWith_minus_iff x).1 hstart
          obtain ⟨⟨c, rest, hc, hminus, -⟩, -⟩ | ⟨body, hbody, hread⟩ := h.term hsum
          · rw [hcs] at hc
            exact absurd (List.cons.inj hc).1.symm hminus
          · simpa [hstrength, hbody] using hread
      | false => simpa using (h.term hsum).reading (.inr rfl)

/-- Each further term is read behind the others. -/
theorem reading_joinRest {term : Expr → Bool × String} {acc : String}
    (h : ∀ t ∈ ts, Reading productLevel (t.Everywhere Callable) (term t).2.toList)
    (hacc : Reading sumLevel K acc.toList) :
    Reading sumLevel (K ∧ ∀ t ∈ ts, t.Everywhere Callable)
      ((ts.map term).foldl (fun acc (negative, t) => acc ++ (if negative then " - " else " + ") ++ t)
        acc).toList := by
  induction ts generalizing K acc with
  | nil => simpa using hacc
  | cons t ts ih =>
      rw [List.forall_mem_cons] at h
      obtain ⟨ht, hts⟩ := h
      simp only [List.map_cons, List.foldl_cons, List.forall_mem_cons, ← and_assoc]
      generalize term t = shown at ht
      obtain ⟨negative, x⟩ := shown
      cases negative with
      | false => exact ih hts (by simpa using Formula.reading_add hacc ht)
      | true => exact ih hts (by simpa using Formula.reading_sub hacc ht)

theorem reading_joinTerms {term : Expr → Bool × String} (hne : ts ≠ [])
    (h : ∀ t ∈ ts, Reading productLevel (t.Everywhere Callable) (term t).2.toList) :
    Reading sumLevel (∀ t ∈ ts, t.Everywhere Callable) (joinTerms (ts.map term)).toList := by
  obtain ⟨t, ts, rfl⟩ := List.exists_cons_of_ne_nil hne
  rw [List.forall_mem_cons] at h
  obtain ⟨ht, hts⟩ := h
  simp only [List.map_cons, joinTerms, List.forall_mem_cons]
  generalize term t = shown at ht
  obtain ⟨negative, x⟩ := shown
  refine reading_joinRest hts (Formula.Reading.mono ?_ (show sumLevel ≤ productLevel by decide))
  cases negative with
  | false => simpa using ht
  | true => simpa using Formula.reading_minus (.inr rfl) ht

theorem everywhere_callable_sum : (sum ts).Everywhere Callable ↔ ∀ t ∈ ts, t.Everywhere Callable :=
  everywhere_sum.trans (and_iff_right trivial)

theorem legible_sum (hne : ts ≠ []) (h : ∀ t ∈ ts, Legible t (inner fuel t)) :
    Legible (.sum ts) (inner (fuel + 1) (.sum ts)) := by
  have hperm := perm_orderedTerms ts
  have hordered : orderedTerms ts ≠ [] := fun hnil => hne (List.perm_nil.1 (hnil ▸ hperm).symm)
  have hjoin := reading_joinTerms hordered fun t ht => (h t (hperm.mem_iff.1 ht)).signedTerm
  simp only [hperm.mem_iff] at hjoin
  refine ⟨fun _ => ?_, fun hsum => (by cases hsum), fun hlt => ?_⟩
  · rw [inner]
    exact hjoin.congr everywhere_callable_sum.symm
  · exact absurd hlt (by decide : ¬powerStrength < sumStrength)

/-! ### Products -/

theorem signedReading_intercalate
    (h : List.Forall₂ (fun K x => SignedReading productLevel K x.toList) Ks xs) (hne : xs ≠ []) :
    SignedReading productLevel (∀ K ∈ Ks, K) ("*".intercalate xs).toList := by
  induction h with
  | nil => exact absurd rfl hne
  | @cons K x Ks xs hx hxs ih =>
      cases hxs with
      | nil => exact hx.congr (List.forall_mem_singleton (p := id)).symm
      | @cons L y Ls ys hy hys =>
          rw [String.intercalate_cons_cons, String.append_assoc, String.toList_append,
            String.toList_append]
          exact (hx.mul (ih (by simp))).congr (List.forall_mem_cons (p := id)).symm

theorem signedReading_fraction
    (habove : List.Forall₂ (fun K x => SignedReading productLevel K x.toList) Ks xs)
    (hbelow : List.Forall₂ (fun K x => SignedReading productLevel K x.toList) Ls ys) :
    SignedReading productLevel ((∀ K ∈ Ks, K) ∧ ∀ L ∈ Ls, L) (fraction xs ys).toList := by
  have htop : SignedReading productLevel (∀ K ∈ Ks, K)
      (if xs.isEmpty then "1" else "*".intercalate xs).toList := by
    cases habove with
    | nil => exact ((signedReading_nat 1).mono (by decide)).congr (by simp)
    | cons hx hxs => exact signedReading_intercalate (.cons hx hxs) (by simp)
  unfold fraction
  dsimp only
  cases hbelow with
  | nil => exact htop.congr (by simp)
  | @cons L y Ls ys hy hys =>
      cases hys with
      | nil =>
          dsimp only
          rw [String.append_assoc, String.toList_append, String.toList_append]
          exact (htop.div hy).congr (and_congr_right' (List.forall_mem_singleton (p := id)).symm)
      | cons hz hzs =>
          have hbottom := signedReading_intercalate (.cons hy (.cons hz hzs)) (by simp)
          have henclosed := signedReading_enclose
            ((hbottom.reading (.inr rfl)).mono (show sumLevel ≤ productLevel by decide))
          dsimp only
          rw [String.append_assoc, String.toList_append, String.toList_append, toList_parenthesized]
          exact htop.div (henclosed.mono (by decide))

theorem signedReading_numberParts (place : Nat) (hplace : sumStrength ≤ place) (c : Coefficient) :
    (∀ x ∈ (numberParts place c).1, SignedReading productLevel True x.toList) ∧
      ∀ x ∈ (numberParts place c).2, SignedReading productLevel True x.toList := by
  cases c with
  | exact q =>
      have hnum := (signedReading_int q.num).mono (show productLevel ≤ atomLevel by decide)
      have hden := (signedReading_nat q.den).mono (show productLevel ≤ atomLevel by decide)
      constructor
      · intro x hx
        simp only [numberParts] at hx
        split at hx <;> simp at hx
        exact hx ▸ hnum
      · intro x hx
        simp only [numberParts] at hx
        split at hx <;> simp at hx
        exact hx ▸ hden
  | _ =>
      refine ⟨fun x hx => ?_, by simp [numberParts]⟩
      obtain rfl := List.mem_singleton.1 hx
      exact ((legible_number _ false).factor hplace).congr everywhere_callable_number

theorem signedReading_minus {negative : Bool} (h : SignedReading productLevel K x.toList) :
    SignedReading productLevel K ((if negative then "-" else "") ++ x).toList := by
  cases negative with
  | false => simpa using h
  | true =>
      refine .inr ⟨x.toList, by rw [if_pos rfl, String.toList_append]; rfl, h.reading (.inr rfl)⟩

/-- A coefficient and factors above and below the line are read together. -/
theorem signedReading_factors {place : Nat} (hplace : sumStrength ≤ place) (c : Coefficient)
    {shown below : Expr → String}
    (hshown : ∀ f ∈ fs, SignedReading productLevel (f.Everywhere Callable) (shown f).toList)
    (hbelow : ∀ f ∈ fs, f.isBelow = true →
      SignedReading productLevel (f.Everywhere Callable) (below f).toList) :
    SignedReading productLevel (∀ f ∈ fs, f.Everywhere Callable)
      ((if c.isNegative then "-" else "") ++ fraction
        ((if c.isOne then ([], []) else numberParts place (if c.isNegative then c.neg else c)).1 ++
          ((orderedByKey fs).filter fun f => !f.isBelow).map shown)
        ((if c.isOne then ([], []) else numberParts place (if c.isNegative then c.neg else c)).2 ++
          ((orderedByKey fs).filter isBelow).map below)).toList := by
  have hmem {f : Expr} : f ∈ orderedByKey fs ↔ f ∈ fs := (perm_orderedByKey fs).mem_iff
  obtain ⟨hnumerator, hdenominator⟩ :=
    signedReading_numberParts place hplace (if c.isNegative then c.neg else c)
  generalize hparts : (if c.isOne then ([], [])
    else numberParts place (if c.isNegative then c.neg else c)) = parts
  have hnumber : (∀ x ∈ parts.1, SignedReading productLevel True x.toList) ∧
      ∀ x ∈ parts.2, SignedReading productLevel True x.toList := by
    rw [← hparts]
    split
    · simp
    · exact ⟨hnumerator, hdenominator⟩
  have hside {xs : List String} (gs : List Expr) (text : Expr → String)
      (hxs : ∀ x ∈ xs, SignedReading productLevel True x.toList)
      (hgs : ∀ g ∈ gs, SignedReading productLevel (g.Everywhere Callable) (text g).toList) :
      List.Forall₂ (fun K x => SignedReading productLevel K x.toList)
        (xs.map (fun _ => True) ++ gs.map (Everywhere Callable)) (xs ++ gs.map text) := by
    refine List.rel_append ?_ ?_
    · exact List.forall₂_map_left_iff.2 (List.forall₂_same.2 hxs)
    · exact List.forall₂_map_left_iff.2 (List.forall₂_map_right_iff.2 (List.forall₂_same.2 hgs))
  have hfraction := signedReading_fraction
    (hside ((orderedByKey fs).filter fun f => !f.isBelow) shown hnumber.1 fun f hf =>
      hshown f (hmem.1 (List.mem_of_mem_filter hf)))
    (hside ((orderedByKey fs).filter isBelow) below hnumber.2 fun f hf =>
      hbelow f (hmem.1 (List.mem_of_mem_filter hf)) (List.of_mem_filter hf))
  refine signedReading_minus (hfraction.congr ?_)
  simp only [List.forall_mem_append, List.forall_mem_map, List.mem_filter, hmem]
  constructor
  · rintro ⟨⟨-, habove⟩, -, hunder⟩ f hf
    cases hf' : f.isBelow with
    | false => exact habove f ⟨hf, by simp [hf']⟩
    | true => exact hunder f ⟨hf, hf'⟩
  · exact fun hall => ⟨⟨fun _ _ => trivial, fun f hf => hall f hf.1⟩, fun _ _ => trivial,
      fun f hf => hall f hf.1⟩

theorem everywhere_callable_product : (product fs).Everywhere Callable ↔ ∀ f ∈ fs, f.Everywhere Callable :=
  transparent_callable.everywhere_product

theorem legible_product_of_term
    (h : SignedReading productLevel (∀ f ∈ fs, f.Everywhere Callable) x.toList) :
    Legible (.product fs) x :=
  legible_of_term rfl (strength_product fs).2.le (h.congr everywhere_callable_product.symm)

/-- The text of a factor below the line. -/
def belowText (place fuel : Nat) (f : Expr) : String :=
  match f with
  | .power b x =>
    if x.isMinusOne then within place b.strength (inner fuel b)
    else within place (Expr.power b (scaleTerm (.ofInt (-1)) x)).strength
      (inner fuel (.power b (scaleTerm (.ofInt (-1)) x)))
  | f => inner fuel f

/-- A power whose parts are legible, also with the opposite exponent. -/
def Overturned (fuel : Nat) (f : Expr) : Prop := ∀ b x, f = .power b x →
  Legible b (inner fuel b) ∧ Legible (.power b (scaleTerm (.ofInt (-1)) x))
    (inner fuel (.power b (scaleTerm (.ofInt (-1)) x)))

theorem everywhere_callable_power :
    (power b e).Everywhere Callable ↔ b.Everywhere Callable ∧ e.Everywhere Callable :=
  everywhere_power.trans (and_iff_right trivial)

theorem everywhere_callable_of_number (h : e = .number c) : e.Everywhere Callable :=
  h ▸ transparent_callable.everywhere_number

theorem exists_number_of_isMinusOne (h : e.isMinusOne = true) : ∃ c, e = .number c := by
  cases e with
  | number c => exact ⟨c, rfl⟩
  | _ => cases h

theorem signedReading_belowText {f : Expr} {place : Nat} (hplace : sumStrength ≤ place)
    (h : Overturned fuel f) (hf : f.isBelow = true) :
    SignedReading productLevel (f.Everywhere Callable) (belowText place fuel f).toList := by
  cases f with
  | power b x =>
      obtain ⟨hb, hpower⟩ := h b x rfl
      rw [belowText]
      split
      · next hone =>
        obtain ⟨c, hc⟩ := exists_number_of_isMinusOne hone
        refine (hb.factor hplace).congr ?_
        rw [everywhere_callable_power, and_iff_left (everywhere_callable_of_number hc)]
      · refine (hpower.factor hplace).congr ?_
        rw [everywhere_callable_power, everywhere_callable_power,
          transparent_callable.everywhere_scaleTerm]
  | _ => cases hf

theorem legible_product (h : ∀ f ∈ fs, Legible f (inner fuel f))
    (hbelow : ∀ f ∈ fs, f.isBelow = true → Overturned fuel f) :
    Legible (.product fs) (inner (fuel + 1) (.product fs)) := by
  have hplace := (strength_product fs).1
  have hfactors (c : Coefficient) {gs : List Expr} (hgs : ∀ g ∈ gs, g ∈ fs) :=
    signedReading_factors hplace c (fun g hg => (h g (hgs g hg)).factor hplace) fun g hg hg' =>
      signedReading_belowText hplace (hbelow g (hgs g hg) hg') hg'
  refine legible_product_of_term ?_
  cases fs with
  | nil =>
      rw [inner]
      · exact hfactors _ fun _ hg => hg
      · simp
  | cons f fs =>
      cases f with
      | number d =>
          rw [inner]
          cases hd : d.isNumber with
          | true =>
              refine (hfactors _ fun _ hg => List.mem_cons_of_mem _ hg).congr ?_
              rw [List.forall_mem_cons, and_iff_right (everywhere_callable_of_number rfl)]
          | false => exact hfactors _ fun _ hg => hg
      | _ =>
          rw [inner]
          · exact hfactors _ fun _ hg => hg
          · simp

/-! ### Powers and functions -/

theorem signedReading_call {f : String} (hf : Formula.isName f = true)
    (h : ∀ a ∈ fs, Legible a (inner fuel a)) :
    SignedReading atomLevel
      (Formula.Signature.formulas.Accepts f fs.length ∧ ∀ a ∈ fs, a.Everywhere Callable)
      (f ++ parenthesized (", ".intercalate (fs.map (inner fuel)))).toList := by
  have hargs : List.Forall₂ (fun K x => Reading sumLevel K x.toList)
      (fs.map (Everywhere Callable)) (fs.map (inner fuel)) :=
    List.forall₂_map_left_iff.2 (List.forall₂_map_right_iff.2
      (List.forall₂_same.2 fun a ha => (h a ha).reading))
  have hcall := Formula.reading_call hf hargs
  rw [List.length_map, List.forall_mem_map] at hcall
  rw [String.toList_append, toList_parenthesized]
  exact .inl ⟨(opens_name hf).append _, hcall⟩

theorem signedReading_sqrt (hb : Legible b (inner fuel b)) :
    SignedReading atomLevel (b.Everywhere Callable) ("sqrt(" ++ inner fuel b ++ ")").toList := by
  have haccepts : Formula.Signature.formulas.Accepts "sqrt" [b].length :=
    Formula.accepts_formulas_iff.2 ⟨.elementary .sqrt, rfl, rfl⟩
  have hcall := signedReading_call (f := "sqrt") (by decide) (List.forall_mem_singleton.2 hb)
  refine (?_ : SignedReading atomLevel _ _).congr
    ((and_iff_right haccepts).trans List.forall_mem_singleton)
  simpa [parenthesized, String.append_assoc] using hcall

theorem exists_number_of_isHalf (h : e.isHalf = true) : ∃ c, e = .number c := by
  cases e with
  | number c => exact ⟨c, rfl⟩
  | _ => cases h

theorem exists_number_of_isMinusHalf (h : e.isMinusHalf = true) : ∃ c, e = .number c := by
  cases e with
  | number c => exact ⟨c, rfl⟩
  | _ => cases h

/-- A power of a base alone, whose exponent is a number that shows otherwise. -/
theorem legible_power_of_number (hnumber : ∃ c, e = .number c)
    (h : SignedReading productLevel (b.Everywhere Callable) x.toList) : Legible (.power b e) x := by
  obtain ⟨c, rfl⟩ := hnumber
  refine legible_of_term rfl le_rfl (h.congr ?_)
  rw [everywhere_callable_power, and_iff_left (everywhere_callable_of_number rfl)]

theorem legible_power (hb : Legible b (inner fuel b)) (he : Legible e (inner fuel e)) :
    Legible (.power b e) (inner (fuel + 1) (.power b e)) := by
  have hone : SignedReading productLevel True "1".toList := (signedReading_nat 1).mono (by decide)
  rw [inner]
  dsimp only
  split
  · next hhalf =>
    exact legible_power_of_number (exists_number_of_isHalf hhalf)
      ((signedReading_sqrt hb).mono (by decide))
  · split
    · next hhalf =>
      have hdiv := hone.div ((signedReading_sqrt hb).mono (show productLevel ≤ atomLevel by decide))
      rw [true_and] at hdiv
      exact legible_power_of_number (exists_number_of_isMinusHalf hhalf) (by simpa using hdiv)
    · split
      · next hminus =>
        have hdiv := hone.div (hb.base.mono (show productLevel ≤ atomLevel by decide))
        rw [true_and] at hdiv
        exact legible_power_of_number (exists_number_of_isMinusOne hminus) (by simpa using hdiv)
      · have hpow := (hb.base.pow he.base).congr everywhere_callable_power.symm
        exact legible_of_term rfl le_rfl ((by simpa using hpow : SignedReading powerLevel _ _).mono
          (by decide))

theorem legible_apply {f : Head} (hf : f.Named)
    (h : ∀ a ∈ fs, Legible a (inner fuel a)) :
    Legible (.apply f fs) (inner (fuel + 1) (.apply f fs)) := by
  have hshown (gs : List Expr) (hgs : gs.Perm fs) : SignedReading atomLevel
      ((apply f fs).Everywhere Callable)
      (f.name ++ parenthesized (", ".intercalate (gs.map (inner fuel)))).toList := by
    refine (signedReading_call hf.isName fun a ha => h a (hgs.mem_iff.1 ha)).congr ?_
    simp only [hgs.length_eq, hgs.mem_iff, everywhere_apply, Callable]
  refine legible_of_atom rfl ?_
  cases f with
  | larger | smaller =>
      rw [inner]
      exact hshown _ (perm_orderedByKey fs)
  | _ =>
      rw [inner]
      · exact hshown _ (.refl fs)
      all_goals rintro ⟨⟩

/-! ### Expressions -/

theorem nodeCount_withCoefficient (c : Coefficient) (e : Expr) :
    (withCoefficient c e).nodeCount ≤ nodeCountAll e.factors + 2 := by
  have hfactors : e.nodeCount ≤ nodeCountAll e.factors + 1 := by
    cases e <;> simp only [factors, nodeCountAll, nodeCount] <;> omega
  unfold withCoefficient
  split
  · omega
  · cases e with
    | number d =>
        dsimp only
        split <;> simp [nodeCount]
    | _ =>
        simp only [factors, nodeCountAll, nodeCount]
        omega

theorem nodeCount_withCoefficient_ofFactors (c : Coefficient) (fs : List Expr) :
    (withCoefficient c (ofFactors fs)).nodeCount ≤ nodeCountAll fs + 2 := by
  have hcount := nodeCount_withCoefficient c (ofFactors fs)
  match fs with
  | [] =>
      have hone : (withCoefficient c one).nodeCount = 1 := by
        unfold withCoefficient one ofInt
        split
        · rw [nodeCount]
        · dsimp only
          split <;> rw [nodeCount]
      rw [ofFactors, hone]
      omega
  | [f] =>
      refine hcount.trans (Nat.add_le_add_right ?_ 2)
      cases f <;> simp [ofFactors, factors, nodeCountAll, nodeCount]
  | f :: g :: fs => exact hcount

/-- Only numbers and products that begin with one have a negative coefficient. -/
theorem cases_of_isNegative (h : e.splitCoefficient.1.isNegative = true) :
    (∃ c, e = .number c) ∨ ∃ d fs, e = .product (.number d :: fs) ∧ d.isNumber = true := by
  have hone : ¬Coefficient.one.isNegative = true := by simp [Coefficient.one, Coefficient.isNegative]
  unfold splitCoefficient at h
  split at h
  · exact .inl ⟨_, rfl⟩
  · split at h
    · next hd => exact .inr ⟨_, _, rfl, hd⟩
    · exact absurd h hone
  · exact absurd h hone

/-- The opposite of an expression with a coefficient has no more nodes. -/
theorem nodeCount_scaleTerm (h : e.splitCoefficient.1.isNegative = true) (c : Coefficient) :
    (scaleTerm c e).nodeCount ≤ e.nodeCount := by
  obtain ⟨d, rfl⟩ | ⟨d, fs, rfl, hd⟩ := cases_of_isNegative h
  · rw [scaleTerm, nodeCount, nodeCount]
  · have hscale : scaleTerm c (.product (.number d :: fs)) =
        withCoefficient (c.mul d) (ofFactors fs) := by
      rw [scaleTerm, splitCoefficient, if_pos hd]
      rintro _ ⟨⟩
    have hcount := nodeCount_withCoefficient_ofFactors (c.mul d) fs
    rw [hscale, nodeCount, nodeCountAll, nodeCount]
    omega

theorem overturned_of_nodeCount {f : Expr} (hf : f.WellFormed) (hbelow : f.isBelow = true)
    (hfuel : f.nodeCount ≤ fuel)
    (h : ∀ {e : Expr}, e.WellFormed → e.nodeCount ≤ fuel → Legible e (inner fuel e)) :
    Overturned fuel f := by
  rintro b x rfl
  rw [wellFormed_power] at hf
  rw [nodeCount] at hfuel
  have hcount := nodeCount_scaleTerm hbelow (.ofInt (-1))
  refine ⟨h hf.1 (by omega), h ?_ (by rw [nodeCount]; omega)⟩
  rw [wellFormed_power]
  exact ⟨hf.1, transparent_formed.everywhere_scaleTerm.2 hf.2⟩

/-- With fuel for its nodes the text of a well-formed expression is legible. -/
theorem legible (h : e.WellFormed) (hfuel : e.nodeCount ≤ fuel) : Legible e (inner fuel e) := by
  induction fuel generalizing e with
  | zero => exact absurd hfuel (e.nodeCount_pos).not_ge
  | succ fuel ih =>
      cases e with
      | number c =>
          rw [inner]
          exact legible_number c false
      | constant c =>
          rw [inner]
          exact legible_name (by cases c <;> decide) rfl (everywhere_constant.2 trivial)
      | symbol y r =>
          rw [wellFormed_symbol] at h
          rw [inner]
          exact legible_name h rfl (everywhere_symbol.2 trivial)
      | sum ts =>
          rw [wellFormed_sum] at h
          rw [nodeCount] at hfuel
          refine legible_sum h.1 fun t ht => ih (h.2 t ht) ?_
          have := nodeCount_le_of_mem ht
          omega
      | product fs =>
          rw [wellFormed_product] at h
          rw [nodeCount] at hfuel
          have hcount : ∀ f ∈ fs, f.nodeCount ≤ fuel := fun f hf => by
            have := nodeCount_le_of_mem hf
            omega
          exact legible_product (fun f hf => ih (h f hf) (hcount f hf)) fun f hf hbelow =>
            overturned_of_nodeCount (h f hf) hbelow (hcount f hf) ih
      | power b x =>
          rw [wellFormed_power] at h
          rw [nodeCount] at hfuel
          exact legible_power (ih h.1 (by omega)) (ih h.2 (by omega))
      | apply f args =>
          rw [wellFormed_apply] at h
          rw [nodeCount] at hfuel
          refine legible_apply h.1 fun a ha => ih (h.2 a ha) ?_
          have := nodeCount_le_of_mem ha
          omega

theorem legible_text (h : e.WellFormed) : Legible e e.text := by
  unfold text
  split
  · exact legible_number _ true
  · exact legible h (by omega)

/-- Numerals that are too long keep a text from being read, and so do calls that
are not those of formulas; nothing else does. -/
theorem exists_parse_text_iff (h : e.WellFormed) :
    (∃ f, Formula.parse e.text = .ok f) ↔ e.Everywhere Callable ∧ Formula.Short e.text := by
  obtain ⟨ts, ⟨f, hf, haccepted⟩, htokens⟩ :=
    (legible_text h).reading [] (by rintro c hc; cases hc) 0
  rw [List.append_nil, Formula.tokensFrom_nil, Except.map, List.append_nil] at htokens
  constructor
  · rintro ⟨g, hg⟩
    obtain ⟨us, hus, hsum⟩ := Formula.parseWith_eq_ok_iff.1 hg
    obtain rfl : ts = us := Except.ok.inj (htokens.symm.trans hus)
    have hnumbers := (Formula.numbers_of_isSum hsum).1
    rw [Formula.map_shortened hnumbers] at hf
    obtain ⟨hany, hadmitted⟩ := Formula.isSum_iff_admitted.1 hsum
    obtain rfl : f = g := hf.isSum.unique hany
    exact ⟨haccepted.1 hadmitted, fun us hus => Except.ok.inj (htokens.symm.trans hus) ▸ hnumbers⟩
  · rintro ⟨hcallable, hshort⟩
    rw [Formula.map_shortened (hshort ts htokens)] at hf
    exact ⟨f, Formula.parseWith_eq_ok_iff.2 ⟨ts, htokens,
      Formula.isSum_iff_admitted.2 ⟨hf.isSum, haccepted.2 hcallable⟩⟩⟩

end Gantry.Algebra.Expr
