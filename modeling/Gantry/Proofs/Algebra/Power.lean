import Mathlib.Tactic.FieldSimp
import Gantry.Algebra.Derivative
import Gantry.Proofs.Algebra.Product

/-!
Squares and quotients, and the rule for the derivative of a power. The rule
divides by the base it multiplies by; what is divided by is a factor of the
power, so a polynomial is left, with the right value also where the base is
zero.
-/

namespace Gantry.Algebra.Expr

variable {s : String → ℚ} {N : String → Prop} {e a b d f : Expr} {fs : List Expr} {n : ℤ} {c q : ℚ}

/-! ### Powers of bases and of numbers -/

theorem powerOf_base (h : Polynomial N b) (hbase : b.isBase = true) (hn : n ≠ 0) :
    powerOf b (ofInt n) = writePower (b, n) :=
  raise_base h hbase hn 99

theorem powerOf_ofInt_minusOne {k : ℕ} (hk : 0 < k) :
    powerOf (ofInt k) minusOne = .number (.exact (1 / k)) := by
  have hminus : minusOne = ofInt (-1) := rfl
  have hfuel : powerOf (ofInt k) minusOne = raise (99 + 1) (ofInt k) (ofInt (-1)) := rfl
  have hzero : (ofInt (-1)).isZero = false := rfl
  have hone : (ofInt (-1)).isOne = false := rfl
  have hnumeric : (ofInt k).hasNumericMinus = false := by
    simp [hasNumericMinus, ofInt, Coefficient.ofInt, Coefficient.isNegative]
  have hne : (k : ℚ) ≠ 0 := by exact_mod_cast hk.ne'
  have hpower : numericPower (.ofInt k) (.ofInt (-1)) = [.number (.exact (1 / k))] := by
    simp [numericPower, Coefficient.ofInt, hne]
  rw [hfuel]
  unfold raise
  simp only [hzero, hone, hnumeric, integer?_ofInt]
  simp [ofInt, hpower]

theorem reciprocal_polynomial {k : ℕ} (hk : 0 < k) :
    Polynomial N (powerOf (ofInt k) minusOne) ∧
      ∀ s, (powerOf (ofInt k) minusOne).valueAt s = 1 / k := by
  rw [powerOf_ofInt_minusOne hk]
  exact ⟨.number _, fun s => valueAt_number _⟩

/-! ### Squares -/

theorem numericPower_two (q : ℚ) :
    numericPower (.exact q) (.ofInt 2) = [.number (.exact (q ^ 2))] := by
  by_cases hq : q = 0 <;> simp [numericPower, Coefficient.ofInt, Coefficient.zero, hq]

theorem raise_number (hq : 0 ≤ q) (fuel : ℕ) :
    raise (fuel + 1) (.number (.exact q)) (ofInt 2) = .number (.exact (q ^ 2)) := by
  have hminus : (number (.exact q)).hasNumericMinus = false := by
    simpa [hasNumericMinus, Coefficient.isNegative] using hq
  have hzero : (ofInt 2).isZero = false := rfl
  have hone : (ofInt 2).isOne = false := rfl
  rw [raise.eq_def]
  simp only [hzero, hone, hminus, integer?_ofInt]
  simp [ofInt, numericPower_two]

/-- A numeric minus sign is squared away. -/
theorem raise_of_hasNumericMinus (h : b.hasNumericMinus = true) (fuel : ℕ) :
    raise (fuel + 1) b (ofInt 2) = raise fuel (negated b) (ofInt 2) := by
  have hzero : (ofInt 2).isZero = false := rfl
  have hone : (ofInt 2).isOne = false := rfl
  rw [raise.eq_def]
  simp only [hzero, hone, h, integer?_ofInt]
  simp

theorem raise_product (h : (product fs).hasNumericMinus = false) (fuel : ℕ) :
    raise (fuel + 1) (.product fs) (ofInt 2) = times fuel (fs.map fun f => raise fuel f (ofInt 2)) := by
  have hzero : (ofInt 2).isZero = false := rfl
  have hone : (ofInt 2).isOne = false := rfl
  rw [raise.eq_def]
  simp only [hzero, hone, h, integer?_ofInt]
  simp [ofInt, Coefficient.ofInt, Coefficient.integer?]

theorem times_ofInt {m : ℤ} (hm : m ≠ 0) (fuel : ℕ) :
    times (fuel + 3) [ofInt m, ofInt 2] = ofInt (m * 2) := by
  obtain ⟨hm, heq⟩ | ⟨habsurd, -⟩ | ⟨x, y, horder, heq⟩ := times_cases (ofInt m) (ofInt 2) (fuel + 2)
  · obtain rfl : m = 1 := by simpa [one, ofInt, Coefficient.ofInt] using hm
    exact heq
  · cases habsurd
  · obtain heq | ⟨q, r, ts, rfl, hsplit, -⟩ := heq
    · have hatoms : ∀ f ∈ [x, y].flatMap factors, Atom (fun _ => False) f := by
        obtain ⟨rfl, rfl⟩ | ⟨rfl, rfl⟩ := horder
        · simpa [factors, ofInt, Coefficient.ofInt] using ⟨Atom.number _, Atom.number _⟩
        · simpa [factors, ofInt, Coefficient.ofInt] using ⟨Atom.number _, Atom.number _⟩
      have hcoefficient : (([x, y].flatMap factors).map coefficientOf).prod = m * 2 := by
        obtain ⟨rfl, rfl⟩ | ⟨rfl, rfl⟩ := horder
        · simp [factors, ofInt, Coefficient.ofInt, coefficientOf]
        · simp [factors, ofInt, Coefficient.ofInt, coefficientOf, mul_comm]
      have hpowers : powersOf ([x, y].flatMap factors) = [] := by
        obtain ⟨rfl, rfl⟩ | ⟨rfl, rfl⟩ := horder <;>
          simp [factors, ofInt, powersOf, powerOf?]
      rw [heq, multiply_atoms hatoms, hcoefficient, hpowers]
      obtain ⟨habsurd, -⟩ | ⟨ts, habsurd, -⟩ | ⟨-, heq⟩ := finishProduct_cases (m * 2) []
      · simp [hm] at habsurd
      · cases habsurd
      · have hne : ¬(m : ℚ) * 2 = 1 := by
          norm_cast
          omega
        have hnone : (gathered []).map writePower = [] := rfl
        have hsorted : sortParts [] = [] := rfl
        rw [hnone, heq, hsorted]
        simp [numberUnlessOne, hne, ofFactors, ofInt, Coefficient.ofInt]
    · obtain ⟨-, rfl⟩ | ⟨-, rfl⟩ := horder
      · cases hsplit
      · simp only [splitCoefficient, ofInt, Coefficient.ofInt] at hsplit
        split at hsplit <;> cases hsplit

theorem raise_power {n : ℕ} (h : Polynomial N b) (hbase : b.isBase = true) (hn : 1 < n) (fuel : ℕ) :
    raise (fuel + 5) (.power b (ofInt n)) (ofInt 2) = writePower (b, n * 2) := by
  have hzero : (ofInt 2).isZero = false := rfl
  have hone : (ofInt 2).isOne = false := rfl
  have hwhole : (ofInt 2).isWhole = true := rfl
  rw [raise.eq_def]
  simp only [hzero, hone, hasNumericMinus, integer?_ofInt]
  simp only [Bool.false_eq_true, if_false]
  rw [raisePower.eq_def]
  simp only [hwhole, if_true]
  rw [times_ofInt (by omega), raise_base h hbase (by omega)]

/-- The square of a part of a product. -/
theorem raise_flat (h : Polynomial N b) (hflat : b.isProduct = false) (fuel : ℕ) :
    Polynomial N (raise (fuel + 5) b (ofInt 2)) ∧
      ∀ s, (raise (fuel + 5) b (ofInt 2)).valueAt s = b.valueAt s ^ 2 := by
  have hwritten (hbase : b.isBase = true) : Polynomial N (raise (fuel + 5) b (ofInt 2)) ∧
      ∀ s, (raise (fuel + 5) b (ofInt 2)).valueAt s = b.valueAt s ^ 2 := by
    rw [raise_base h hbase (by decide)]
    exact ⟨polynomial_writePower h hbase (by decide : (0 : ℤ) < 2), fun s => valueAt_writePower _⟩
  cases h with
  | number q =>
      suffices heq : raise (fuel + 5) (.number (.exact q)) (ofInt 2) = .number (.exact (q ^ 2)) by
        rw [heq]
        exact ⟨.number _, fun s => by simp⟩
      by_cases hq : 0 ≤ q
      · exact raise_number hq _
      · have hminus : (number (.exact q)).hasNumericMinus = true := by
          simpa [hasNumericMinus, Coefficient.isNegative] using hq
        have hnegated : negated (number (.exact q)) = .number (.exact (-q)) := by
          have hone : ¬(-1 : ℚ) = 1 := by decide
          simp [negated, scale, scaleTerm, Coefficient.ofInt, Coefficient.mul, hone]
        rw [raise_of_hasNumericMinus hminus, hnegated, raise_number (neg_nonneg.2 (not_le.1 hq).le),
          neg_sq]
  | symbol r hx => exact hwritten rfl
  | sum hne hts => exact hwritten rfl
  | product => cases hflat
  | power h hbase hn =>
      rw [raise_power h hbase hn]
      exact ⟨polynomial_writePower h hbase (by omega), fun s => by
        rw [valueAt_writePower, valueAt_power, zpow_mul]
        rfl⟩

/-- A part of a product that is not a number has no minus sign. -/
theorem hasNumericMinus_of_flat (hflat : f.isProduct = false) (hnumber : f.isNumber = false) :
    f.hasNumericMinus = false := by
  cases f <;> simp_all [hasNumericMinus, isProduct, isNumber]

theorem isNumber_ofFactors (hne : fs ≠ []) (hflat : ∀ f ∈ fs, f.isProduct = false)
    (hnumber : ∀ f ∈ fs, f.isNumber = false) :
    (ofFactors fs).isNumber = false ∧ (ofFactors fs).hasNumericMinus = false := by
  rcases fs with - | ⟨f, - | ⟨g, fs⟩⟩
  · exact absurd rfl hne
  · exact ⟨hnumber f (by simp), hasNumericMinus_of_flat (hflat f (by simp)) (hnumber f (by simp))⟩
  · have hf := hnumber f (by simp)
    cases f <;> simp_all [ofFactors, hasNumericMinus, isNumber]

theorem hasNumericMinus_withCoefficient {c : Coefficient} (hc : c.isNegative = false)
    (hnumber : e.isNumber = false) (he : e.hasNumericMinus = false) :
    (withCoefficient c e).hasNumericMinus = false := by
  unfold withCoefficient
  split
  · exact he
  · cases e <;> simp_all [hasNumericMinus, isNumber]

/-- There is no second minus sign. -/
theorem hasNumericMinus_negated (h : Polynomial N b) (hminus : b.hasNumericMinus = true) :
    (negated b).hasNumericMinus = false := by
  cases h with
  | number q =>
      have hq : q < 0 := by simpa [hasNumericMinus, Coefficient.isNegative] using hminus
      have hone : ¬(-1 : ℚ) = 1 := by decide
      simpa [negated, scale, scaleTerm, Coefficient.ofInt, Coefficient.mul, hasNumericMinus,
        Coefficient.isNegative, hone] using hq.le
  | @product f fs hne h hflat hnumber =>
      cases f with
      | number c =>
          obtain ⟨q, rfl⟩ : ∃ q, c = .exact q := by
            cases h _ List.mem_cons_self with
            | number q => exact ⟨q, rfl⟩
          have hq : q < 0 := by
            simpa [hasNumericMinus, Coefficient.isNegative] using (Bool.and_eq_true_iff.1 hminus).1
          have hone : ¬(-1 : ℚ) = 1 := by decide
          have hnegated : negated (.product (.number (.exact q) :: fs)) =
              withCoefficient (.exact (-q)) (ofFactors fs) := by
            simp [negated, scale, scaleTerm, splitCoefficient, Coefficient.ofInt, Coefficient.mul,
              Coefficient.isNumber, hone]
          have hpositive : (Coefficient.exact (-q)).isNegative = false := by
            simpa [Coefficient.isNegative] using hq.le
          obtain ⟨hnone, hfactors⟩ := isNumber_ofFactors hne
            (fun g hg => hflat g (List.mem_cons_of_mem _ hg)) hnumber
          rw [hnegated]
          exact hasNumericMinus_withCoefficient hpositive hnone hfactors
      | _ => simp [hasNumericMinus] at hminus
  | _ => simp [hasNumericMinus] at hminus

theorem raise_of_not_hasNumericMinus (h : Polynomial N b) (hminus : b.hasNumericMinus = false)
    (fuel : ℕ) : Polynomial N (raise (fuel + 6) b (ofInt 2)) ∧
      ∀ s, (raise (fuel + 6) b (ofInt 2)).valueAt s = b.valueAt s ^ 2 := by
  cases hproduct : b.isProduct with
  | false => exact raise_flat h hproduct (fuel + 1)
  | true =>
      cases h with
      | @product f fs hne h hflat hnumber =>
          have hsquares (g : Expr) (hg : g ∈ f :: fs) := raise_flat (h g hg) (hflat g hg) fuel
          obtain ⟨hpolynomial, hvalue⟩ := times_polynomial
            (List.forall_mem_map.2 fun g hg => (hsquares g hg).1) (fuel + 2)
          rw [raise_product hminus]
          refine ⟨hpolynomial, fun s => ?_⟩
          rw [hvalue, valueAt_product, sq, ← List.prod_map_mul, List.map_map]
          exact congrArg List.prod (List.map_congr_left fun g hg => by
            rw [Function.comp_apply, (hsquares g hg).2, sq])
      | _ => cases hproduct

theorem square_polynomial (h : Polynomial N b) :
    Polynomial N (powerOf b (ofInt 2)) ∧ ∀ s, (powerOf b (ofInt 2)).valueAt s = b.valueAt s ^ 2 := by
  have hfuel : powerOf b (ofInt 2) = raise (94 + 6) b (ofInt 2) := rfl
  rw [hfuel]
  cases hminus : b.hasNumericMinus with
  | false => exact raise_of_not_hasNumericMinus h hminus 94
  | true =>
      obtain ⟨hnegated, hopposite⟩ := negated_polynomial h
      obtain ⟨hpolynomial, hvalue⟩ :=
        raise_of_not_hasNumericMinus hnegated (hasNumericMinus_negated h hminus) 93
      rw [raise_of_hasNumericMinus hminus]
      exact ⟨hpolynomial, fun s => by rw [hvalue, hopposite, neg_sq]⟩

/-! ### Division by a base -/

/-- A product that may have been divided once by `b`, and by nothing else. -/
structure Divided (N : String → Prop) (b e : Expr) : Prop where
  atoms : ∀ f ∈ e.factors, Atom N f
  others : ∀ p ∈ powersOf e.factors, p.1 ≠ b → 0 < p.2
  base : -1 ≤ total b (powersOf e.factors)

theorem divided_polynomial (h : Polynomial N e) (b : Expr) : Divided N b e where
  atoms := h.factors.1
  others p hp _ := h.factors.2 p hp
  base := (by decide : (-1 : ℤ) ≤ 0).trans (total_nonneg fun p hp _ => h.factors.2 p hp)

theorem total_gathered (b : Expr) (ps : List (Expr × ℤ)) : total b (gathered ps) = total b ps := by
  rw [← total_gatherAll b ps, gathered]
  induction gatherAll ps with
  | nil => rfl
  | cons p qs ih =>
      by_cases hp : p.2 = 0
      · rw [List.filter_cons_of_neg (by simpa using hp), total_cons, hp, ih]
        simp
      · rw [List.filter_cons_of_pos (by simpa using hp), total_cons, total_cons, ih]

theorem mem_gathered {ps : List (Expr × ℤ)} {p : Expr × ℤ} (h : p ∈ gathered ps) :
    p.1 ∈ ps.map Prod.fst ∧ p.2 = total p.1 ps :=
  eq_total_of_mem_gatherAll (List.mem_filter.1 h).1

theorem mem_gathered_of_total {ps : List (Expr × ℤ)} (h : total b ps ≠ 0) :
    (b, total b ps) ∈ gathered ps := by
  by_contra hne
  have hkeys : ∀ p ∈ gathered ps, p.1 ≠ b := by
    rintro p hp rfl
    exact hne ((mem_gathered hp).2 ▸ hp)
  refine h ?_
  rw [← total_gathered, total, List.filter_eq_nil_iff.2 fun p hp => by simpa using hkeys p hp]
  rfl

/-- The reciprocal of a base, and a polynomial, in either order. -/
theorem divided_multiply (ha : Polynomial N a) (hb : Polynomial N b) (hbase : b.isBase = true)
    {es : List Expr} (hes : es.Perm [a, .power b (ofInt (-1))]) :
    Divided N b (multiply 99 es) ∧
      ∀ s, b.valueAt s ≠ 0 → (multiply 99 es).valueAt s = a.valueAt s / b.valueAt s := by
  have hperm : (es.flatMap factors).Perm (a.factors ++ [.power b (ofInt (-1))]) := by
    have hflat := hes.flatMap_right factors
    simpa [factors] using hflat
  have hpowers : (powersOf (es.flatMap factors)).Perm (powersOf a.factors ++ [(b, -1)]) := by
    have hfilter := hperm.filterMap powerOf?
    rwa [List.filterMap_append] at hfilter
  have hatoms : ∀ f ∈ es.flatMap factors, Atom N f := by
    intro f hf
    rcases List.mem_append.1 (hperm.mem_iff.1 hf) with hf | hf
    · exact ha.factors.1 f hf
    · exact List.mem_singleton.1 hf ▸ .power (-1) hb hbase
  have htotal (t : Expr) : total t (powersOf (es.flatMap factors)) =
      total t (powersOf a.factors) + if b = t then -1 else 0 := by
    rw [total_perm hpowers, total_append, total_cons, total_nil, add_zero]
  have hfinished := finished_multiply hatoms 97
  refine ⟨?_, fun s hs => ?_⟩
  · obtain hpolynomial | ⟨hfactors, hleft⟩ := hfinished.factors
    · exact divided_polynomial hpolynomial b
    · refine ⟨hfactors, fun p hp hne => ?_, ?_⟩
      · obtain ⟨hmem, htotal'⟩ := mem_gathered (hleft.mem_iff.1 hp)
        rw [htotal', htotal, if_neg (Ne.symm hne), add_zero]
        obtain ⟨q, hq, heq⟩ := List.mem_map.1 ((hpowers.map Prod.fst).mem_iff.1 hmem)
        rcases List.mem_append.1 hq with hq | hq
        · exact total_pos (fun r hr _ => ha.factors.2 r hr) hq heq
        · exact absurd (by rw [← heq, List.mem_singleton.1 hq]) hne
      · rw [total_perm hleft, total_gathered, htotal, if_pos rfl]
        have hnonneg := total_nonneg (t := b) fun p hp _ => ha.factors.2 p hp
        omega
  · have hdefined : Defined s (powersOf (es.flatMap factors)) := by
      intro p hp
      rcases List.mem_append.1 (hpowers.mem_iff.1 hp) with hp | hp
      · exact .inr (ha.factors.2 p hp).le
      · rw [List.mem_singleton.1 hp]
        exact .inl hs
    rw [valueAt_multiply hatoms hdefined 97, (hes.map _).prod_eq]
    simp [div_eq_mul_inv]

/-- A polynomial divided by a base. -/
theorem quotientOf_base (ha : Polynomial N a) (hb : Polynomial N b) (hbase : b.isBase = true) :
    Divided N b (quotientOf a b) ∧
      ∀ s, b.valueAt s ≠ 0 → (quotientOf a b).valueAt s = a.valueAt s / b.valueAt s := by
  have hreciprocal : powerOf b minusOne = .power b (ofInt (-1)) := powerOf_base hb hbase (by decide)
  rw [quotientOf, hreciprocal]
  have hdivided : Divided N b (.power b (ofInt (-1))) := by
    refine ⟨?_, ?_, ?_⟩
    · simpa [factors] using Atom.power (-1) hb hbase
    · simp [factors, powersOf]
    · simp [factors, powersOf, total_cons]
  split
  · rename_i hone
    rw [isOne_eq_true_iff.1 hone]
    exact ⟨hdivided, fun s _ => by simp⟩
  · rw [productOf_eq]
    obtain ⟨rfl, heq⟩ | ⟨habsurd, -⟩ | ⟨x, y, horder, heq⟩ :=
      times_cases a (.power b (ofInt (-1))) 99
    · rw [heq]
      exact ⟨hdivided, fun s _ => by simp⟩
    · cases habsurd
    · have hperm : [x, y].Perm [a, .power b (ofInt (-1))] := by
        obtain ⟨rfl, rfl⟩ | ⟨rfl, rfl⟩ := horder
        · exact .refl _
        · exact .swap _ _ _
      obtain heq | ⟨q, r, ts, rfl, hsplit, -⟩ := heq
      · rw [heq]
        exact divided_multiply ha hb hbase hperm
      · -- A number goes into sums only, and neither factor is one.
        obtain ⟨-, rfl⟩ | ⟨habsurd, -⟩ := horder
        · cases hsplit
        · cases habsurd

/-! ### The derivative of a power -/

/-- Zero times a logarithm. -/
theorem multiply_zero_log {es : List Expr} (hes : es = [zero, .apply .log [b]] ∨ es = [.apply .log [b], zero]) :
    multiply 99 es = zero := by
  have hfound : Factors.ofList (es.flatMap factors) =
      ⟨.exact 0, 0, [], [(.apply .log [b], one)]⟩ := by
    rcases hes with rfl | rfl <;>
      simp [Factors.ofList, Factors.none, Factors.add, factors, zero, ofInt, Coefficient.ofInt,
        Coefficient.mul, Coefficient.one, basePower]
  have hgathered : gatherPowers [(.apply .log [b], one)] = [(.apply .log [b], one)] := by
    simp [gatherPowers, addExponent, one, ofInt, splitCoefficient, Coefficient.isNumber,
      Coefficient.ofInt, scale]
  have hraised : raise 98 (.apply .log [b]) one = .apply .log [b] := by
    have hzero : one.isZero = false := rfl
    have hone : one.isOne = true := rfl
    unfold raise
    simp only [hzero, hone]
    rfl
  unfold multiply
  simp only [hfound, hgathered, turn_zero]
  simp [hraised, basePower, isProduct, signed, Coefficient.mul, finishProduct]

theorem productOf_zero_log (b : Expr) : productOf [zero, .apply .log [b]] = zero := by
  rw [productOf_eq]
  obtain ⟨habsurd, -⟩ | ⟨habsurd, -⟩ | ⟨x, y, horder, heq⟩ :=
    times_cases zero (.apply .log [b]) 99
  · cases habsurd
  · cases habsurd
  · have hes : [x, y] = [zero, .apply .log [b]] ∨ [x, y] = [.apply .log [b], zero] := by
      obtain ⟨rfl, rfl⟩ | ⟨rfl, rfl⟩ := horder
      · exact .inl rfl
      · exact .inr rfl
    obtain heq | ⟨q, r, ts, rfl, hsplit, -⟩ := heq
    · rw [heq, multiply_zero_log hes]
    · obtain ⟨-, rfl⟩ | ⟨habsurd, -⟩ := horder
      · cases hsplit
      · cases habsurd

/-- Multiplying a power by a quotient of its base cancels the division. -/
theorem multiply_cancels {n : ℕ} (hn : 1 < n) (hb : Polynomial N b) (hbase : b.isBase = true)
    (hd : Divided N b d) {es : List Expr} (hes : es.Perm [.power b (ofInt n), d]) :
    Polynomial N (multiply 99 es) ∧
      ∀ s, (multiply 99 es).valueAt s =
        if b.valueAt s = 0 then 0 else b.valueAt s ^ n * d.valueAt s := by
  have hperm : (es.flatMap factors).Perm (.power b (ofInt n) :: d.factors) := by
    have hflat := hes.flatMap_right factors
    simpa [factors] using hflat
  have hpowers : (powersOf (es.flatMap factors)).Perm ((b, (n : ℤ)) :: powersOf d.factors) := by
    have hfilter := hperm.filterMap powerOf?
    rwa [List.filterMap_cons_some (powerOf?_power b n)] at hfilter
  have hatoms : ∀ f ∈ es.flatMap factors, Atom N f := by
    intro f hf
    rcases List.mem_cons.1 (hperm.mem_iff.1 hf) with rfl | hf
    · exact .power n hb hbase
    · exact hd.atoms f hf
  have htotal (t : Expr) : total t (powersOf (es.flatMap factors)) =
      (if b = t then (n : ℤ) else 0) + total t (powersOf d.factors) := by
    rw [total_perm hpowers, total_cons]
  have hbase_pos : 0 < total b (powersOf (es.flatMap factors)) := by
    have := hd.base
    rw [htotal, if_pos rfl]
    omega
  have hpos : ∀ p ∈ powersOf (es.flatMap factors), 0 < total p.1 (powersOf (es.flatMap factors)) := by
    intro p hp
    by_cases hne : p.1 = b
    · exact hne ▸ hbase_pos
    · rw [htotal, if_neg (Ne.symm hne), zero_add]
      rcases List.mem_cons.1 (hpowers.mem_iff.1 hp) with rfl | hp
      · exact absurd rfl hne
      · exact total_pos (fun q hq heq => hd.others q hq (heq ▸ hne)) hp rfl
  refine ⟨polynomial_multiply hatoms hpos 97, fun s => ?_⟩
  split
  · rename_i hzero
    have hfactor : (0 : ℚ) ∈ (gathered (powersOf (es.flatMap factors))).map
        fun p => p.1.valueAt s ^ p.2 := by
      refine List.mem_map.2 ⟨_, mem_gathered_of_total hbase_pos.ne', ?_⟩
      rw [hzero, zero_zpow _ hbase_pos.ne']
    rw [(finished_multiply hatoms 97).value, powersAt, List.prod_eq_zero hfactor, mul_zero]
  · rename_i hne
    have hdefined : Defined s (powersOf (es.flatMap factors)) := by
      intro p hp
      by_cases hp' : p.1 = b
      · exact .inl (hp' ▸ hne)
      · rcases List.mem_cons.1 (hpowers.mem_iff.1 hp) with rfl | hp
        · exact absurd rfl hp'
        · exact .inr (hd.others p hp hp').le
    rw [valueAt_multiply hatoms hdefined 97, (hes.map _).prod_eq]
    simp

theorem productOf_cancels {n : ℕ} (hn : 1 < n) (hb : Polynomial N b) (hbase : b.isBase = true)
    (hd : Divided N b d) :
    Polynomial N (productOf [.power b (ofInt n), d]) ∧
      ∀ s, (productOf [.power b (ofInt n), d]).valueAt s =
        if b.valueAt s = 0 then 0 else b.valueAt s ^ n * d.valueAt s := by
  rw [productOf_eq]
  obtain ⟨habsurd, -⟩ | ⟨rfl, heq⟩ | ⟨x, y, horder, heq⟩ := times_cases (.power b (ofInt n)) d 99
  · cases habsurd
  · rw [heq]
    refine ⟨.power hb hbase hn, fun s => ?_⟩
    split
    · rename_i hzero
      rw [valueAt_power, hzero, zpow_natCast, zero_pow (by omega)]
    · simp
  · have hperm : [x, y].Perm [.power b (ofInt n), d] := by
      obtain ⟨rfl, rfl⟩ | ⟨rfl, rfl⟩ := horder
      · exact .refl _
      · exact .swap _ _ _
    obtain heq | ⟨q, r, ts, rfl, hsplit, -⟩ := heq
    · rw [heq]
      exact multiply_cancels hn hb hbase hd hperm
    · obtain ⟨habsurd, -⟩ | ⟨-, rfl⟩ := horder
      · cases habsurd
      · cases hsplit

theorem sumOf_zero_atom (hd : Divided N b d) : sumOf [zero, d] = d := by
  have hzero : zero.isZero = true := rfl
  cases hisZero : d.isZero with
  | false => simp [sumOf, hzero, hisZero]
  | true =>
      cases d with
      | number c =>
          have hatom := hd.atoms (.number c) (List.mem_singleton.2 rfl)
          cases hatom with
          | number q =>
              obtain rfl : q = 0 := by simpa [isZero] using hisZero
              have heq : number (.exact 0) = zero := rfl
              simp [heq, sumOf, hzero]
          | base _ hbase => cases hbase
      | _ => cases hisZero

/-- The derivative of a power of a base. -/
theorem powerRule_polynomial {n : ℕ} (hn : 1 < n) (hb : Polynomial N b) (hbase : b.isBase = true)
    (hd : Polynomial N d) :
    Polynomial N (powerRule b (ofInt n) d zero) ∧
      ∀ s, (powerRule b (ofInt n) d zero).valueAt s =
        n * b.valueAt s ^ (n - 1) * d.valueAt s := by
  have hlog : applied .log [b] = .apply .log [b] := by
    cases b <;> simp_all [isBase, applied, evaluated?, logarithm]
  obtain ⟨hmultiple, htimes⟩ := productOf_polynomial hd (polynomial_ofInt (N := N) n)
  obtain ⟨hdivided, hquotient⟩ := quotientOf_base hmultiple hb hbase
  have hrule : powerRule b (ofInt n) d zero =
      productOf [.power b (ofInt n), quotientOf (productOf [d, ofInt n]) b] := by
    rw [powerRule, hlog, productOf_zero_log, sumOf_zero_atom hdivided]
  obtain ⟨hpolynomial, hvalue⟩ := productOf_cancels hn hb hbase hdivided
  rw [hrule]
  refine ⟨hpolynomial, fun s => ?_⟩
  obtain ⟨m, rfl⟩ : ∃ m, n = m + 2 := ⟨n - 2, by omega⟩
  rw [hvalue]
  split
  · rename_i hzero
    simp [hzero]
  · rename_i hne
    rw [hquotient s hne, htimes, valueAt_ofInt, show m + 2 - 1 = m + 1 from rfl]
    field_simp
    push_cast
    ring

end Gantry.Algebra.Expr
