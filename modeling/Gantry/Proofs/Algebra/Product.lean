import Mathlib.Algebra.Order.BigOperators.Group.List
import Gantry.Algebra.Product
import Gantry.Proofs.Algebra.Sum

/-!
Products of polynomials. The factors of a product come down to a number and to
whole powers of symbols and sums, in which each base occurs once with all of
its exponents added up. Where no base vanishes, or all of its exponents are
positive, this leaves the value of the product alone.
-/

namespace Gantry.Algebra.Expr

variable {s : String → ℚ} {N : String → Prop} {e a b f : Expr} {es fs : List Expr} {n : ℤ} {c : ℚ}
  {ps : List (Expr × ℤ)}

/-! ### Factors -/

/-- What products are gathered from: numbers, and whole powers of symbols and
sums. -/
inductive Atom (N : String → Prop) : Expr → Prop
  | number (q : ℚ) : Atom N (.number (.exact q))
  | base {b : Expr} (h : Polynomial N b) (hbase : b.isBase = true) : Atom N b
  | power {b : Expr} (n : ℤ) (h : Polynomial N b) (hbase : b.isBase = true) :
      Atom N (.power b (ofInt n))

def coefficientOf : Expr → ℚ
  | .number (.exact q) => q
  | _ => 1

/-- The base and the exponent of a factor that is no number. -/
def powerOf? : Expr → Option (Expr × ℤ)
  | .number _ => none
  | .power b e => e.integer?.map (b, ·)
  | e => some (e, 1)

def powersOf (fs : List Expr) : List (Expr × ℤ) := fs.filterMap powerOf?

def writePower (p : Expr × ℤ) : Expr := if p.2 = 1 then p.1 else .power p.1 (ofInt p.2)

/-- The value of powers. -/
def powersAt (s : String → ℚ) (ps : List (Expr × ℤ)) : ℚ :=
  (ps.map fun p => p.1.valueAt s ^ p.2).prod

theorem powerOf?_base (h : b.isBase = true) : powerOf? b = some (b, 1) := by
  cases b <;> simp_all [isBase, powerOf?]

@[simp] theorem powerOf?_power (b : Expr) (n : ℤ) : powerOf? (.power b (ofInt n)) = some (b, n) := by
  simp [powerOf?]

theorem coefficientOf_base (h : b.isBase = true) : coefficientOf b = 1 := by
  cases b <;> simp_all [isBase, coefficientOf]

theorem isProduct_base (h : b.isBase = true) : b.isProduct = false := by
  cases b <;> simp_all [isBase, isProduct]

theorem Atom.isProduct (h : Atom N f) : f.isProduct = false := by
  cases h with
  | base h hbase => exact isProduct_base hbase
  | _ => rfl

theorem Atom.isBase_of_mem (h : Atom N f) {p : Expr × ℤ} (hp : powerOf? f = some p) :
    Polynomial N p.1 ∧ p.1.isBase = true := by
  cases h with
  | number q => cases hp
  | base h hbase =>
      rw [powerOf?_base hbase] at hp
      obtain rfl := Option.some.inj hp
      exact ⟨h, hbase⟩
  | power n h hbase =>
      rw [powerOf?_power] at hp
      obtain rfl := Option.some.inj hp
      exact ⟨h, hbase⟩

theorem isBase_of_mem_powersOf (h : ∀ f ∈ fs, Atom N f) {p : Expr × ℤ} (hp : p ∈ powersOf fs) :
    Polynomial N p.1 ∧ p.1.isBase = true := by
  obtain ⟨f, hf, hp⟩ := List.mem_filterMap.1 hp
  exact (h f hf).isBase_of_mem hp

theorem atom_writePower {p : Expr × ℤ} (h : Polynomial N p.1) (hbase : p.1.isBase = true) :
    Atom N (writePower p) := by
  rw [writePower]
  split
  · exact .base h hbase
  · exact .power p.2 h hbase

theorem powerOf?_writePower {p : Expr × ℤ} (hbase : p.1.isBase = true) :
    powerOf? (writePower p) = some p := by
  rw [writePower]
  split
  · rename_i h
    rw [powerOf?_base hbase, ← h]
  · simp

@[simp] theorem valueAt_writePower (p : Expr × ℤ) :
    (writePower p).valueAt s = p.1.valueAt s ^ p.2 := by
  rw [writePower]
  split
  · rename_i h
    rw [h, zpow_one]
  · simp

@[simp] theorem powersOf_cons_number (q : ℚ) (fs : List Expr) :
    powersOf (.number (.exact q) :: fs) = powersOf fs := List.filterMap_cons_none rfl

theorem powersOf_cons_base (h : b.isBase = true) (fs : List Expr) :
    powersOf (b :: fs) = (b, 1) :: powersOf fs := List.filterMap_cons_some (powerOf?_base h)

@[simp] theorem powersOf_cons_power (b : Expr) (n : ℤ) (fs : List Expr) :
    powersOf (.power b (ofInt n) :: fs) = (b, n) :: powersOf fs :=
  List.filterMap_cons_some (powerOf?_power b n)

theorem powersAt_cons (s : String → ℚ) (p : Expr × ℤ) (ps : List (Expr × ℤ)) :
    powersAt s (p :: ps) = p.1.valueAt s ^ p.2 * powersAt s ps := by
  simp [powersAt]

theorem prod_values_atoms (h : ∀ f ∈ fs, Atom N f) (s : String → ℚ) :
    (fs.map (valueAt s)).prod = (fs.map coefficientOf).prod * powersAt s (powersOf fs) := by
  induction fs with
  | nil => simp [powersOf, powersAt]
  | cons f fs ih =>
      rw [List.forall_mem_cons] at h
      rw [List.map_cons, List.prod_cons, ih h.2, List.map_cons, List.prod_cons]
      cases h.1 with
      | number q => rw [powersOf_cons_number, coefficientOf, valueAt_number, mul_assoc]
      | base _ hbase =>
          rw [powersOf_cons_base hbase, powersAt_cons, coefficientOf_base hbase, zpow_one]
          ring
      | @power b n _ _ =>
          have hone : coefficientOf (.power b (ofInt n)) = 1 := rfl
          rw [powersOf_cons_power, powersAt_cons, valueAt_power, hone]
          ring

/-! ### Gathering -/

theorem basePower_base (h : b.isBase = true) : b.basePower = (b, one) := by
  cases b <;> simp_all [isBase, basePower]

theorem foldl_add_atoms (h : ∀ f ∈ fs, Atom N f) (q : ℚ) (acc : List (Expr × Expr)) :
    fs.foldl Factors.add ⟨.exact q, 0, [], acc⟩ =
      ⟨.exact (q * (fs.map coefficientOf).prod), 0, [],
        ((powersOf fs).map fun p => (p.1, ofInt p.2)).reverse ++ acc⟩ := by
  induction fs generalizing q acc with
  | nil => simp [powersOf]
  | cons f fs ih =>
      rw [List.forall_mem_cons] at h
      rw [List.foldl_cons, List.map_cons, List.prod_cons, ← mul_assoc]
      cases h.1 with
      | number c =>
          rw [powersOf_cons_number]
          exact ih h.2 (q * c) acc
      | base _ hbase =>
          have hadd : Factors.add ⟨.exact q, 0, [], acc⟩ f = ⟨.exact q, 0, [], (f, one) :: acc⟩ := by
            cases f <;> simp_all [isBase, Factors.add, basePower]
          rw [hadd, ih h.2, coefficientOf_base hbase, mul_one, powersOf_cons_base hbase]
          simp [one]
      | @power b n _ hbase =>
          have hadd : Factors.add ⟨.exact q, 0, [], acc⟩ (.power b (ofInt n)) =
              ⟨.exact q, 0, [], (b, ofInt n) :: acc⟩ := by
            cases b <;> simp_all [isBase, Factors.add, basePower]
          rw [hadd, ih h.2, powersOf_cons_power]
          simp [coefficientOf]

theorem ofList_atoms (h : ∀ f ∈ fs, Atom N f) :
    Factors.ofList fs = ⟨.exact (fs.map coefficientOf).prod, 0, [],
      (powersOf fs).map fun p => (p.1, ofInt p.2)⟩ := by
  have hnone : Factors.none = ⟨.exact 1, 0, [], []⟩ := rfl
  simp [Factors.ofList, hnone, foldl_add_atoms h]

theorem addExponent_gather (b : Expr) (n : ℤ) (ps : List (Expr × ℤ)) :
    addExponent b (ofInt n) (ps.map fun p => (p.1, [(one, Coefficient.ofInt p.2)])) =
      (gather b n ps).map fun p => (p.1, [(one, Coefficient.ofInt p.2)]) := by
  have hsplit : (ofInt n).splitCoefficient = (.ofInt n, one) := rfl
  induction ps with
  | nil => simp [addExponent, gather, hsplit]
  | cons p ps ih =>
      obtain ⟨d, m⟩ := p
      rw [List.map_cons, addExponent, gather]
      split
      · simp [hsplit, addTerm, Coefficient.ofInt, Coefficient.add]
      · rw [List.map_cons, ih]

theorem foldl_addExponent (ps acc : List (Expr × ℤ)) :
    (ps.map fun p => (p.1, ofInt p.2)).foldl (fun acc (b, e) => addExponent b e acc)
        (acc.map fun p => (p.1, [(one, Coefficient.ofInt p.2)])) =
      (ps.foldl (fun acc p => gather p.1 p.2 acc) acc).map
        fun p => (p.1, [(one, Coefficient.ofInt p.2)]) := by
  induction ps generalizing acc with
  | nil => rfl
  | cons p ps ih =>
      rw [List.map_cons, List.foldl_cons, List.foldl_cons, ← ih]
      dsimp only
      rw [addExponent_gather]

/-- Powers with each base once, without those that cancel. -/
def gathered (ps : List (Expr × ℤ)) : List (Expr × ℤ) := (gatherAll ps).filter (·.2 ≠ 0)

theorem scale_one (n : ℤ) : scale (.ofInt n) one = ofInt n := by
  by_cases hn : n = 1
  · simp [scale, hn, Coefficient.ofInt, one]
  · simp [scale, hn, Coefficient.ofInt, one, ofInt, scaleTerm, Coefficient.mul]

theorem gatherPowers_eq (ps : List (Expr × ℤ)) :
    gatherPowers (ps.map fun p => (p.1, ofInt p.2)) =
      (gathered ps).map fun p => (p.1, ofInt p.2) := by
  have hfold := foldl_addExponent ps []
  rw [List.map_nil] at hfold
  rw [gatherPowers, hfold, gathered, gatherAll]
  generalize ps.foldl (fun acc p => gather p.1 p.2 acc) [] = qs
  induction qs with
  | nil => rfl
  | cons p qs ih =>
      obtain ⟨b, n⟩ := p
      rw [List.map_cons, List.flatMap_cons, ih]
      by_cases hn : n = 0
      · simp [hn, Coefficient.ofInt]
      · simp [hn, Coefficient.ofInt, ← scale_one]

/-! ### Powers -/

theorem isApprox_splitCoefficient (h : Polynomial N e) :
    e.splitCoefficient.1.isApprox = false := by
  by_cases hnumber : e.isNumber = true
  · cases h with
    | number q => rfl
    | _ => cases hnumber
  · obtain ⟨q, u, hsplit, -, -⟩ := exists_split h (by simpa using hnumber)
    rw [hsplit]
    rfl

theorem balanced?_polynomial {ts : List Expr} (h : ∀ t ∈ ts, Polynomial N t) (c : Coefficient) :
    balanced? ts c = none := by
  have hany : (ts.map splitCoefficient).any (·.1.isApprox) = false := by
    simp only [List.any_map, List.any_eq_false, Function.comp_apply]
    exact fun t ht => by simp [isApprox_splitCoefficient (h t ht)]
  simp [balanced?, hany]

theorem raise_base (h : Polynomial N b) (hbase : b.isBase = true) (hn : n ≠ 0) (fuel : ℕ) :
    raise (fuel + 1) b (ofInt n) = writePower (b, n) := by
  have hzero : (ofInt n).isZero = false := by
    simpa [isZero, ofInt, Coefficient.ofInt, Coefficient.isZero] using hn
  have hminus : b.hasNumericMinus = false := by
    cases b <;> simp_all [isBase, hasNumericMinus]
  unfold raise
  by_cases hone : n = 1
  · have hisOne : (ofInt n).isOne = true := by simp [hone, isOne, ofInt, Coefficient.ofInt]
    simp only [hzero, hisOne]
    simp [writePower, hone]
  · have hisOne : (ofInt n).isOne = false := by simpa [isOne, ofInt, Coefficient.ofInt] using hone
    simp only [hzero, hisOne, hminus, integer?_ofInt, writePower, hone]
    cases h with
    | symbol r hx => rfl
    | sum hne hts => simp [ofInt, balanced?_polynomial hts]
    | _ => cases hbase

theorem basePower_writePower {p : Expr × ℤ} (hbase : p.1.isBase = true) :
    (writePower p).basePower.1 = p.1 := by
  rw [writePower]
  split
  · rw [basePower_base hbase]
  · rfl

theorem isNumber_writePower {p : Expr × ℤ} (hbase : p.1.isBase = true) :
    (writePower p).isNumber = false := by
  rw [writePower]
  split
  · cases hp : p.1 <;> simp_all [isBase, isNumber]
  · rfl

theorem turn_zero : turn 0 = (false, []) := by
  have hfloor : Rat.floor 0 = 0 := by decide
  simp [turn, hfloor]

theorem isBase_of_mem_gathered {P : Expr → Prop} (h : ∀ p ∈ ps, P p.1) {p : Expr × ℤ}
    (hp : p ∈ gathered ps) : P p.1 ∧ p.2 ≠ 0 := by
  obtain ⟨hmem, hne⟩ := List.mem_filter.1 hp
  obtain ⟨q, hq, heq⟩ := List.mem_map.1 (eq_total_of_mem_gatherAll hmem).1
  exact ⟨heq ▸ h q hq, by simpa using hne⟩

/-- The powers that factors are gathered to need no more gathering. -/
theorem multiply_atoms (h : ∀ f ∈ es.flatMap factors, Atom N f) (fuel : ℕ) :
    multiply (fuel + 2) es = finishProduct (.exact ((es.flatMap factors).map coefficientOf).prod)
      ((gathered (powersOf (es.flatMap factors))).map writePower) := by
  have hgathered : ∀ p ∈ gathered (powersOf (es.flatMap factors)),
      (Polynomial N p.1 ∧ p.1.isBase = true) ∧ p.2 ≠ 0 :=
    fun p hp => isBase_of_mem_gathered (P := fun b => Polynomial N b ∧ b.isBase = true)
      (fun q hq => isBase_of_mem_powersOf h hq) hp
  unfold multiply
  simp only [ofList_atoms h, gatherPowers_eq, turn_zero, List.isEmpty_nil, List.map_map]
  generalize gathered (powersOf (es.flatMap factors)) = ps at hgathered
  have hraised : ps.map ((fun p : Expr × Expr => raise (fuel + 1) p.1 p.2) ∘
      fun p => (p.1, ofInt p.2)) = ps.map writePower :=
    List.map_congr_left fun p hp =>
      raise_base (hgathered p hp).1.1 (hgathered p hp).1.2 (hgathered p hp).2 fuel
  have hflat : (ps.map writePower).any isProduct = false := by
    simp only [List.any_map, List.any_eq_false, Function.comp_apply]
    exact fun p hp => by
      simp [(atom_writePower (hgathered p hp).1.1 (hgathered p hp).1.2).isProduct]
  have hunmoved : ((ps.map fun p => (p.1, ofInt p.2)).zip (ps.map writePower)).any
      (fun x => x.2.basePower.1 != x.1.1) = false := by
    rw [List.zip_map', List.any_map, List.any_eq_false]
    exact fun p hp => by simp [basePower_writePower (hgathered p hp).1.2]
  have hnumbers : ∀ f ∈ ps.map writePower, f.isNumber = false := by
    simp only [List.mem_map, forall_exists_index, and_imp, forall_apply_eq_imp_iff₂]
    exact fun p hp => isNumber_writePower (hgathered p hp).1.2
  simp only [hraised, hflat, hunmoved]
  rw [if_neg (by simp), List.filterMap_eq_nil_iff.2, List.filter_eq_self.2]
  · simp [signed, Coefficient.mul]
  · intro f hf
    have hnumber := hnumbers f hf
    cases f <;> simp_all [isNumber]
  · intro f hf
    have hnumber := hnumbers f hf
    cases f <;> simp_all [isNumber]

/-! ### Finished products -/

theorem polynomial_ofFactors (h : ∀ f ∈ fs, Polynomial N f) (hflat : ∀ f ∈ fs, f.isProduct = false)
    (hnumber : ∀ f ∈ fs.tail, f.isNumber = false) : Polynomial N (ofFactors fs) := by
  rcases fs with - | ⟨f, - | ⟨g, fs⟩⟩
  · exact polynomial_one
  · exact h f List.mem_cons_self
  · exact .product (List.cons_ne_nil g fs) h hflat hnumber

theorem polynomial_writePower {p : Expr × ℤ} (h : Polynomial N p.1) (hbase : p.1.isBase = true)
    (hpos : 0 < p.2) : Polynomial N (writePower p) := by
  rw [writePower]
  split
  · exact h
  · obtain ⟨n, hn⟩ := Int.eq_ofNat_of_zero_le hpos.le
    rw [hn]
    exact .power h hbase (by omega)

/-- A number and powers that are written as a product. -/
structure Gathered (N : String → Prop) (ps : List (Expr × ℤ)) : Prop where
  polynomial : ∀ p ∈ ps, Polynomial N p.1
  base : ∀ p ∈ ps, p.1.isBase = true

theorem Gathered.atoms (h : Gathered N ps) : ∀ f ∈ ps.map writePower, Atom N f := by
  simp only [List.mem_map, forall_exists_index, and_imp, forall_apply_eq_imp_iff₂]
  exact fun p hp => atom_writePower (h.polynomial p hp) (h.base p hp)

theorem powersOf_writePower (h : Gathered N ps) : powersOf (ps.map writePower) = ps := by
  induction ps with
  | nil => rfl
  | cons p ps ih =>
      have hp := powerOf?_writePower (h.base p List.mem_cons_self)
      rw [List.map_cons, powersOf, List.filterMap_cons_some hp]
      exact congrArg _ (ih ⟨fun q hq => h.polynomial q (List.mem_cons_of_mem p hq),
        fun q hq => h.base q (List.mem_cons_of_mem p hq)⟩)

theorem prod_values_writePower (s : String → ℚ) (ps : List (Expr × ℤ)) :
    ((ps.map writePower).map (valueAt s)).prod = powersAt s ps := by
  simp [powersAt, List.map_map, Function.comp_def]

/-- All that finishing a product can come to: nothing, a sum with the number
distributed over it, or the factors in order behind the number. -/
theorem finishProduct_cases (c : ℚ) (es : List Expr) :
    c = 0 ∧ finishProduct (.exact c) es = zero ∨
      (∃ ts, es = [.sum ts] ∧
        finishProduct (.exact c) es = if c = 1 then .sum ts else distribute (.exact c) ts) ∨
      c ≠ 0 ∧ finishProduct (.exact c) es = ofFactors (numberUnlessOne (.exact c) ++ sortParts es) := by
  by_cases hc : c = 0
  · exact .inl ⟨hc, by simp [finishProduct, hc]⟩
  · have hsort (ts : List Expr) (h : sortParts es = [.sum ts]) : es = [.sum ts] := by
      have hperm := perm_sortParts es
      rw [h] at hperm
      exact (List.singleton_perm.1 hperm).symm
    unfold finishProduct
    simp only [isZero_exact, hc]
    by_cases hsum : ∃ ts, sortParts es = [.sum ts]
    · obtain ⟨ts, hts⟩ := hsum
      refine .inr (.inl ⟨ts, hsort ts hts, ?_⟩)
      simp [hts, Coefficient.isFinite]
    · refine .inr (.inr ⟨hc, ?_⟩)
      split
      · simp_all
      · split
        · simp_all
        · split
          · simp_all
          · rfl

theorem factors_of_flat (h : f.isProduct = false) : f.factors = [f] := by
  cases f <;> simp_all [isProduct, factors]

theorem factors_ofFactors (hne : fs ≠ []) (hflat : ∀ f ∈ fs, f.isProduct = false) :
    (ofFactors fs).factors = fs := by
  rcases fs with - | ⟨f, - | ⟨g, fs⟩⟩
  · contradiction
  · exact factors_of_flat (hflat f List.mem_cons_self)
  · rfl

theorem eq_of_mem_numberUnlessOne {c : Coefficient} (h : f ∈ numberUnlessOne c) : f = number c := by
  simp only [numberUnlessOne] at h
  split at h <;> simp_all

theorem valueAt_numberUnlessOne (s : String → ℚ) (c : ℚ) :
    ((numberUnlessOne (.exact c)).map (valueAt s)).prod = c := by
  by_cases hc : c = 1 <;> simp [numberUnlessOne, hc]

theorem powersOf_numberUnlessOne (c : ℚ) (fs : List Expr) :
    powersOf (numberUnlessOne (.exact c) ++ fs) = powersOf fs := by
  by_cases hc : c = 1 <;> simp [numberUnlessOne, hc]

theorem sum_of_writePower {ts : List Expr} (h : Gathered N ps)
    (hsum : ps.map writePower = [.sum ts]) : ps = [(.sum ts, 1)] := by
  obtain ⟨p, rfl, hp⟩ := List.map_eq_singleton_iff.1 hsum
  have hpower := powerOf?_writePower (h.base p List.mem_cons_self)
  rw [hp] at hpower
  rw [← Option.some.inj hpower]

/-- What finishing makes of a number and powers. -/
structure Finished (N : String → Prop) (c : ℚ) (ps : List (Expr × ℤ)) (e : Expr) : Prop where
  value : ∀ s, e.valueAt s = c * powersAt s ps
  polynomial : (∀ p ∈ ps, 0 < p.2) → Polynomial N e
  /-- Unless a number is left or has been distributed, the powers are the
  factors. -/
  factors : Polynomial N e ∨ (∀ f ∈ e.factors, Atom N f) ∧ (powersOf e.factors).Perm ps

/-- A sum and a number, which is distributed over it. -/
theorem finished_sum (h : Gathered N ps) (c : ℚ) {ts : List Expr}
    (hsum : ps.map writePower = [.sum ts]) :
    Finished N c ps (if c = 1 then .sum ts else distribute (.exact c) ts) := by
  have hps := sum_of_writePower h hsum
  have hts : Polynomial N (.sum ts) := h.polynomial (.sum ts, 1) (by simp [hps])
  have hterms : ∀ t ∈ ts, Polynomial N t := hts.terms
  have hdistributed := distribute_polynomial hterms c
  have hpolynomial : Polynomial N (if c = 1 then .sum ts else distribute (.exact c) ts) := by
    split
    · exact hts
    · exact hdistributed.1
  refine ⟨fun s => ?_, fun _ => hpolynomial, .inl hpolynomial⟩
  rw [hps]
  split
  · rename_i hc
    simp [hc, powersAt]
  · simp [powersAt, hdistributed.2]

/-- Powers in order behind a number. -/
theorem finished_factors (h : Gathered N ps) (c : ℚ) :
    Finished N c ps (ofFactors (numberUnlessOne (.exact c) ++ sortParts (ps.map writePower))) := by
  have hatoms : ∀ f ∈ numberUnlessOne (.exact c) ++ sortParts (ps.map writePower), Atom N f := by
    intro f hf
    rcases List.mem_append.1 hf with hf | hf
    · exact eq_of_mem_numberUnlessOne hf ▸ .number c
    · exact h.atoms f (mem_sortParts.1 hf)
  have hflat : ∀ f ∈ numberUnlessOne (.exact c) ++ sortParts (ps.map writePower),
      f.isProduct = false := fun f hf => (hatoms f hf).isProduct
  have hnumber : ∀ f ∈ sortParts (ps.map writePower), f.isNumber = false := by
    intro f hf
    obtain ⟨p, hp, rfl⟩ := List.mem_map.1 (mem_sortParts.1 hf)
    exact isNumber_writePower (h.base p hp)
  refine ⟨fun s => ?_, fun hpos => ?_, ?_⟩
  · rw [valueAt_ofFactors, List.map_append, List.prod_append, valueAt_numberUnlessOne,
      prod_values_sortParts, prod_values_writePower]
  · refine polynomial_ofFactors (fun f hf => ?_) hflat ?_
    · rcases List.mem_append.1 hf with hf | hf
      · exact eq_of_mem_numberUnlessOne hf ▸ .number c
      · obtain ⟨p, hp, rfl⟩ := List.mem_map.1 (mem_sortParts.1 hf)
        exact polynomial_writePower (h.polynomial p hp) (h.base p hp) (hpos p hp)
    · by_cases hc : c = 1
      · have hone : numberUnlessOne (.exact c) = [] := by simp [numberUnlessOne, hc]
        rw [hone]
        exact fun f hf => hnumber f (List.mem_of_mem_tail hf)
      · have hcons : numberUnlessOne (.exact c) = [number (.exact c)] := by
          simp [numberUnlessOne, hc]
        rw [hcons]
        exact hnumber
  · by_cases hne : numberUnlessOne (.exact c) ++ sortParts (ps.map writePower) = []
    · rw [hne]
      exact .inl polynomial_one
    · rw [factors_ofFactors hne hflat, powersOf_numberUnlessOne]
      have hperm : (powersOf (sortParts (ps.map writePower))).Perm (powersOf (ps.map writePower)) :=
        (perm_sortParts _).filterMap _
      exact .inr ⟨hatoms, by rwa [powersOf_writePower h] at hperm⟩

theorem finished_finishProduct (h : Gathered N ps) (c : ℚ) :
    Finished N c ps (finishProduct (.exact c) (ps.map writePower)) := by
  obtain ⟨rfl, heq⟩ | ⟨ts, hsum, heq⟩ | ⟨-, heq⟩ := finishProduct_cases c (ps.map writePower)
  · rw [heq]
    exact ⟨by simp, fun _ => polynomial_zero, .inl polynomial_zero⟩
  · rw [heq]
    exact finished_sum h c hsum
  · rw [heq]
    exact finished_factors h c

/-! ### Values of gathered powers -/

/-- Powers that have a value: nothing is divided by zero. -/
def Defined (s : String → ℚ) (ps : List (Expr × ℤ)) : Prop :=
  ∀ p ∈ ps, p.1.valueAt s ≠ 0 ∨ 0 ≤ p.2

theorem zpow_add_of_or {x : ℚ} {m n : ℤ} (hm : x ≠ 0 ∨ 0 ≤ m) (hn : x ≠ 0 ∨ 0 ≤ n) :
    x ^ (m + n) = x ^ m * x ^ n := by
  by_cases hx : x = 0
  · have hm := hm.resolve_left (not_not.2 hx)
    have hn := hn.resolve_left (not_not.2 hx)
    refine zpow_add' ?_
    rcases eq_or_ne (m + n) 0 with hsum | hsum
    · exact .inr (.inr ⟨by omega, by omega⟩)
    · exact .inr (.inl hsum)
  · exact zpow_add₀ hx m n

theorem defined_cons {p : Expr × ℤ} :
    Defined s (p :: ps) ↔ (p.1.valueAt s ≠ 0 ∨ 0 ≤ p.2) ∧ Defined s ps := List.forall_mem_cons

theorem gather_defined (h : Defined s ps) {p : Expr × ℤ} (hp : p.1.valueAt s ≠ 0 ∨ 0 ≤ p.2) :
    Defined s (gather p.1 p.2 ps) ∧
      powersAt s (gather p.1 p.2 ps) = powersAt s ps * p.1.valueAt s ^ p.2 := by
  induction ps with
  | nil => simpa [gather, Defined, powersAt] using hp
  | cons q ps ih =>
      obtain ⟨b, m⟩ := q
      obtain ⟨hq, hps⟩ := defined_cons.1 h
      obtain ⟨hdefined, hvalue⟩ := ih hps
      rw [gather]
      split
      · obtain rfl : b = p.1 := eq_of_beq ‹_›
        refine ⟨defined_cons.2 ⟨?_, hps⟩, ?_⟩
        · rcases hq with hq | hq
          · exact .inl hq
          · exact hp.imp_right fun hp => add_nonneg hq hp
        · rw [powersAt_cons, powersAt_cons, zpow_add_of_or hq hp]
          ring
      · exact ⟨defined_cons.2 ⟨hq, hdefined⟩, by rw [powersAt_cons, powersAt_cons, hvalue]; ring⟩

theorem powersAt_gatherAll (h : Defined s ps) : powersAt s (gatherAll ps) = powersAt s ps := by
  suffices hfold : ∀ acc, Defined s acc →
      powersAt s (ps.foldl (fun acc p => gather p.1 p.2 acc) acc) = powersAt s acc * powersAt s ps by
    rw [gatherAll, hfold [] (by simp [Defined])]
    simp [powersAt]
  induction ps with
  | nil => simp [powersAt]
  | cons p ps ih =>
      intro acc hacc
      obtain ⟨hp, hps⟩ := defined_cons.1 h
      obtain ⟨hdefined, hvalue⟩ := gather_defined hacc hp
      rw [List.foldl_cons, ih hps _ hdefined, hvalue, powersAt_cons, mul_assoc]

theorem powersAt_gathered (h : Defined s ps) : powersAt s (gathered ps) = powersAt s ps := by
  rw [← powersAt_gatherAll h, gathered]
  induction gatherAll ps with
  | nil => rfl
  | cons p qs ih =>
      by_cases hp : p.2 = 0
      · rw [List.filter_cons_of_neg (by simpa using hp), powersAt_cons, hp, zpow_zero, one_mul, ih]
      · rw [List.filter_cons_of_pos (by simpa using hp), powersAt_cons, powersAt_cons, ih]

theorem gathered_of_atoms (h : ∀ f ∈ fs, Atom N f) : Gathered N (gathered (powersOf fs)) := by
  have hbase := fun p (hp : p ∈ gathered (powersOf fs)) =>
    (isBase_of_mem_gathered (P := fun b => Polynomial N b ∧ b.isBase = true)
      (fun q hq => isBase_of_mem_powersOf h hq) hp).1
  exact ⟨fun p hp => (hbase p hp).1, fun p hp => (hbase p hp).2⟩

/-! ### Products -/

/-- What the factors of a product come to. -/
theorem finished_multiply (h : ∀ f ∈ es.flatMap factors, Atom N f) (fuel : ℕ) :
    Finished N ((es.flatMap factors).map coefficientOf).prod
      (gathered (powersOf (es.flatMap factors))) (multiply (fuel + 2) es) := by
  rw [multiply_atoms h]
  exact finished_finishProduct (gathered_of_atoms h) _

theorem prod_values_flatMap_factors (es : List Expr) (s : String → ℚ) :
    ((es.flatMap factors).map (valueAt s)).prod = (es.map (valueAt s)).prod := by
  induction es with
  | nil => rfl
  | cons e es ih => simp [prod_values_factors, ih]

/-- A product has the product of the values, where nothing is divided by zero. -/
theorem valueAt_multiply (h : ∀ f ∈ es.flatMap factors, Atom N f)
    (hs : Defined s (powersOf (es.flatMap factors))) (fuel : ℕ) :
    (multiply (fuel + 2) es).valueAt s = (es.map (valueAt s)).prod := by
  rw [(finished_multiply h fuel).value, powersAt_gathered hs, ← prod_values_atoms h,
    prod_values_flatMap_factors]

/-- A product is a polynomial if all exponents add up to positive ones. -/
theorem polynomial_multiply (h : ∀ f ∈ es.flatMap factors, Atom N f)
    (hpos : ∀ p ∈ powersOf (es.flatMap factors), 0 < total p.1 (powersOf (es.flatMap factors)))
    (fuel : ℕ) : Polynomial N (multiply (fuel + 2) es) := by
  refine (finished_multiply h fuel).polynomial fun p hp => ?_
  obtain ⟨hmem, htotal⟩ := eq_total_of_mem_gatherAll (List.mem_filter.1 hp).1
  obtain ⟨q, hq, heq⟩ := List.mem_map.1 hmem
  rw [htotal, ← heq]
  exact hpos q hq

theorem Polynomial.atom (h : Polynomial N f) (hflat : f.isProduct = false) :
    Atom N f ∧ ∀ p, powerOf? f = some p → 0 < p.2 := by
  cases h with
  | number q => exact ⟨.number q, by simp [powerOf?]⟩
  | symbol r hx => exact ⟨.base (.symbol r hx) rfl, by simp [powerOf?]⟩
  | sum hne h => exact ⟨.base (.sum hne h) rfl, by simp [powerOf?]⟩
  | product => cases hflat
  | power h hbase hn => exact ⟨.power _ h hbase, by simpa using Nat.zero_lt_of_lt hn⟩

/-- A polynomial as a factor: its exponents are positive. -/
theorem Polynomial.factors (h : Polynomial N e) :
    (∀ f ∈ e.factors, Atom N f) ∧ ∀ p ∈ powersOf e.factors, 0 < p.2 := by
  have hall : ∀ f ∈ e.factors, Polynomial N f ∧ f.isProduct = false := by
    by_cases hflat : e.isProduct = false
    · rw [factors_of_flat hflat]
      simpa using ⟨h, hflat⟩
    · cases h with
      | product _ h hparts _ => exact fun f hf => ⟨h f hf, hparts f hf⟩
      | _ => exact absurd rfl hflat
  refine ⟨fun f hf => ((hall f hf).1.atom (hall f hf).2).1, fun p hp => ?_⟩
  obtain ⟨f, hf, hp⟩ := List.mem_filterMap.1 hp
  exact ((hall f hf).1.atom (hall f hf).2).2 p hp

theorem atoms_of_polynomials (h : ∀ e ∈ es, Polynomial N e) : ∀ f ∈ es.flatMap factors, Atom N f := by
  intro f hf
  obtain ⟨e, he, hf⟩ := List.mem_flatMap.1 hf
  exact (h e he).factors.1 f hf

theorem powers_pos_of_polynomials (h : ∀ e ∈ es, Polynomial N e) :
    ∀ p ∈ powersOf (es.flatMap factors), 0 < p.2 := by
  intro p hp
  obtain ⟨f, hf, hp⟩ := List.mem_filterMap.1 hp
  obtain ⟨e, he, hf⟩ := List.mem_flatMap.1 hf
  exact (h e he).factors.2 p (List.mem_filterMap.2 ⟨f, hf, hp⟩)

theorem total_nonneg {t : Expr} (h : ∀ p ∈ ps, p.1 = t → 0 < p.2) : 0 ≤ total t ps :=
  List.sum_nonneg fun n hn => by
    obtain ⟨p, hp, rfl⟩ := List.mem_map.1 hn
    obtain ⟨hmem, hkey⟩ := List.mem_filter.1 hp
    exact (h p hmem (eq_of_beq hkey)).le

theorem total_pos {t : Expr} (h : ∀ p ∈ ps, p.1 = t → 0 < p.2) {p : Expr × ℤ} (hp : p ∈ ps)
    (ht : p.1 = t) : 0 < total t ps := by
  induction ps with
  | nil => cases hp
  | cons q ps ih =>
      rw [List.forall_mem_cons] at h
      rw [total_cons]
      rcases List.mem_cons.1 hp with rfl | hp
      · rw [if_pos ht]
        exact add_pos_of_pos_of_nonneg (h.1 ht) (total_nonneg h.2)
      · split
        · exact add_pos (h.1 ‹_›) (ih h.2 hp)
        · rw [zero_add]
          exact ih h.2 hp

theorem multiply_polynomial (h : ∀ e ∈ es, Polynomial N e) (fuel : ℕ) :
    Polynomial N (multiply (fuel + 2) es) ∧
      ∀ s, (multiply (fuel + 2) es).valueAt s = (es.map (valueAt s)).prod := by
  have hatoms := atoms_of_polynomials h
  have hpos := powers_pos_of_polynomials h
  exact ⟨polynomial_multiply hatoms (fun p hp => total_pos (fun q hq _ => hpos q hq) hp rfl) fuel,
    fun s => valueAt_multiply hatoms (fun p hp => .inr (hpos p hp).le) fuel⟩

/-! ### Two factors -/

theorem productOf_eq (es : List Expr) : productOf es = times (99 + 1) es := rfl

theorem isOne_eq_true_iff : e.isOne = true ↔ e = one := by
  cases e with
  | number c => cases c <;> simp [isOne, one, ofInt, Coefficient.ofInt, Coefficient.isOne]
  | _ => simp [isOne, one, ofInt]

/-- How two factors are multiplied. A number goes into a sum, or into the
number before a sum; all else is gathered. -/
theorem times_cases (a b : Expr) (fuel : ℕ) :
    a = one ∧ times (fuel + 1) [a, b] = b ∨ b = one ∧ times (fuel + 1) [a, b] = a ∨
      ∃ x y, (x = a ∧ y = b ∨ x = b ∧ y = a) ∧
        (times (fuel + 1) [a, b] = multiply fuel [x, y] ∨
          ∃ q r ts, x = .number (.exact q) ∧ y.splitCoefficient = (r, .sum ts) ∧
            times (fuel + 1) [a, b] = if q = 0 then zero
              else if r.isOne then distribute (.exact q) ts
              else withCoefficient (r.mul (.exact q)) (.sum ts)) := by
  have hone : one.isOne = true := rfl
  unfold times
  by_cases ha : a.isOne = true
  · refine .inl ⟨isOne_eq_true_iff.1 ha, ?_⟩
    by_cases hb : b.isOne = true
    · simp [isOne_eq_true_iff.1 ha, isOne_eq_true_iff.1 hb, hone]
    · simp [ha, hb]
  · by_cases hb : b.isOne = true
    · exact .inr (.inl ⟨isOne_eq_true_iff.1 hb, by simp [ha, hb]⟩)
    · have hfilter : [a, b].filter (!·.isOne) = [a, b] := by simp [ha, hb]
      obtain ⟨x, y, horder, hpair⟩ : ∃ x y, (x = a ∧ y = b ∨ x = b ∧ y = a) ∧
          (if b.ratio?.isSome = true then (b, a) else (a, b)) = (x, y) := by
        split
        · exact ⟨b, a, .inr ⟨rfl, rfl⟩, rfl⟩
        · exact ⟨a, b, .inl ⟨rfl, rfl⟩, rfl⟩
      simp only [hfilter, hpair]
      refine .inr (.inr ⟨x, y, horder, ?_⟩)
      split
      · rename_i q r ts hratio hsplit
        refine .inr ⟨q, r, ts, ?_, hsplit, rfl⟩
        unfold ratio? at hratio
        split at hratio <;> simp_all
      · exact .inl rfl

/-- The product of two polynomials. -/
theorem times_pair_polynomial (ha : Polynomial N a) (hb : Polynomial N b) (fuel : ℕ) :
    Polynomial N (times (fuel + 3) [a, b]) ∧
      ∀ s, (times (fuel + 3) [a, b]).valueAt s = a.valueAt s * b.valueAt s := by
  obtain ⟨rfl, heq⟩ | ⟨rfl, heq⟩ | ⟨x, y, horder, heq⟩ := times_cases a b (fuel + 2)
  · rw [heq]
    exact ⟨hb, fun s => by rw [valueAt_one, one_mul]⟩
  · rw [heq]
    exact ⟨ha, fun s => by rw [valueAt_one, mul_one]⟩
  · have hxy : (Polynomial N x ∧ Polynomial N y) ∧
        ∀ s, a.valueAt s * b.valueAt s = x.valueAt s * y.valueAt s := by
      obtain ⟨rfl, rfl⟩ | ⟨rfl, rfl⟩ := horder
      · exact ⟨⟨ha, hb⟩, fun s => rfl⟩
      · exact ⟨⟨hb, ha⟩, fun s => mul_comm _ _⟩
    obtain ⟨⟨hx, hy⟩, hvalue⟩ := hxy
    simp only [hvalue]
    obtain heq | ⟨q, r, ts, rfl, hsplit, heq⟩ := heq
    · have hfactors : ∀ e ∈ [x, y], Polynomial N e := by simp [hx, hy]
      obtain ⟨hpolynomial, hproduct⟩ := multiply_polynomial hfactors fuel
      rw [heq]
      exact ⟨hpolynomial, fun s => by rw [hproduct]; simp⟩
    · have hnumber : y.isNumber = false := by
        cases y with
        | number c =>
            simp only [splitCoefficient] at hsplit
            split at hsplit <;> cases hsplit
        | _ => rfl
      obtain ⟨c, u, hsplit', hu, hworth⟩ := exists_split hy hnumber
      rw [hsplit, Prod.mk.injEq] at hsplit'
      obtain ⟨rfl, rfl⟩ := hsplit'
      rw [heq]
      split
      · rename_i hq
        exact ⟨polynomial_zero, fun s => by simp [hq]⟩
      · split
        · rename_i hone
          have hc : c = 1 := by simpa using hone
          have hterms : ∀ t ∈ ts, Polynomial N t := hu.polynomial.terms
          obtain ⟨hpolynomial, hproduct⟩ := distribute_polynomial hterms q
          exact ⟨hpolynomial, fun s => by rw [hproduct]; simp [hworth, hc]⟩
        · obtain ⟨hpolynomial, -, hproduct⟩ := withCoefficient_bare hu (c * q)
          exact ⟨hpolynomial, fun s => by
            rw [Coefficient.mul, hproduct, hworth, valueAt_number]; ring⟩

theorem productOf_polynomial (ha : Polynomial N a) (hb : Polynomial N b) :
    Polynomial N (productOf [a, b]) ∧
      ∀ s, (productOf [a, b]).valueAt s = a.valueAt s * b.valueAt s :=
  times_pair_polynomial ha hb 97

/-! ### More factors -/

/-- Ones are left out of a product. -/
theorem times_filter (fuel : ℕ) (es : List Expr) :
    times (fuel + 1) (es.filter (!·.isOne)) = times (fuel + 1) es := by
  unfold times
  simp only [List.filter_filter, Bool.and_self]

theorem prod_values_filter_isOne (es : List Expr) :
    ((es.filter (!·.isOne)).map (valueAt s)).prod = (es.map (valueAt s)).prod := by
  induction es with
  | nil => rfl
  | cons e es ih =>
      by_cases he : e.isOne = true
      · rw [List.filter_cons_of_neg (by simp [he]), ih, List.map_cons, List.prod_cons,
          isOne_eq_true_iff.1 he, valueAt_one, one_mul]
      · rw [List.filter_cons_of_pos (by simp [he]), List.map_cons, List.map_cons, List.prod_cons,
          List.prod_cons, ih]

/-- The product of polynomials. -/
theorem times_polynomial (h : ∀ e ∈ es, Polynomial N e) (fuel : ℕ) :
    Polynomial N (times (fuel + 3) es) ∧
      ∀ s, (times (fuel + 3) es).valueAt s = (es.map (valueAt s)).prod := by
  have hfiltered : ∀ e ∈ es.filter (!·.isOne), Polynomial N e ∧ e.isOne = false := by
    intro e he
    obtain ⟨hmem, hone⟩ := List.mem_filter.1 he
    exact ⟨h e hmem, by simpa using hone⟩
  rw [← times_filter]
  simp only [← prod_values_filter_isOne es]
  generalize es.filter (!·.isOne) = fs at hfiltered
  have hones : fs.filter (!·.isOne) = fs :=
    List.filter_eq_self.2 fun e he => by simp [(hfiltered e he).2]
  rcases fs with - | ⟨a, - | ⟨b, - | ⟨d, fs⟩⟩⟩
  · exact ⟨polynomial_one, fun s => valueAt_one⟩
  · have heq : times (fuel + 3) [a] = a := by
      rw [times.eq_def]
      simp only [hones]
    rw [heq]
    exact ⟨(hfiltered a (by simp)).1, fun s => by simp⟩
  · obtain ⟨hpolynomial, hvalue⟩ := times_pair_polynomial (hfiltered a (by simp)).1
      (hfiltered b (by simp)).1 fuel
    exact ⟨hpolynomial, fun s => by simp [hvalue]⟩
  · have heq : times (fuel + 3) (a :: b :: d :: fs) = multiply (fuel + 2) (a :: b :: d :: fs) := by
      rw [times.eq_def]
      simp only [hones]
    rw [heq]
    exact multiply_polynomial (fun e he => (hfiltered e he).1) fuel

end Gantry.Algebra.Expr
