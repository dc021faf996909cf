import Mathlib.Algebra.Field.Rat
import Mathlib.Algebra.BigOperators.Ring.List
import Mathlib.Tactic.Ring
import Gantry.Proofs.Algebra.Equality

/-!
Polynomials among the expressions, and the exact values of expressions. A
polynomial is made of exact numbers and symbols by sums, products and whole
powers, as the canonical forms have them: products do not stand in products,
a number stands first in its product, and only symbols and sums are raised to
a power.
-/

namespace Gantry.Algebra.Expr

/-! ### Values -/

mutual

/-- The exact value of an expression of exact numbers, symbols, sums, products
and whole powers, given the values of the symbols. -/
def valueAt (s : String → ℚ) : Expr → ℚ
  | .number (.exact q) => q
  | .symbol x _ => s x
  | .sum ts => (valuesAt s ts).sum
  | .product fs => (valuesAt s fs).prod
  | .power b e =>
    match e.integer? with
    | some n => b.valueAt s ^ n
    | none => 0
  | _ => 0

def valuesAt (s : String → ℚ) : List Expr → List ℚ
  | [] => []
  | e :: es => e.valueAt s :: valuesAt s es

end

variable {s : String → ℚ} {N : String → Prop} {e b t : Expr} {es ts fs : List Expr} {q c : ℚ}

theorem valuesAt_eq (s : String → ℚ) (es : List Expr) : valuesAt s es = es.map (valueAt s) := by
  induction es with
  | nil => rfl
  | cons e es ih => rw [valuesAt, ih, List.map_cons]

@[simp] theorem valueAt_number (q : ℚ) : (number (.exact q)).valueAt s = q := by
  rw [valueAt]

@[simp] theorem valueAt_symbol (x : String) (r : Bool) : (symbol x r).valueAt s = s x := by
  rw [valueAt]

@[simp] theorem valueAt_sum (ts : List Expr) : (sum ts).valueAt s = (ts.map (valueAt s)).sum := by
  rw [valueAt, valuesAt_eq]

@[simp] theorem valueAt_product (fs : List Expr) :
    (product fs).valueAt s = (fs.map (valueAt s)).prod := by
  rw [valueAt, valuesAt_eq]

@[simp] theorem integer?_ofInt (n : ℤ) : (ofInt n).integer? = some n := by
  simp [ofInt, Coefficient.ofInt, integer?, Coefficient.integer?]

@[simp] theorem valueAt_power (b : Expr) (n : ℤ) :
    (power b (ofInt n)).valueAt s = b.valueAt s ^ n := by
  rw [valueAt, integer?_ofInt]

@[simp] theorem valueAt_ofInt (n : ℤ) : (ofInt n).valueAt s = n := valueAt_number _

@[simp] theorem valueAt_zero : zero.valueAt s = 0 := by simp [zero]

@[simp] theorem valueAt_one : one.valueAt s = 1 := by simp [one]

theorem sum_values_terms (e : Expr) : (e.terms.map (valueAt s)).sum = e.valueAt s := by
  cases e <;> simp [terms]

theorem prod_values_factors (e : Expr) : (e.factors.map (valueAt s)).prod = e.valueAt s := by
  cases e <;> simp [factors]

@[simp] theorem valueAt_ofTerms (ts : List Expr) :
    (ofTerms ts).valueAt s = (ts.map (valueAt s)).sum := by
  rcases ts with - | ⟨t, - | ⟨u, ts⟩⟩ <;> simp [ofTerms]

@[simp] theorem valueAt_ofFactors (fs : List Expr) :
    (ofFactors fs).valueAt s = (fs.map (valueAt s)).prod := by
  rcases fs with - | ⟨f, - | ⟨g, fs⟩⟩ <;> simp [ofFactors]

theorem sum_values_sortParts (es : List Expr) :
    ((sortParts es).map (valueAt s)).sum = (es.map (valueAt s)).sum :=
  ((perm_sortParts es).map _).sum_eq

theorem prod_values_sortParts (es : List Expr) :
    ((sortParts es).map (valueAt s)).prod = (es.map (valueAt s)).prod :=
  ((perm_sortParts es).map _).prod_eq

/-! ### Polynomials -/

def isBase : Expr → Bool
  | .symbol _ _ | .sum _ => true
  | _ => false

def isNumber : Expr → Bool
  | .number _ => true
  | _ => false

/-- The polynomials in symbols of some names. -/
inductive Polynomial (N : String → Prop) : Expr → Prop
  | number (q : ℚ) : Polynomial N (.number (.exact q))
  | symbol {x : String} (r : Bool) (hx : N x) : Polynomial N (.symbol x r)
  | sum {ts : List Expr} (hne : ts ≠ []) (h : ∀ t ∈ ts, Polynomial N t) : Polynomial N (.sum ts)
  | product {f : Expr} {fs : List Expr} (hne : fs ≠ []) (h : ∀ g ∈ f :: fs, Polynomial N g)
      (hflat : ∀ g ∈ f :: fs, g.isProduct = false) (hnumber : ∀ g ∈ fs, g.isNumber = false) :
      Polynomial N (.product (f :: fs))
  | power {b : Expr} {n : ℕ} (h : Polynomial N b) (hbase : b.isBase = true) (hn : 1 < n) :
      Polynomial N (.power b (ofInt n))

theorem Polynomial.mono {M : String → Prop} (h : Polynomial N e) (hM : ∀ x, N x → M x) :
    Polynomial M e := by
  induction h with
  | number q => exact .number q
  | symbol r hx => exact .symbol r (hM _ hx)
  | sum hne _ ih => exact .sum hne ih
  | product hne _ hflat hnumber ih => exact .product hne ih hflat hnumber
  | power _ hbase hn ih => exact .power ih hbase hn

/-- Only the values of the names that a polynomial is made of matter. -/
theorem Polynomial.valueAt_congr {s' : String → ℚ} (h : Polynomial N e) (hs : ∀ x, N x → s x = s' x) :
    e.valueAt s = e.valueAt s' := by
  induction h with
  | number q => simp
  | symbol r hx => simpa using hs _ hx
  | sum hne _ ih => rw [valueAt_sum, valueAt_sum, List.map_congr_left ih]
  | product hne _ _ _ ih => rw [valueAt_product, valueAt_product, List.map_congr_left ih]
  | power _ hbase hn ih => rw [valueAt_power, valueAt_power, ih]

theorem polynomial_ofInt (n : ℤ) : Polynomial N (ofInt n) := .number _

theorem polynomial_zero : Polynomial N zero := .number _

theorem polynomial_one : Polynomial N one := .number _

theorem Polynomial.terms (h : Polynomial N e) : ∀ t ∈ e.terms, Polynomial N t := by
  cases h with
  | sum hne h => exact h
  | number q => simpa [Expr.terms] using .number q
  | symbol r hx => simpa [Expr.terms] using .symbol r hx
  | product hne h hflat hnumber => simpa [Expr.terms] using .product hne h hflat hnumber
  | power h hbase hn => simpa [Expr.terms] using .power h hbase hn

theorem polynomial_ofTerms (h : ∀ t ∈ ts, Polynomial N t) : Polynomial N (ofTerms ts) := by
  rcases ts with - | ⟨t, - | ⟨u, ts⟩⟩
  · exact polynomial_zero
  · exact h t List.mem_cons_self
  · exact .sum (List.cons_ne_nil t _) h

/-- A polynomial without a number as a factor. -/
structure Bare (N : String → Prop) (e : Expr) : Prop where
  polynomial : Polynomial N e
  number : ∀ f ∈ e.factors, f.isNumber = false

theorem Bare.isNumber_eq_false (h : Bare N e) : e.isNumber = false := by
  cases e with
  | number c => cases h.number _ (List.mem_singleton.2 rfl)
  | _ => rfl

theorem bare_ofFactors (hne : fs ≠ []) (h : ∀ f ∈ fs, Polynomial N f)
    (hflat : ∀ f ∈ fs, f.isProduct = false) (hnumber : ∀ f ∈ fs, f.isNumber = false) :
    Bare N (ofFactors fs) := by
  rcases fs with - | ⟨f, - | ⟨g, fs⟩⟩
  · contradiction
  · refine ⟨h f List.mem_cons_self, fun g hg => ?_⟩
    have hf := hflat f List.mem_cons_self
    have hfactors : f.factors = [f] := by cases f <;> simp_all [Expr.factors, isProduct]
    rw [ofFactors, hfactors, List.mem_singleton] at hg
    exact hg ▸ hnumber f List.mem_cons_self
  · exact ⟨.product (List.cons_ne_nil g fs) h hflat fun k hk => hnumber k (List.mem_cons_of_mem f hk),
      hnumber⟩

theorem exists_split (h : Polynomial N e) (hnumber : e.isNumber = false) :
    ∃ q u, e.splitCoefficient = (.exact q, u) ∧ Bare N u ∧ ∀ s, e.valueAt s = q * u.valueAt s := by
  cases h with
  | number q => cases hnumber
  | symbol r hx =>
      exact ⟨1, _, rfl, ⟨.symbol r hx, by simp [factors, isNumber]⟩, by simp⟩
  | sum hne h =>
      exact ⟨1, _, rfl, ⟨.sum hne h, by simp [factors, isNumber]⟩, by simp⟩
  | power h hbase hn =>
      exact ⟨1, _, rfl, ⟨.power h hbase hn, by simp [factors, isNumber]⟩, by simp⟩
  | @product f fs hne h hflat hn =>
      by_cases hf : f.isNumber = true
      · cases h f List.mem_cons_self with
        | number q =>
            refine ⟨q, ofFactors fs, rfl, bare_ofFactors hne
              (fun g hg => h g (List.mem_cons_of_mem _ hg))
              (fun g hg => hflat g (List.mem_cons_of_mem _ hg)) hn, by simp⟩
        | _ => cases hf
      · have hall : ∀ g ∈ f :: fs, g.isNumber = false := by simp_all
        have hsplit : (Expr.product (f :: fs)).splitCoefficient = (.exact 1, .product (f :: fs)) := by
          cases f <;> simp_all [splitCoefficient, isNumber, Coefficient.one]
        exact ⟨1, _, hsplit, ⟨.product hne h hflat hn, hall⟩, by simp⟩

@[simp] theorem isOne_exact (q : ℚ) : (Coefficient.exact q).isOne = decide (q = 1) := rfl

@[simp] theorem isZero_exact (q : ℚ) : (Coefficient.exact q).isZero = decide (q = 0) := rfl

@[simp] theorem isProduct_number (c : Coefficient) : (number c).isProduct = false := rfl

theorem polynomial_multiple (h : Polynomial N e) (hnumber : e.isNumber = false)
    (hflat : e.isProduct = false) (q : ℚ) : Polynomial N (.product [.number (.exact q), e]) := by
  refine .product (List.cons_ne_nil e _) ?_ ?_ ?_
  · simp [Polynomial.number, h]
  · simp [hflat]
  · simp [hnumber]

theorem withCoefficient_bare (h : Bare N e) (q : ℚ) :
    Polynomial N (withCoefficient (.exact q) e) ∧
      (withCoefficient (.exact q) e).isNumber = false ∧
      ∀ s, (withCoefficient (.exact q) e).valueAt s = q * e.valueAt s := by
  by_cases hq : q = 1
  · simpa [withCoefficient, hq] using ⟨h.polynomial, h.isNumber_eq_false⟩
  · have hone : (Coefficient.exact q).isOne = false := by simpa using hq
    have hmultiple := fun hflat => polynomial_multiple h.polynomial h.isNumber_eq_false hflat q
    cases h.polynomial with
    | number c => cases h.isNumber_eq_false
    | symbol r hx => simpa [withCoefficient, hone, isNumber] using hmultiple rfl
    | sum hne hts => simpa [withCoefficient, hone, isNumber] using hmultiple rfl
    | power hb hbase hn => simpa [withCoefficient, hone, isNumber] using hmultiple rfl
    | @product f fs hne hfs hflat hnumber =>
        have hproduct : Polynomial N (.product (.number (.exact q) :: f :: fs)) := by
          refine .product (List.cons_ne_nil f fs) ?_ ?_ h.number
          · exact List.forall_mem_cons.2 ⟨.number q, hfs⟩
          · exact List.forall_mem_cons.2 ⟨rfl, hflat⟩
        simpa [withCoefficient, hone, isNumber] using hproduct

end Gantry.Algebra.Expr
