import Gantry.Algebra.Sum
import Gantry.Proofs.Formula.Spelling

/-!
The shape of expressions: properties of all nodes, and what the nodes of an
expression are for its text to be readable. Symbols and functions have names,
and sums have terms; how many operands a function has is another matter.
-/

namespace Gantry.Algebra

/-- A head has a name. -/
def Head.Named : Head → Prop
  | .other name => Formula.isName name = true
  | _ => True

theorem Head.Named.isName {f : Head} (h : f.Named) : Formula.isName f.name = true := by
  cases f with
  | other name => exact h
  | _ => decide

namespace Expr

variable {p : Expr → Prop} {e b : Expr} {es ts fs : List Expr} {c : Coefficient}

/-- The parts of an expression. -/
def children : Expr → List Expr
  | .number _ | .constant _ | .symbol _ _ => []
  | .sum ts => ts
  | .product fs => fs
  | .power b e => [b, e]
  | .apply _ args => args

/-- A property of all nodes of an expression. -/
inductive Everywhere (p : Expr → Prop) : Expr → Prop
  | intro {e : Expr} (node : p e) (children : ∀ c ∈ e.children, Everywhere p c) : Everywhere p e

theorem everywhere_iff : e.Everywhere p ↔ p e ∧ ∀ c ∈ e.children, c.Everywhere p :=
  ⟨fun h => by cases h with | intro node children => exact ⟨node, children⟩, fun h => .intro h.1 h.2⟩

theorem everywhere_number : (number c).Everywhere p ↔ p (number c) := by
  rw [everywhere_iff]
  simp [children]

theorem everywhere_constant {k : NamedConstant} :
    (constant k).Everywhere p ↔ p (constant k) := by
  rw [everywhere_iff]
  simp [children]

theorem everywhere_symbol {x : String} {r : Bool} :
    (symbol x r).Everywhere p ↔ p (symbol x r) := by
  rw [everywhere_iff]
  simp [children]

theorem everywhere_sum : (sum ts).Everywhere p ↔ p (sum ts) ∧ ∀ t ∈ ts, t.Everywhere p :=
  everywhere_iff

theorem everywhere_product :
    (product fs).Everywhere p ↔ p (product fs) ∧ ∀ f ∈ fs, f.Everywhere p :=
  everywhere_iff

theorem everywhere_power :
    (power b e).Everywhere p ↔ p (power b e) ∧ b.Everywhere p ∧ e.Everywhere p := by
  rw [everywhere_iff]
  simp [children]

theorem everywhere_apply {f : Head} :
    (apply f es).Everywhere p ↔ p (apply f es) ∧ ∀ e ∈ es, e.Everywhere p :=
  everywhere_iff

/-! ### Coefficients -/

/-- A property of nodes that numbers and products have. -/
structure Transparent (p : Expr → Prop) : Prop where
  number : ∀ c, p (number c)
  product : ∀ fs, p (product fs)

namespace Transparent

variable (hp : Transparent p)

include hp

theorem everywhere_number : (Expr.number c).Everywhere p := Expr.everywhere_number.2 (hp.number c)

theorem everywhere_product : (Expr.product fs).Everywhere p ↔ ∀ f ∈ fs, f.Everywhere p := by
  rw [Expr.everywhere_product, and_iff_right (hp.product fs)]

theorem everywhere_ofFactors : (ofFactors fs).Everywhere p ↔ ∀ f ∈ fs, f.Everywhere p := by
  unfold ofFactors
  split
  · exact iff_of_true hp.everywhere_number (by simp)
  · simp
  · exact hp.everywhere_product

theorem everywhere_splitCoefficient : e.splitCoefficient.2.Everywhere p ↔ e.Everywhere p := by
  have hnumber (c : Coefficient) : (Expr.number c).Everywhere p := hp.everywhere_number
  unfold splitCoefficient
  split
  · split
    · exact iff_of_true (hnumber _) (hnumber _)
    · rfl
  · split
    · rw [hp.everywhere_ofFactors, hp.everywhere_product, List.forall_mem_cons,
        and_iff_right (hnumber _)]
    · rfl
  · rfl

theorem everywhere_withCoefficient : (withCoefficient c e).Everywhere p ↔ e.Everywhere p := by
  have hnumber (c : Coefficient) : (Expr.number c).Everywhere p := hp.everywhere_number
  unfold withCoefficient
  split
  · rfl
  · split
    · split <;> exact iff_of_true (hnumber _) (hnumber _)
    · rw [hp.everywhere_product, hp.everywhere_product, List.forall_mem_cons,
        and_iff_right (hnumber _)]
    · rw [hp.everywhere_product, List.forall_mem_cons, List.forall_mem_singleton,
        and_iff_right (hnumber _)]

/-- A factor that is a number does not change what the other nodes are. -/
theorem everywhere_scaleTerm : (scaleTerm c e).Everywhere p ↔ e.Everywhere p := by
  unfold scaleTerm
  split
  · exact iff_of_true hp.everywhere_number hp.everywhere_number
  · dsimp only
    rw [hp.everywhere_withCoefficient, hp.everywhere_splitCoefficient]

end Transparent

/-! ### Well-formed expressions -/

/-- What a node is for its text to be readable. -/
def Formed : Expr → Prop
  | .symbol x _ => Formula.isName x = true
  | .sum ts => ts ≠ []
  | .apply f _ => f.Named
  | _ => True

def WellFormed (e : Expr) : Prop := e.Everywhere Formed

theorem transparent_formed : Transparent Formed := ⟨fun _ => trivial, fun _ => trivial⟩

@[simp] theorem wellFormed_number : (number c).WellFormed := everywhere_number.2 trivial

@[simp] theorem wellFormed_constant {k : NamedConstant} : (constant k).WellFormed :=
  everywhere_constant.2 trivial

@[simp] theorem wellFormed_symbol {x : String} {r : Bool} :
    (symbol x r).WellFormed ↔ Formula.isName x = true :=
  everywhere_symbol

@[simp] theorem wellFormed_sum : (sum ts).WellFormed ↔ ts ≠ [] ∧ ∀ t ∈ ts, t.WellFormed :=
  everywhere_sum

@[simp] theorem wellFormed_product : (product fs).WellFormed ↔ ∀ f ∈ fs, f.WellFormed :=
  transparent_formed.everywhere_product

@[simp] theorem wellFormed_power : (power b e).WellFormed ↔ b.WellFormed ∧ e.WellFormed :=
  everywhere_power.trans (and_iff_right trivial)

@[simp] theorem wellFormed_apply {f : Head} :
    (apply f es).WellFormed ↔ f.Named ∧ ∀ e ∈ es, e.WellFormed :=
  everywhere_apply

/-- What is applied is a function of formulas, with as many operands as it takes. -/
def Callable : Expr → Prop
  | .apply f args => Formula.Signature.formulas.Accepts f.name args.length
  | _ => True

theorem transparent_callable : Transparent Callable := ⟨fun _ => trivial, fun _ => trivial⟩

end Expr

end Gantry.Algebra
