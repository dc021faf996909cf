import Mathlib.Algebra.Field.Rat
import Gantry.Proofs.Formula.Replacement
import Gantry.Formula.Evaluation

/-!
Evaluation with the arithmetic left open. The numbers that machines use are one
arithmetic, in which evaluation is what it is anyway; fractions are another,
in which nothing is rounded. Whatever the arithmetic, evaluation sees neither
groups nor variables that do not occur, and replacing variables amounts to
evaluating in another scope.
-/

namespace Gantry

variable {ε α : Type}

/-- What formulas are evaluated with. Operators and functions are looked up
before their operands are evaluated. -/
structure Arithmetic (ε α : Type) where
  literal : Number → Except ε α
  constant : String → Except ε α
  unary : String → Except ε (α → Except ε α)
  binary : String → Except ε (α → α → Except ε α)
  function : String → Except ε (List α → Except ε α)
  /-- Variables that the scope does not hold. -/
  unbound : List String → ε
  /-- A variable that an expression asks for in vain. -/
  absent : String → ε

/-- The arithmetic of machine numbers. -/
def Meaning.arithmetic (M : Meaning) : Arithmetic EvalFailure Operand where
  literal := M.literal
  constant := M.constant
  unary op :=
    match UnaryOp.ofSymbol? op with
    | none => .error (.unknownOperator op)
    | some o => .ok fun a => (o.apply a).mapError .operand
  binary op :=
    match BinaryOp.ofSymbol? op with
    | none => .error (.unknownOperator op)
    | some o => .ok fun a b => (o.apply a b).mapError .operand
  function f := (M.function f).map fun g vs => (g.apply vs).mapError .operand
  unbound := .unbound
  absent := M.unbound

/-- The exact arithmetic of fractions. Quotients by zero and powers that are
not whole have no value; nor have constants and functions, whose values are no
fractions. -/
def Arithmetic.exact : Arithmetic Unit ℚ where
  literal
    | .int k => .ok k
    | .real x => if x.isFinite then .ok (x.units / 2 ^ 1074) else .error ()
  constant _ := .error ()
  unary op :=
    match UnaryOp.ofSymbol? op with
    | none => .error ()
    | some .neg => .ok fun a => .ok (-a)
    | some .pos => .ok fun a => .ok a
  binary op :=
    match BinaryOp.ofSymbol? op with
    | none => .error ()
    | some .add => .ok fun a b => .ok (a + b)
    | some .sub => .ok fun a b => .ok (a - b)
    | some .mul => .ok fun a b => .ok (a * b)
    | some .div => .ok fun a b => if b = 0 then .error () else .ok (a / b)
    | some .pow => .ok fun a b =>
      if b.den = 1 ∧ (a ≠ 0 ∨ 0 ≤ b) then .ok (a ^ b.num) else .error ()
  function _ := .error ()
  unbound _ := ()
  absent _ := ()

namespace Formula

variable {A : Arithmetic ε α} {s t : String → Option α}

mutual

def evaluateOver (A : Arithmetic ε α) (s : String → Option α) : Formula → Except ε α
  | .number n => A.literal n
  | .constant c => A.constant c
  | .variable x =>
    match s x with
    | some v => .ok v
    | none => .error (A.absent x)
  | .group e => e.evaluateOver A s
  | .unary op e => do
    let f ← A.unary op
    let a ← e.evaluateOver A s
    f a
  | .binary op l r => do
    let f ← A.binary op
    let a ← l.evaluateOver A s
    let b ← r.evaluateOver A s
    f a b
  | .call g args => do
    let f ← A.function g
    let vs ← evaluateAllOver A s args
    f vs

def evaluateAllOver (A : Arithmetic ε α) (s : String → Option α) :
    List Formula → Except ε (List α)
  | [] => .ok []
  | e :: es => do
    let v ← e.evaluateOver A s
    let vs ← evaluateAllOver A s es
    return v :: vs

end

theorem arithmetic_unary (M : Meaning) (op : String) :
    M.arithmetic.unary op =
      match UnaryOp.ofSymbol? op with
      | none => .error (.unknownOperator op)
      | some o => .ok fun a => (o.apply a).mapError .operand := rfl

theorem arithmetic_binary (M : Meaning) (op : String) :
    M.arithmetic.binary op =
      match BinaryOp.ofSymbol? op with
      | none => .error (.unknownOperator op)
      | some o => .ok fun a b => (o.apply a b).mapError .operand := rfl

theorem arithmetic_function (M : Meaning) (f : String) :
    M.arithmetic.function f = (M.function f).map fun g vs => (g.apply vs).mapError .operand := rfl

/-- With machine numbers this is evaluation in a scope. -/
theorem evaluateOver_arithmetic (M : Meaning) (s : Scope) (e : Formula) :
    e.evaluateOver M.arithmetic (fun x => s[x]?) = e.evaluateIn M s := by
  induction e with
  | number n => rfl
  | constant c => rfl
  | var x =>
      rw [evaluateOver, evaluateIn]
      cases s[x]? <;> rfl
  | group e ih => exact ih
  | unary op e ih =>
      rw [evaluateOver, evaluateIn, ih, arithmetic_unary]
      cases UnaryOp.ofSymbol? op <;> rfl
  | binary op l r ihl ihr =>
      rw [evaluateOver, evaluateIn, ihl, ihr, arithmetic_binary]
      cases BinaryOp.ofSymbol? op <;> rfl
  | call g args ih =>
      have hargs : evaluateAllOver M.arithmetic (fun x => s[x]?) args = evaluateAllIn M s args := by
        induction args with
        | nil => rfl
        | cons e es ihs =>
            rw [List.forall_mem_cons] at ih
            rw [evaluateAllOver, evaluateAllIn, ih.1, ihs ih.2]
      rw [evaluateOver, evaluateIn, hargs, arithmetic_function]
      cases M.function g <;> rfl

/-! ### What evaluation depends on -/

theorem evaluateAllOver_congr {as bs : List Formula}
    (h : List.Forall₂ (fun a b => a.evaluateOver A s = b.evaluateOver A t) as bs) :
    evaluateAllOver A s as = evaluateAllOver A t bs := by
  induction h with
  | nil => rfl
  | cons hab _ ih => rw [evaluateAllOver, evaluateAllOver, hab, ih]

@[simp] theorem evaluateOver_key (e : Formula) : e.key.evaluateOver A s = e.evaluateOver A s := by
  induction e with
  | number n => rfl
  | constant c => rfl
  | var x => rfl
  | group e ih => exact ih
  | unary op e ih => rw [key, evaluateOver, evaluateOver, ih]
  | binary op l r ihl ihr => rw [key, evaluateOver, evaluateOver, ihl, ihr]
  | call f args ih =>
      rw [key, keyAll_eq, evaluateOver, evaluateOver, evaluateAllOver_congr]
      exact List.forall₂_map_left_iff.2 (List.forall₂_same.2 ih)

theorem evaluateOver_eq_of_key_eq {a b : Formula} (h : a.key = b.key) :
    a.evaluateOver A s = b.evaluateOver A s := by
  rw [← evaluateOver_key a, h, evaluateOver_key]

theorem evaluateOver_replace {e : Formula} {f : String → Option Formula}
    (h : ∀ x ∈ e.occurrences,
      ((f x).getD (.variable x)).evaluateOver A s = (Formula.variable x).evaluateOver A t) :
    (e.replace f).evaluateOver A s = e.evaluateOver A t := by
  induction e with
  | number n => rfl
  | constant c => rfl
  | var x => exact h x (by simp [occurrences])
  | group e ih => exact ih h
  | unary op e ih => rw [replace, evaluateOver, evaluateOver, ih h]
  | binary op l r ihl ihr =>
      simp only [occurrences, List.mem_append, or_imp, forall_and] at h
      rw [replace, evaluateOver, evaluateOver, ihl h.1, ihr h.2]
  | call g args ih =>
      simp only [mem_occurrences_call] at h
      rw [replace, replaceAll_eq, evaluateOver, evaluateOver, evaluateAllOver_congr]
      exact List.forall₂_map_left_iff.2
        (List.forall₂_same.2 fun a ha => ih a ha fun x hx => h x ⟨a, ha, hx⟩)

/-- Only the variables that occur matter. -/
theorem evaluateOver_congr {e : Formula} (h : ∀ x ∈ e.occurrences, s x = t x) :
    e.evaluateOver A s = e.evaluateOver A t := by
  rw [← replace_none e]
  conv_rhs => rw [replace_none e]
  refine evaluateOver_replace fun x hx => ?_
  rw [Option.getD_none, evaluateOver, evaluateOver, h x hx]

/-! ### Values -/

theorem bind_eq_ok_iff {β : Type} {x : Except ε α} {f : α → Except ε β} {v : β} :
    (x >>= f) = .ok v ↔ ∃ a, x = .ok a ∧ f a = .ok v := by
  cases x <;> simp [bind, Except.bind]

theorem evaluateOver_variable_eq_ok_iff {x : String} {v : α} :
    (Formula.variable x).evaluateOver A s = .ok v ↔ s x = some v := by
  rw [evaluateOver]
  cases s x <;> simp

theorem evaluateAllOver_eq_ok_iff {es : List Formula} {vs : List α} :
    evaluateAllOver A s es = .ok vs ↔ List.Forall₂ (fun e v => e.evaluateOver A s = .ok v) es vs := by
  induction es generalizing vs with
  | nil => cases vs <;> simp [evaluateAllOver]
  | cons e es ih =>
      rw [evaluateAllOver, List.forall₂_cons_left_iff]
      simp only [← ih]
      cases he : e.evaluateOver A s <;> cases hes : evaluateAllOver A s es <;>
        simp [bind, Except.bind, pure, Except.pure, eq_comm]

/-- A formula has a value only if whatever its variables are replaced by has
one. -/
theorem exists_of_evaluateOver_replace {e : Formula} {f : String → Option Formula} {v : α}
    (h : (e.replace f).evaluateOver A s = .ok v) {x : String} (hx : x ∈ e.occurrences) :
    ∃ w, ((f x).getD (.variable x)).evaluateOver A s = .ok w := by
  induction e generalizing v with
  | number n => simp [occurrences] at hx
  | constant c => simp [occurrences] at hx
  | var y =>
      rw [occurrences, List.mem_singleton] at hx
      exact ⟨v, hx ▸ h⟩
  | group e ih => exact ih h hx
  | unary op e ih =>
      rw [replace, evaluateOver] at h
      obtain ⟨g, -, h⟩ := bind_eq_ok_iff.1 h
      obtain ⟨a, ha, -⟩ := bind_eq_ok_iff.1 h
      exact ih ha hx
  | binary op l r ihl ihr =>
      rw [replace, evaluateOver] at h
      obtain ⟨g, -, h⟩ := bind_eq_ok_iff.1 h
      obtain ⟨a, ha, h⟩ := bind_eq_ok_iff.1 h
      obtain ⟨b, hb, -⟩ := bind_eq_ok_iff.1 h
      rcases List.mem_append.1 hx with hx | hx
      · exact ihl ha hx
      · exact ihr hb hx
  | call g args ih =>
      rw [replace, replaceAll_eq, evaluateOver] at h
      obtain ⟨o, -, h⟩ := bind_eq_ok_iff.1 h
      obtain ⟨vs, hvs, -⟩ := bind_eq_ok_iff.1 h
      rw [evaluateAllOver_eq_ok_iff, List.forall₂_map_left_iff] at hvs
      obtain ⟨a, ha, hx⟩ := mem_occurrences_call.1 hx
      obtain ⟨i, hi, rfl⟩ := List.getElem_of_mem ha
      exact ih _ ha (hvs.get hi (hvs.length_eq ▸ hi)) hx

end Formula

end Gantry
