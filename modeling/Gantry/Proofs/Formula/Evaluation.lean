import Gantry.Proofs.Formula.Replacement
import Gantry.Formula.Evaluation

/-!
What the value of a formula depends on. Evaluation sees neither groups nor
variables that do not occur, replacing variables amounts to evaluating in
another scope, and a formula has a value only if everything in it has one.
A compiled evaluator gives formulas of finite literals the values they have.
-/

namespace Gantry

/-- Whether a number is neither infinite nor not-a-number. -/
def Number.isFinite : Number → Bool
  | .int _ => true
  | .real x => x.isFinite

theorem Number.isNaN_eq_false_of_isFinite {n : Number} (h : n.isFinite = true) :
    n.isNaN = false := by
  cases n with
  | int k => rfl
  | real x =>
      simp only [isFinite, Binary64.isFinite, decide_eq_true_eq] at h
      simp only [isNaN, Binary64.isNaN, decide_eq_false_iff_not]
      omega

@[simp] theorem mapError_eq_ok_iff {ε ε' α : Type} {f : ε → ε'} {x : Except ε α} {v : α} :
    x.mapError f = .ok v ↔ x = .ok v := by
  cases x <;> simp [Except.mapError]

@[simp] theorem toOption_eq_some_iff {ε α : Type} {x : Except ε α} {v : α} :
    x.toOption = some v ↔ x = .ok v := by
  cases x <;> simp [Except.toOption]

namespace Formula

variable {M : Meaning} {s : Scope}

/-! ### Successful evaluation, node by node -/

theorem evaluateIn_variable_eq_ok_iff {x : String} {v : Operand} :
    (Formula.variable x).evaluateIn M s = .ok v ↔ s[x]? = some v := by
  rw [evaluateIn]
  cases s[x]? <;> simp

theorem evaluateIn_unary_eq_ok_iff {op : String} {e : Formula} {v : Operand} :
    (Formula.unary op e).evaluateIn M s = .ok v ↔
      ∃ o a, UnaryOp.ofSymbol? op = some o ∧ e.evaluateIn M s = .ok a ∧ o.apply a = .ok v := by
  rw [evaluateIn]
  cases UnaryOp.ofSymbol? op with
  | none => simp
  | some o => cases e.evaluateIn M s <;> simp [bind, Except.bind]

theorem evaluateIn_binary_eq_ok_iff {op : String} {l r : Formula} {v : Operand} :
    (Formula.binary op l r).evaluateIn M s = .ok v ↔
      ∃ o a b, BinaryOp.ofSymbol? op = some o ∧ l.evaluateIn M s = .ok a ∧
        r.evaluateIn M s = .ok b ∧ o.apply a b = .ok v := by
  rw [evaluateIn]
  cases BinaryOp.ofSymbol? op with
  | none => simp
  | some o => cases l.evaluateIn M s <;> cases r.evaluateIn M s <;> simp [bind, Except.bind]

theorem evaluateIn_call_eq_ok_iff {f : String} {args : List Formula} {v : Operand} :
    (Formula.call f args).evaluateIn M s = .ok v ↔
      ∃ g vs, M.function f = .ok g ∧ evaluateAllIn M s args = .ok vs ∧ g.apply vs = .ok v := by
  rw [evaluateIn]
  cases M.function f <;> cases evaluateAllIn M s args <;> simp [bind, Except.bind]

theorem evaluateAllIn_eq_ok_iff {es : List Formula} {vs : List Operand} :
    evaluateAllIn M s es = .ok vs ↔ List.Forall₂ (fun e v => e.evaluateIn M s = .ok v) es vs := by
  induction es generalizing vs with
  | nil => cases vs <;> simp [evaluateAllIn]
  | cons e es ih =>
      rw [evaluateAllIn, List.forall₂_cons_left_iff]
      simp only [← ih]
      cases he : e.evaluateIn M s <;> cases hes : evaluateAllIn M s es <;>
        simp [bind, Except.bind, pure, Except.pure, eq_comm]

/-! ### What evaluation depends on -/

theorem evaluateAllIn_congr {t : Scope} {as bs : List Formula}
    (h : List.Forall₂ (fun a b => a.evaluateIn M s = b.evaluateIn M t) as bs) :
    evaluateAllIn M s as = evaluateAllIn M t bs := by
  induction h with
  | nil => rfl
  | cons hab _ ih => rw [evaluateAllIn, evaluateAllIn, hab, ih]

/-- Groups are transparent. -/
@[simp] theorem evaluateIn_key (e : Formula) : e.key.evaluateIn M s = e.evaluateIn M s := by
  induction e with
  | number n => rfl
  | constant c => rfl
  | var x => rfl
  | group e ih => exact ih
  | unary op e ih => rw [key, evaluateIn, evaluateIn, ih]
  | binary op l r ihl ihr => rw [key, evaluateIn, evaluateIn, ihl, ihr]
  | call f args ih =>
      rw [key, keyAll_eq, evaluateIn, evaluateIn, evaluateAllIn_congr]
      exact List.forall₂_map_left_iff.2 (List.forall₂_same.2 ih)

theorem evaluate_eq_of_key_eq {a b : Formula} (h : a.key = b.key) :
    a.evaluate s = b.evaluate s := by
  rw [evaluate, evaluate, ← evaluateIn_key a, h, evaluateIn_key]

/-- Replacing variables amounts to evaluating in a scope that holds the values
of their replacements. -/
theorem evaluateIn_replace {t : Scope} {e : Formula} {f : String → Option Formula}
    (h : ∀ x ∈ e.occurrences,
      ((f x).getD (.variable x)).evaluateIn M s = (Formula.variable x).evaluateIn M t) :
    (e.replace f).evaluateIn M s = e.evaluateIn M t := by
  induction e with
  | number n => rfl
  | constant c => rfl
  | var x => exact h x (by simp [occurrences])
  | group e ih => exact ih h
  | unary op e ih => rw [replace, evaluateIn, evaluateIn, ih h]
  | binary op l r ihl ihr =>
      simp only [occurrences, List.mem_append, or_imp, forall_and] at h
      rw [replace, evaluateIn, evaluateIn, ihl h.1, ihr h.2]
  | call g args ih =>
      simp only [mem_occurrences_call] at h
      rw [replace, replaceAll_eq, evaluateIn, evaluateIn, evaluateAllIn_congr]
      exact List.forall₂_map_left_iff.2
        (List.forall₂_same.2 fun a ha => ih a ha fun x hx => h x ⟨a, ha, hx⟩)

/-- Only the variables that occur matter. -/
theorem evaluateIn_congr {t : Scope} {e : Formula} (h : ∀ x ∈ e.occurrences, s[x]? = t[x]?) :
    e.evaluateIn M s = e.evaluateIn M t := by
  rw [← replace_none e]
  conv_rhs => rw [replace_none e]
  refine evaluateIn_replace fun x hx => ?_
  rw [Option.getD_none, evaluateIn, evaluateIn, h x hx]

/-- A formula has a value only if whatever its variables are replaced by has
one. -/
theorem exists_of_evaluateIn_replace {e : Formula} {f : String → Option Formula} {v : Operand}
    (h : (e.replace f).evaluateIn M s = .ok v) {x : String} (hx : x ∈ e.occurrences) :
    ∃ w, ((f x).getD (.variable x)).evaluateIn M s = .ok w := by
  induction e generalizing v with
  | number n => simp [occurrences] at hx
  | constant c => simp [occurrences] at hx
  | var y =>
      rw [occurrences, List.mem_singleton] at hx
      exact ⟨v, hx ▸ h⟩
  | group e ih => exact ih h hx
  | unary op e ih =>
      obtain ⟨o, a, -, ha, -⟩ := evaluateIn_unary_eq_ok_iff.1 h
      exact ih ha hx
  | binary op l r ihl ihr =>
      obtain ⟨o, a, b, -, ha, hb, -⟩ := evaluateIn_binary_eq_ok_iff.1 h
      rcases List.mem_append.1 hx with hx | hx
      · exact ihl ha hx
      · exact ihr hb hx
  | call g args ih =>
      obtain ⟨o, vs, -, hvs, -⟩ := evaluateIn_call_eq_ok_iff.1 h
      rw [replaceAll_eq, evaluateAllIn_eq_ok_iff, List.forall₂_map_left_iff] at hvs
      obtain ⟨a, ha, hx⟩ := mem_occurrences_call.1 hx
      obtain ⟨i, hi, rfl⟩ := List.getElem_of_mem ha
      exact ih _ ha (hvs.get hi (hvs.length_eq ▸ hi)) hx

/-! ### Compiled evaluation -/

theorem compiled_constant_eq_ok_iff {c : String} {v : Operand} :
    Meaning.compiled.constant c = .ok v ↔ Meaning.direct.constant c = .ok v := by
  simp only [Meaning.compiled, Meaning.direct]
  cases constant? c <;> simp

theorem compiled_function_eq_ok_iff {f : String} {g : Function} :
    Meaning.compiled.function f = .ok g ↔ Meaning.direct.function f = .ok g := by
  simp only [Meaning.compiled, Meaning.direct]
  cases Function.ofName? f <;> simp

/-- Compiled and direct evaluation give the same values; where there is none
they may name another cause. -/
theorem evaluateIn_compiled_eq_ok_iff {e : Formula} {v : Operand}
    (h : ∀ n ∈ e.literals, n.isFinite = true) :
    e.evaluateIn Meaning.compiled s = .ok v ↔ e.evaluate s = .ok v := by
  rw [evaluate]
  induction e generalizing v with
  | number n =>
      have hn : n.isFinite = true := h n (by simp [literals])
      cases n with
      | int k => rfl
      | real x =>
          have hx : x.isFinite = true := hn
          simp [evaluateIn, Meaning.compiled, Meaning.direct, hx]
  | constant c => exact compiled_constant_eq_ok_iff
  | var x => simp only [evaluateIn_variable_eq_ok_iff]
  | group e ih => exact ih h
  | unary op e ih => simp only [evaluateIn_unary_eq_ok_iff, ih h]
  | binary op l r ihl ihr =>
      simp only [literals, List.mem_append, or_imp, forall_and] at h
      simp only [evaluateIn_binary_eq_ok_iff, ihl h.1, ihr h.2]
  | call f args ih =>
      simp only [literals, literalsAll_eq, List.mem_flatMap] at h
      have hargs (vs : List Operand) : evaluateAllIn Meaning.compiled s args = .ok vs ↔
          evaluateAllIn Meaning.direct s args = .ok vs := by
        simp only [evaluateAllIn_eq_ok_iff]
        exact forall₂_congr_of_mem fun a ha w => ih a ha fun n hn => h n ⟨a, ha, hn⟩
      simp only [evaluateIn_call_eq_ok_iff, compiled_function_eq_ok_iff, hargs]

end Formula

end Gantry
