import Gantry.Formula.Value
import Gantry.Proofs.Formula.Arithmetic

/-!
Values outside of formulas, where one that is missing or out of range is a
fault. Arithmetic on values and their conversion to doubles succeed just when
they do for every number in them.
-/

namespace Gantry

/-- A traversal goes through just when every step does. -/
theorem mapM_eq_ok_iff {ε α β : Type} {step : α → Except ε β} {xs : List α} {ys : List β} :
    xs.mapM step = .ok ys ↔ List.Forall₂ (fun x y => step x = .ok y) xs ys := by
  induction xs generalizing ys with
  | nil => cases ys <;> simp [pure, Except.pure]
  | cons x xs ih =>
    simp only [List.mapM_cons, Formula.bind_eq_ok_iff, List.forall₂_cons_left_iff, ih, pure,
      Except.pure, Except.ok.injEq]
    constructor
    · rintro ⟨y, hy, ys, hys, rfl⟩
      exact ⟨y, ys, hy, hys, rfl⟩
    · rintro ⟨y, ys, hy, hys, rfl⟩
      exact ⟨y, hy, ys, hys, rfl⟩

theorem mapM_eq_ok_map {ε α β : Type} {step : α → Except ε β} {g : α → β} {xs : List α}
    (h : ∀ x ∈ xs, step x = .ok (g x)) : xs.mapM step = .ok (xs.map g) :=
  mapM_eq_ok_iff.2 (List.forall₂_map_right_iff.2 (List.forall₂_same.2 h))

namespace Value

variable {v : Value} {vs : List Value} {x : Binary64} {xs : List Binary64}

theorem combine_some_eq_ok_iff {op : Number → Number → Option Number} {p q r : Number} :
    combine op (some p) (some q) = .ok r ↔ op p q = some r := by
  cases h : op p q <;> simp [combine, h]

theorem toReal_eq_ok_iff : v.toReal = .ok x ↔ ∃ p, v = some p ∧ p.toBinary64? = some x := by
  cases v with
  | none => simp [toReal]
  | some p => cases h : p.toBinary64? <;> simp [toReal, h]

theorem toReals_eq_ok_iff :
    toReals vs = .ok xs ↔ List.Forall₂ (fun v x => toReal v = .ok x) vs xs :=
  mapM_eq_ok_iff

theorem toReals_cons_eq_ok_iff : toReals (v :: vs) = .ok xs ↔
    ∃ y ys, v.toReal = .ok y ∧ toReals vs = .ok ys ∧ xs = y :: ys := by
  simp only [toReals_eq_ok_iff, List.forall₂_cons_left_iff]

theorem length_of_toReals (h : toReals vs = .ok xs) : xs.length = vs.length :=
  (toReals_eq_ok_iff.1 h).length_eq.symm

theorem toReals_append {ws : List Value} {ys : List Binary64} (h : toReals vs = .ok xs)
    (h' : toReals ws = .ok ys) : toReals (vs ++ ws) = .ok (xs ++ ys) :=
  toReals_eq_ok_iff.2 (List.rel_append (toReals_eq_ok_iff.1 h) (toReals_eq_ok_iff.1 h'))

theorem length_of_ofOperands {as : List Operand} (h : ofOperands as = .ok xs) :
    xs.length = as.length := by
  rw [length_of_toReals h, List.length_map]

theorem exists_toReals (h : ∀ v ∈ vs, ∃ x, v.toReal = .ok x) : ∃ xs, toReals vs = .ok xs := by
  induction vs with
  | nil => exact ⟨[], rfl⟩
  | cons v vs ih =>
    rw [List.forall_mem_cons] at h
    obtain ⟨x, hx⟩ := h.1
    obtain ⟨xs, hxs⟩ := ih h.2
    exact ⟨x :: xs, toReals_cons_eq_ok_iff.2 ⟨x, xs, hx, hxs, rfl⟩⟩

end Value

end Gantry
