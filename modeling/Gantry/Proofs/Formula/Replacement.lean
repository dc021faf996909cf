import Gantry.Proofs.Formula.Sameness

/-!
Replacing variables by formulas, in all places at once. Replacement sees
through groups, and formulas that are the same stay the same under it.
-/

namespace Gantry.Formula

mutual

/-- The formula with `f x` in the place of every variable `x` that has one. -/
def replace (f : String → Option Formula) : Formula → Formula
  | .number n => .number n
  | .constant c => .constant c
  | .variable x => (f x).getD (.variable x)
  | .group e => .group (e.replace f)
  | .unary op e => .unary op (e.replace f)
  | .binary op l r => .binary op (l.replace f) (r.replace f)
  | .call g args => .call g (replaceAll f args)

def replaceAll (f : String → Option Formula) : List Formula → List Formula
  | [] => []
  | e :: es => e.replace f :: replaceAll f es

end

variable {f g : String → Option Formula}

@[simp] theorem replaceAll_eq (es : List Formula) : replaceAll f es = es.map (replace f) := by
  induction es with
  | nil => rfl
  | cons e es ih => rw [replaceAll, ih, List.map_cons]

theorem replace_congr {e : Formula} (h : ∀ x ∈ e.occurrences, f x = g x) :
    e.replace f = e.replace g := by
  induction e with
  | number n => rfl
  | constant c => rfl
  | var x => rw [replace, replace, h x (by simp [occurrences])]
  | group e ih => rw [replace, replace, ih h]
  | unary op e ih => rw [replace, replace, ih h]
  | binary op l r ihl ihr =>
      simp only [occurrences, List.mem_append, or_imp, forall_and] at h
      rw [replace, replace, ihl h.1, ihr h.2]
  | call name args ih =>
      simp only [mem_occurrences_call] at h
      simp only [replace, replaceAll_eq, call.injEq, true_and]
      exact List.map_congr_left fun a ha => ih a ha fun x hx => h x ⟨a, ha, hx⟩

theorem replace_none (e : Formula) : e.replace (fun _ => none) = e := by
  induction e with
  | number n => rfl
  | constant c => rfl
  | var x => rfl
  | group e ih => rw [replace, ih]
  | unary op e ih => rw [replace, ih]
  | binary op l r ihl ihr => rw [replace, ihl, ihr]
  | call name args ih =>
      simp only [replace, replaceAll_eq, call.injEq, true_and]
      exact (List.map_congr_left ih).trans (List.map_id args)

/-- Nothing happens to a formula none of whose variables is replaced. -/
theorem replace_eq_self {e : Formula} (h : ∀ x ∈ e.occurrences, f x = none) :
    e.replace f = e :=
  (replace_congr h).trans (replace_none e)

/-- A literal of the outcome was there before or comes from a replacement. -/
theorem forall_literals_replace {L : Number → Prop} {e : Formula} (he : ∀ n ∈ e.literals, L n)
    (hf : ∀ x a, f x = some a → ∀ n ∈ a.literals, L n) : ∀ n ∈ (e.replace f).literals, L n := by
  induction e with
  | number n => exact he
  | constant c => exact he
  | var x =>
      cases hx : f x with
      | none => simp [replace, hx, literals]
      | some a => simpa [replace, hx] using hf x a hx
  | group e ih => exact ih he
  | unary op e ih => exact ih he
  | binary op l r ihl ihr =>
      simp only [literals, List.mem_append, or_imp, forall_and] at he
      simp only [replace, literals, List.mem_append, or_imp, forall_and]
      exact ⟨ihl he.1, ihr he.2⟩
  | call name args ih =>
      simp only [literals, literalsAll_eq, List.mem_flatMap] at he
      simp only [replace, replaceAll_eq, literals, literalsAll_eq, List.flatMap_map,
        List.mem_flatMap]
      rintro n ⟨a, ha, hn⟩
      exact ih a ha (fun m hm => he m ⟨a, ha, hm⟩) n hn

theorem key_replace (e : Formula) :
    (e.replace f).key = e.key.replace fun x => (f x).map key := by
  induction e with
  | number n => rfl
  | constant c => rfl
  | var x => cases hx : f x <;> simp [replace, key, hx]
  | group e ih => exact ih
  | unary op e ih => simp only [replace, key, ih]
  | binary op l r ihl ihr => simp only [replace, key, ihl, ihr]
  | call name args ih =>
      simp only [replace, replaceAll_eq, key, keyAll_eq, List.map_map, call.injEq, true_and]
      exact List.map_congr_left ih

theorem same_replace {a b : Formula} (h : a.same b = true) :
    (a.replace f).same (b.replace f) = true := by
  refine same_induction ?number ?constant ?var ?group ?unary ?binary ?call h
  case number => exact fun m n h => h
  case constant => simp [replace]
  case var =>
      intro x
      cases hx : f x with
      | none => simp [replace, hx]
      | some c => simp [replace, hx]
  case group => exact fun a b ih => ih
  case unary => exact fun op a b ih => by simpa [replace, same] using ih
  case binary => exact fun op a b c d ihl ihr => by simpa [replace, same] using ⟨ihl, ihr⟩
  case call =>
      intro name as bs ih
      simpa [replace, same, sameAll_iff] using ih

theorem sameKey_replace {a b : Formula} (h : a.sameKey b = true) :
    (a.replace f).sameKey (b.replace f) = true := by
  rw [sameKey, key_replace, key_replace]
  exact same_replace h

end Gantry.Formula
