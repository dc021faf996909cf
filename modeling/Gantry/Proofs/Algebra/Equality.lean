import Mathlib.Data.List.Perm.Basic
import Mathlib.Algebra.BigOperators.Group.List.Basic
import Gantry.Algebra.Sum

/-!
When expressions are equal, and what becomes of parts that are put in order or
collected. Comparison of expressions decides their equality; sorting permutes
them; collecting adds up what belongs to one expression.
-/

namespace Gantry

theorem perm_insertSorted {α : Type} (le : α → α → Bool) (x : α) (ys : List α) :
    (insertSorted le x ys).Perm (x :: ys) := by
  induction ys with
  | nil => exact .refl _
  | cons y ys ih =>
      rw [insertSorted]
      split
      · exact .refl _
      · exact (ih.cons y).trans (.swap x y ys)

theorem perm_sortBy {α : Type} (le : α → α → Bool) (xs : List α) : (sortBy le xs).Perm xs := by
  induction xs with
  | nil => exact .refl _
  | cons x xs ih => exact (perm_insertSorted le x _).trans (ih.cons x)

namespace Algebra.Expr

mutual

theorem beq_self : ∀ e : Expr, beq e e = true
  | .number c => by simp [beq]
  | .constant c => by simp [beq]
  | .symbol x r => by simp [beq]
  | .sum ts => by simpa [beq] using beqAll_self ts
  | .product fs => by simpa [beq] using beqAll_self fs
  | .power b e => by simp [beq, beq_self b, beq_self e]
  | .apply f args => by simpa [beq] using beqAll_self args

theorem beqAll_self : ∀ es : List Expr, beqAll es es = true
  | [] => rfl
  | e :: es => by simp [beqAll, beq_self e, beqAll_self es]

end

mutual

theorem eq_of_beq : ∀ {a b : Expr}, beq a b = true → a = b
  | .number _, b, h => by cases b <;> simp_all [beq]
  | .constant _, b, h => by cases b <;> simp_all [beq]
  | .symbol _ _, b, h => by cases b <;> simp_all [beq]
  | .sum as, .sum bs, h => congrArg Expr.sum (eq_of_beqAll h)
  | .product as, .product bs, h => congrArg Expr.product (eq_of_beqAll h)
  | .power a x, .power b y, h => by
      simp only [beq, Bool.and_eq_true] at h
      rw [eq_of_beq h.1, eq_of_beq h.2]
  | .apply f as, .apply g bs, h => by
      simp only [beq, Bool.and_eq_true, beq_iff_eq] at h
      rw [h.1, eq_of_beqAll h.2]

theorem eq_of_beqAll : ∀ {as bs : List Expr}, beqAll as bs = true → as = bs
  | [], [], _ => rfl
  | a :: as, b :: bs, h => by
      simp only [beqAll, Bool.and_eq_true] at h
      rw [eq_of_beq h.1, eq_of_beqAll h.2]

end

instance : LawfulBEq Expr where
  rfl {e} := beq_self e
  eq_of_beq h := eq_of_beq h

instance : DecidableEq Expr := instDecidableEqOfLawfulBEq

theorem perm_sortParts (es : List Expr) : (sortParts es).Perm es := perm_sortBy _ es

@[simp] theorem mem_sortParts {e : Expr} {es : List Expr} : e ∈ sortParts es ↔ e ∈ es :=
  (perm_sortParts es).mem_iff

/-! ### Collecting -/

variable {κ : Type} [AddCommMonoid κ] {t : Expr} {c : κ} {l : List (Expr × κ)}

/-- Adds `c` to what belongs to `t`. -/
def gather (t : Expr) (c : κ) : List (Expr × κ) → List (Expr × κ)
  | [] => [(t, c)]
  | (s, d) :: rest => if s == t then (s, d + c) :: rest else (s, d) :: gather t c rest

/-- Collects what belongs to the same expression. -/
def gatherAll (ps : List (Expr × κ)) : List (Expr × κ) :=
  ps.foldl (fun acc p => gather p.1 p.2 acc) []

/-- All that belongs to `t`. -/
def total (t : Expr) (l : List (Expr × κ)) : κ := ((l.filter (·.1 == t)).map Prod.snd).sum

@[simp] theorem total_nil (t : Expr) : total t ([] : List (Expr × κ)) = 0 := rfl

theorem total_cons (t : Expr) (p : Expr × κ) (l : List (Expr × κ)) :
    total t (p :: l) = (if p.1 = t then p.2 else 0) + total t l := by
  by_cases h : p.1 = t <;> simp [total, h]

theorem total_append (t : Expr) (l l' : List (Expr × κ)) :
    total t (l ++ l') = total t l + total t l' := by
  simp [total]

theorem total_perm {l l' : List (Expr × κ)} (h : l.Perm l') (t : Expr) : total t l = total t l' :=
  ((h.filter _).map _).sum_eq

theorem total_gather (t s : Expr) (c : κ) (l : List (Expr × κ)) :
    total s (gather t c l) = total s l + if t = s then c else 0 := by
  induction l with
  | nil => simp [gather, total_cons]
  | cons p l ih =>
      obtain ⟨u, d⟩ := p
      rw [gather]
      split
      · obtain rfl : u = t := eq_of_beq ‹_›
        by_cases h : u = s <;> simp [total_cons, h, add_right_comm]
      · rw [total_cons, total_cons, ih, add_assoc]

theorem mem_keys_gather {s : Expr} :
    s ∈ (gather t c l).map Prod.fst ↔ s = t ∨ s ∈ l.map Prod.fst := by
  induction l with
  | nil => simp [gather]
  | cons p l ih =>
      obtain ⟨u, d⟩ := p
      rw [gather]
      split
      · obtain rfl : u = t := eq_of_beq ‹_›
        simp
      · simp only [List.map_cons, List.mem_cons, ih]
        tauto

theorem nodup_keys_gather (h : (l.map Prod.fst).Nodup) : ((gather t c l).map Prod.fst).Nodup := by
  induction l with
  | nil => simp [gather]
  | cons p l ih =>
      obtain ⟨u, d⟩ := p
      rw [List.map_cons, List.nodup_cons] at h
      rw [gather]
      split
      · rw [List.map_cons, List.nodup_cons]
        exact h
      · rename_i hne
        rw [List.map_cons, List.nodup_cons, mem_keys_gather, not_or]
        exact ⟨⟨by simpa using hne, h.1⟩, ih h.2⟩

theorem gatherAll_induction {motive : List (Expr × κ) → Prop} (nil : motive [])
    (ps : List (Expr × κ)) (gather : ∀ p ∈ ps, ∀ acc, motive acc → motive (gather p.1 p.2 acc)) :
    motive (gatherAll ps) := by
  suffices h : ∀ acc, motive acc → motive (ps.foldl (fun acc p => Expr.gather p.1 p.2 acc) acc) from
    h [] nil
  induction ps with
  | nil => exact fun _ h => h
  | cons p ps ih =>
      exact fun acc h => ih (fun q hq => gather q (List.mem_cons_of_mem p hq)) _
        (gather p List.mem_cons_self acc h)

theorem nodup_keys_gatherAll (ps : List (Expr × κ)) : ((gatherAll ps).map Prod.fst).Nodup :=
  gatherAll_induction (motive := fun l => (l.map Prod.fst).Nodup) List.nodup_nil ps
    fun _ _ _ => nodup_keys_gather

theorem total_eq_of_mem (h : (l.map Prod.fst).Nodup) {p : Expr × κ} (hp : p ∈ l) :
    total p.1 l = p.2 := by
  induction l with
  | nil => cases hp
  | cons q l ih =>
      rw [List.map_cons, List.nodup_cons] at h
      rw [total_cons]
      rcases List.mem_cons.1 hp with rfl | hp
      · have hrest : total p.1 l = 0 := by
          rw [total, List.filter_eq_nil_iff.2 fun q hq heq => h.1 ?_]
          · rfl
          · exact eq_of_beq heq ▸ List.mem_map_of_mem hq
        simp [hrest]
      · have hne : q.1 ≠ p.1 := fun heq => h.1 (heq ▸ List.mem_map_of_mem hp)
        rw [if_neg hne, zero_add, ih h.2 hp]

theorem total_gatherAll (t : Expr) (ps : List (Expr × κ)) : total t (gatherAll ps) = total t ps := by
  have hfold : ∀ acc, total t (ps.foldl (fun acc p => gather p.1 p.2 acc) acc) =
      total t acc + total t ps := by
    induction ps with
    | nil => simp
    | cons p ps ih =>
        intro acc
        rw [List.foldl_cons, ih, total_gather, total_cons, add_assoc]
  rw [gatherAll, hfold, total_nil, zero_add]

theorem mem_keys_gatherAll {ps : List (Expr × κ)} {t : Expr}
    (h : t ∈ (gatherAll ps).map Prod.fst) : t ∈ ps.map Prod.fst :=
  gatherAll_induction (motive := fun l => ∀ t ∈ l.map Prod.fst, t ∈ ps.map Prod.fst) (by simp) ps
    (fun p hp acc hacc s hs => by
      rcases mem_keys_gather.1 hs with rfl | hs
      · exact List.mem_map_of_mem hp
      · exact hacc s hs) t h

/-- What is collected for an expression is all that belongs to it. -/
theorem eq_total_of_mem_gatherAll {ps : List (Expr × κ)} {p : Expr × κ} (h : p ∈ gatherAll ps) :
    p.1 ∈ ps.map Prod.fst ∧ p.2 = total p.1 ps := by
  refine ⟨mem_keys_gatherAll (List.mem_map_of_mem h), ?_⟩
  rw [← total_gatherAll, total_eq_of_mem (nodup_keys_gatherAll ps) h]

/-- Terms are collected as their coefficients add up. -/
theorem addTerm_map {coefficient : κ → Coefficient}
    (hadd : ∀ c d, (coefficient c).add (coefficient d) = coefficient (c + d)) (t : Expr) (c : κ)
    (l : List (Expr × κ)) :
    addTerm t (coefficient c) (l.map fun p => (p.1, coefficient p.2)) =
      (gather t c l).map fun p => (p.1, coefficient p.2) := by
  induction l with
  | nil => rfl
  | cons p l ih =>
      obtain ⟨s, d⟩ := p
      simp only [List.map_cons, addTerm, gather]
      split <;> simp [hadd, ih]

end Algebra.Expr

end Gantry
