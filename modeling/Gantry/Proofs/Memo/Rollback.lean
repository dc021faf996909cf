import Gantry.Proofs.Memo.Expansion

/-!
Batches that fail. A batch fails if a formula of it cannot be read or is nested
too deeply, which may show when earlier formulas, or other parts of the same
one, have already become entries. What was added by then is forgotten: as no key
is there twice, taking the keys of the new entries out of the dictionary leaves
the old one, and later batches cannot tell that the batch was ever tried.
-/

namespace Gantry.Memo.Table

variable {t u : Table} {f : Failure}

/-! ### When a batch fails -/

theorem optimizeTree_eq_error_iff [Stack] {e : Formula} :
    (t.optimizeTree e).1 = .error f ↔ f = .tooDeep ∧ depthLimit < e.depth := by
  have hdepth : (t.condense depthLimit e).1.isSome = true ↔ e.depth ≤ depthLimit :=
    condense_isSome_iff
  rw [← Nat.not_le, ← hdepth, optimizeTree]
  split <;> next h => simp [h, eq_comm]

theorem optimizeTrees_eq_error_iff [Stack] {es : List Formula} :
    (t.optimizeTrees es).1 = .error f ↔ f = .tooDeep ∧ ∃ e ∈ es, depthLimit < e.depth := by
  induction es generalizing t with
  | nil => simp [optimizeTrees]
  | cons e es ih =>
      rw [optimizeTrees_cons, List.exists_mem_cons_iff]
      cases htree : (t.optimizeTree e).1 with
      | error g =>
          obtain ⟨rfl, hdeep⟩ := optimizeTree_eq_error_iff.1 htree
          simp [hdeep, eq_comm]
      | ok x =>
          have hdeep : ¬ depthLimit < e.depth := fun hdeep => by
            have herror := optimizeTree_eq_error_iff (t := t) (f := .tooDeep).2 ⟨rfl, hdeep⟩
            rw [htree] at herror
            cases herror
          rw [or_iff_right hdeep, ← ih (t := (t.optimizeTree e).2)]
          cases ((t.optimizeTree e).2.optimizeTrees es).1 <;> simp [Except.map]

/-- A batch fails just when a formula cannot be read or, if all can, when one of
them is nested too deeply. -/
theorem answer_eq_error_iff [Stack] (ht : t.Keyed) {b : Batch} :
    (t.answer b).1 = .error f ↔
      Item.formulas b.items = .error f ∨
        f = .tooDeep ∧ ∃ es, Item.formulas b.items = .ok es ∧ ∃ e ∈ es, depthLimit < e.depth := by
  rw [answer_eq ht b, optimize]
  cases hread : Item.formulas b.items with
  | error g => simp
  | ok es =>
      have htrees : (t.optimizeTrees es).1 = .error f ↔
          f = .tooDeep ∧ ∃ e ∈ es, depthLimit < e.depth := optimizeTrees_eq_error_iff
      simp only [reduceCtorEq, false_or, Except.ok.injEq, exists_eq_left']
      rw [← htrees]
      rcases t.optimizeTrees es with ⟨g | xs, grown⟩ <;> rfl

/-! ### Failed batches -/

section

variable [Stack]

theorem answer_of_error (ht : t.Keyed) {b : Batch} (h : (t.answer b).1 = .error f) :
    t.answer b = (.error f, t) := by
  obtain ⟨g, hg⟩ | ⟨es, xs, v, -, hok, -⟩ := answer_cases ht b
  · rw [hg] at h
    cases h
    exact hg
  · rw [hok] at h
    cases h

end

/-- Groups one level deeper than can be walked. -/
def nested : Formula := Formula.group^[depthLimit] (.variable "x")

/-- A batch that fails after its first formula has become an entry. -/
def nesting : Batch := .listed [.tree (.call "exp" [.variable "y"]), .tree nested]

end Gantry.Memo.Table
