import Gantry.Proofs.Memo.Preservation
import Gantry.Proofs.Memo.Invariants

/-!
Optimizing formulas and batches of them. The name a formula is given is that
of an entry, and it stands for the formula wherever references may stand for
nodes. A batch goes through from one formula to the next, or it leaves the
table exactly as it was.
-/

namespace Gantry.Memo.Table

variable {t u T : Table} {L : Number → Prop} {R : Formula → Formula → Prop}
  {p : Nat → Formula → Prop}

/-! ### One formula -/

/-- All that can become of a condensed formula: it is a reference, or its key
is looked up, and it becomes an entry if the key is unknown. -/
theorem rootName_eq (t : Table) (root : Formula) :
    (∃ x, root.key = .variable x ∧ t.contains x = true ∧ t.rootName root = (x, t)) ∨
      (∀ x, root.key = .variable x → t.contains x = false) ∧
        ((∃ x, t.find? root.key = some x ∧ t.rootName root = (x, t)) ∨
          t.find? root.key = none ∧
            t.rootName root = (t.name t.size, (t.memoize root).2)) := by
  by_cases hself : ∃ x, root.key = .variable x ∧ t.contains x = true
  · obtain ⟨x, hx, hcontains⟩ := hself
    exact .inl ⟨x, hx, hcontains, by simp only [rootName, hx, hcontains, if_true]⟩
  · have houtside (x : String) (hx : root.key = .variable x) : t.contains x = false :=
      Bool.eq_false_iff.2 fun hcontains => hself ⟨x, hx, hcontains⟩
    refine .inr ⟨houtside, ?_⟩
    cases hfind : t.find? root.key with
    | some x =>
        refine .inl ⟨x, rfl, ?_⟩
        simp only [rootName, hfind]
        split
        · next y hy => rw [houtside y hy, if_neg Bool.false_ne_true]
        · rfl
    | none =>
        refine .inr ⟨rfl, ?_⟩
        simp only [rootName, hfind]
        split
        · next y hy =>
          rw [houtside y hy, if_neg Bool.false_ne_true]
          rfl
        · rfl

/-- The name of a condensed formula is that of the entry it refers to, of an
entry with its key, or of a new entry. -/
theorem rootName_cases (ht : t.Keyed) (root : Formula) :
    (∃ i a, t.entries[i]? = some a ∧ t.rootName root = (t.name i, t) ∧
        (root.key = .variable (t.name i) ∨ a.key.same root.key = true)) ∨
      t.rootName root = (t.name t.size, (t.memoize root).2) := by
  obtain ⟨x, hx, hcontains, h⟩ | ⟨-, ⟨x, hfind, h⟩ | ⟨-, h⟩⟩ := rootName_eq t root
  · obtain ⟨i, hi, rfl⟩ := contains_iff.1 hcontains
    exact .inl ⟨i, t.entries[i], Array.getElem?_eq_getElem hi, h, .inl hx⟩
  · obtain ⟨i, a, ha, hsame, rfl⟩ := exists_of_find? ht hfind
    exact .inl ⟨i, a, ha, h, .inr hsame⟩
  · exact .inr h

theorem Kept.rootName {P : Table → Prop} (hP : Kept P) (h : P t) (root : Formula) : P (t.rootName root).2 := by
  obtain ⟨x, -, -, hroot⟩ | ⟨-, ⟨x, -, hroot⟩ | ⟨hunknown, hroot⟩⟩ := rootName_eq t root
  · exact hroot ▸ h
  · exact hroot ▸ h
  · exact hroot ▸ hP hunknown h

variable [Stack]

theorem optimizeTree_eq_ok {e : Formula} {x : String} (h : t.optimizeTree e = (.ok x, u)) :
    ∃ root v, t.condense depthLimit e = (some root, v) ∧ v.rootName root = (x, u) := by
  unfold optimizeTree at h
  split at h
  · cases h
  · next root v hroot =>
    cases h
    exact ⟨root, v, hroot, rfl⟩

namespace Kept

variable {P : Table → Prop}

theorem optimizeTree (hP : Kept P) (h : P t) (e : Formula) : P (t.optimizeTree e).2 := by
  have hcondense : P (t.condense depthLimit e).2 := hP.condense h depthLimit e
  unfold Table.optimizeTree
  split
  · next v hv =>
    rw [hv] at hcondense
    exact hcondense
  · next root v hv =>
    rw [hv] at hcondense
    exact hP.rootName hcondense root

end Kept

theorem extends_optimizeTree (ht : t.Keyed) (e : Formula) :
    t.Extends (t.optimizeTree e).2 ∧ (t.optimizeTree e).2.Keyed :=
  (kept_extends t).optimizeTree ⟨.refl t, ht⟩ e

/-- The name a formula is given is that of an entry. -/
theorem exists_entry_optimizeTree (ht : t.Keyed) {e : Formula} {x : String}
    (h : t.optimizeTree e = (.ok x, u)) : ∃ i a, u.entries[i]? = some a ∧ u.name i = x := by
  obtain ⟨root, v, hroot, hname⟩ := optimizeTree_eq_ok h
  obtain ⟨-, hkeyed⟩ := extends_of_condense_eq ht hroot
  obtain ⟨i, a, ha, h, -⟩ | h := rootName_cases hkeyed root
  · cases h.symm.trans hname
    exact ⟨i, a, ha, rfl⟩
  · cases h.symm.trans hname
    exact ⟨v.size, root, getElem?_memoize_size v root, rfl⟩

theorem Hereditary.all_optimizeTree (hp : Hereditary t.stem p) (hkeyed : t.Keyed) (ht : t.All p)
    {e : Formula} {x : String} (he : e.Everywhere (p t.size))
    (h : t.optimizeTree e = (.ok x, u)) : u.All p := by
  obtain ⟨root, v, hroot, hname⟩ := optimizeTree_eq_ok h
  obtain ⟨hv, hnode⟩ := hp.all_condense hkeyed ht he hroot
  obtain ⟨-, hvkeyed⟩ := extends_of_condense_eq hkeyed hroot
  obtain ⟨i, a, -, h, -⟩ | h := rootName_cases hvkeyed root
  · cases h.symm.trans hname
    exact hv
  · cases h.symm.trans hname
    exact all_memoize hv hnode

theorem Respects.optimizeTree (hR : Respects T L R) (ht : t.Keyed) {e : Formula} {x : String}
    (he : ∀ n ∈ e.literals, L n) (h : t.optimizeTree e = (.ok x, u)) (hT : u.Extends T) :
    R (.variable x) e := by
  obtain ⟨root, v, hroot, hname⟩ := optimizeTree_eq_ok h
  obtain ⟨-, hkeyed⟩ := extends_of_condense_eq ht hroot
  obtain ⟨hliterals, hrelated⟩ := hR.condense ht he hroot
  -- The root is a reference, has the key of an entry, or has become an entry itself.
  obtain ⟨i, a, ha, h, hx | hsame⟩ | h := rootName_cases hkeyed root
  · cases h.symm.trans hname
    exact hR.trans (hR.ofKey (by rw [hx, Formula.key]) hliterals) (hrelated hT)
  · cases h.symm.trans hname
    exact hR.trans (hT.name i ▸ hR.entry (hT.entry ha) hsame hliterals) (hrelated hT)
  · cases h.symm.trans hname
    have hadded := hT.entry (getElem?_memoize_size v root)
    have hentry := hR.entry hadded (Formula.same_self _) hliterals
    exact hR.trans (hT.name v.size ▸ hentry) (hrelated ((extends_memoize v root).trans hT))

/-! ### Batches -/

/-- Formulas are added one after the other, up to the one that fails. -/
theorem optimizeTrees_cons (t : Table) (e : Formula) (es : List Formula) :
    t.optimizeTrees (e :: es) =
      match (t.optimizeTree e).1 with
      | .error f => (.error f, (t.optimizeTree e).2)
      | .ok x =>
        (((t.optimizeTree e).2.optimizeTrees es).1.map (x :: ·),
          ((t.optimizeTree e).2.optimizeTrees es).2) := by
  rw [optimizeTrees]
  rcases t.optimizeTree e with ⟨f | x, u⟩
  · rfl
  · dsimp only
    rcases u.optimizeTrees es with ⟨f | xs, v⟩ <;> rfl

theorem Kept.optimizeTrees {P : Table → Prop} (hP : Kept P) (h : P t) (es : List Formula) :
    P (t.optimizeTrees es).2 := by
  induction es generalizing t with
  | nil => exact h
  | cons e es ih =>
      rw [optimizeTrees_cons]
      split
      · exact hP.optimizeTree h e
      · exact ih (hP.optimizeTree h e)

theorem extends_optimizeTrees (ht : t.Keyed) (es : List Formula) :
    t.Extends (t.optimizeTrees es).2 ∧ (t.optimizeTrees es).2.Keyed :=
  (kept_extends t).optimizeTrees ⟨.refl t, ht⟩ es

/-- A batch that goes through is optimized formula by formula. -/
theorem threaded_optimizeTrees (ht : t.Keyed) {es : List Formula} {xs : List String}
    (h : t.optimizeTrees es = (.ok xs, u)) :
    Threaded (fun t e x u => t.Keyed ∧ t.optimizeTree e = (.ok x, u)) t es xs u := by
  induction es generalizing t xs with
  | nil =>
      cases h
      exact .nil _
  | cons e es ih =>
      obtain ⟨htu, hu⟩ := extends_optimizeTree ht e
      rw [optimizeTrees] at h
      split at h
      · cases h
      · next x v hx =>
        rw [hx] at htu hu
        split at h
        · cases h
        · next rest w hrest =>
          cases h
          exact .cons htu ⟨ht, hx⟩ (ih hu hrest)

/-- A batch either fails and leaves the table as it was, or goes through. -/
theorem optimize_cases (ht : t.Keyed) (items : List Item) :
    (∃ f, t.optimize items = (.error f, t)) ∨
      ∃ es xs u, Item.formulas items = .ok es ∧ t.optimizeTrees es = (.ok xs, u) ∧
        t.optimize items = (.ok xs, u) := by
  unfold optimize
  split
  · next f _ => exact .inl ⟨f, rfl⟩
  · next es hes =>
    obtain ⟨htu, hu⟩ := extends_optimizeTrees ht es
    split
    · next xs u h => exact .inr ⟨es, xs, u, hes, h, rfl⟩
    · next f u h =>
      rw [h] at htu hu
      exact .inl ⟨f, by rw [truncate_size htu ht hu]⟩

theorem Kept.optimize {P : Table → Prop} (hP : Kept P) (ht : t.Keyed) (h : P t)
    (items : List Item) : P (t.optimize items).2 := by
  obtain ⟨f, hitems⟩ | ⟨es, xs, u, -, htrees, hitems⟩ := optimize_cases ht items
  · exact hitems ▸ h
  · have hgrown : P (t.optimizeTrees es).2 := hP.optimizeTrees h es
    rw [htrees] at hgrown
    exact hitems ▸ hgrown

theorem extends_optimize (ht : t.Keyed) (items : List Item) :
    t.Extends (t.optimize items).2 ∧ (t.optimize items).2.Keyed :=
  (kept_extends t).optimize ht ⟨.refl t, ht⟩ items

theorem Hereditary.all_optimizeTrees {es : List Formula} {xs : List String}
    (h : Threaded (fun t e x u => t.Keyed ∧ t.optimizeTree e = (.ok x, u)) t es xs u)
    (hp : Hereditary t.stem p) (ht : t.All p) (hes : ∀ e ∈ es, e.Everywhere (p t.size)) :
    u.All p := by
  induction h with
  | nil t => exact ht
  | cons htu hstep _ ih =>
      obtain ⟨he, hes⟩ := List.forall_mem_cons.1 hes
      obtain ⟨hkeyed, hstep⟩ := hstep
      have hu := hp.all_optimizeTree hkeyed ht he hstep
      exact ih (htu.stem ▸ hp) hu fun a ha => hp.everywhere_mono htu.size_le (hes a ha)

end Gantry.Memo.Table
