import Gantry.Memo.Optimize
import Gantry.Proofs.Memo.Lookup

/-!
What condensing a formula does, whatever the formula: its parts are condensed
one after the other, each in the table the one before has left, and the node
around them is then kept or replaced by a reference to an entry with its key.
Facts about condensing are proved by the induction principle stated here.
-/

namespace Gantry.Memo.Table

/-! ### One node -/

theorem condense_zero (t : Table) (e : Formula) : t.condense 0 e = (none, t) := by rw [condense]

theorem condenseAll_cons (budget : Nat) (t : Table) (e : Formula) (es : List Formula) :
    t.condenseAll budget (e :: es) =
      match (t.condense budget e).1 with
      | none => (none, (t.condense budget e).2)
      | some e' =>
        match ((t.condense budget e).2.condenseAll budget es).1 with
        | none => (none, ((t.condense budget e).2.condenseAll budget es).2)
        | some es' => (some (e' :: es'), ((t.condense budget e).2.condenseAll budget es).2) := by
  rw [condenseAll]
  rcases t.condense budget e with ⟨_ | e', u⟩
  · rfl
  · dsimp only
    rcases u.condenseAll budget es with ⟨_ | es', v⟩ <;> rfl

theorem condenseAll_singleton (budget : Nat) (t : Table) (e : Formula) :
    t.condenseAll budget [e] =
      ((t.condense budget e).1.map fun e' => [e'], (t.condense budget e).2) := by
  rw [condenseAll_cons]
  rcases t.condense budget e with ⟨_ | e', u⟩ <;> rfl

theorem condense_succ (budget : Nat) (t : Table) (e : Formula) :
    t.condense (budget + 1) e =
      if e.isTrivial then (some e, t)
      else
        match (t.condenseAll budget e.children).1 with
        | none => (none, (t.condenseAll budget e.children).2)
        | some parts =>
          let (node, u) := (t.condenseAll budget e.children).2.share (e.withChildren parts)
          (some node, u) := by
  cases e with
  | number n => rw [condense]; rfl
  | constant c => rw [condense]; rfl
  | var x => rw [condense]; rfl
  | group a =>
      rw [condense, Formula.children, condenseAll_singleton]
      rcases t.condense budget a with ⟨_ | a', u⟩ <;> rfl
  | unary op a =>
      rw [condense, Formula.children, condenseAll_singleton]
      rcases t.condense budget a with ⟨_ | a', u⟩ <;> rfl
  | binary op a b =>
      rw [condense, Formula.children, condenseAll_cons, condenseAll_singleton]
      rcases t.condense budget a with ⟨_ | a', u⟩
      · rfl
      · dsimp only
        rcases u.condense budget b with ⟨_ | b', v⟩ <;> rfl
  | call f args =>
      rw [condense, Formula.children]
      rcases t.condenseAll budget args with ⟨_ | parts, u⟩ <;> rfl

/-- All that can become of a node whose parts are condensed. -/
theorem share_cases {t : Table} (ht : t.Keyed) (node : Formula) :
    t.share node = (node, t) ∧
        (node.key.isTrivial = true ∨ t.find? node.key = none ∧ isShared node = false) ∨
      (∃ i a, t.entries[i]? = some a ∧ a.key.same node.key = true ∧
        node.key.isTrivial = false ∧ t.find? node.key = some (t.name i) ∧
        t.share node = (reference node (t.name i), t)) ∨
      (node.key.isTrivial = false ∧ t.find? node.key = none ∧ isShared node = true ∧
        t.share node = (reference node (t.name t.size), (t.memoize node).2)) := by
  unfold share
  cases htriv : node.key.isTrivial with
  | true => exact .inl ⟨rfl, .inl rfl⟩
  | false =>
      cases hfind : t.find? node.key with
      | some x =>
          obtain ⟨i, a, ha, hsame, rfl⟩ := exists_of_find? ht hfind
          exact .inr (.inl ⟨i, a, ha, hsame, rfl, rfl, rfl⟩)
      | none =>
          cases hshared : isShared node with
          | false => exact .inl ⟨rfl, .inr ⟨rfl, rfl⟩⟩
          | true => exact .inr (.inr ⟨rfl, rfl, rfl, rfl⟩)

/-! ### Growth -/

/-- What a table keeps when formulas with unknown keys are added to it. -/
def Kept (P : Table → Prop) : Prop :=
  ∀ ⦃t : Table⦄ ⦃node : Formula⦄, t.find? node.key = none → P t → P (t.memoize node).2

namespace Kept

variable {P : Table → Prop} {t : Table}

theorem share (hP : Kept P) (h : P t) (node : Formula) : P (t.share node).2 := by
  unfold Table.share
  split
  · exact h
  · split
    · exact h
    · next hunknown =>
      split
      · exact hP hunknown h
      · exact h

/-- Condensing only adds formulas with unknown keys, also where it fails. -/
theorem condense (hP : Kept P) (h : P t) (budget : Nat) (e : Formula) :
    P (t.condense budget e).2 := by
  induction budget generalizing t e with
  | zero => exact condense_zero t e ▸ h
  | succ budget ih =>
      have hall (es : List Formula) : P (t.condenseAll budget es).2 := by
        induction es generalizing t with
        | nil => exact h
        | cons e es ihs =>
            rw [condenseAll_cons]
            split
            · exact ih h e
            · split <;> exact ihs (ih h e)
      rw [condense_succ]
      split
      · exact h
      · split
        · exact hall e.children
        · exact hP.share (hall e.children) (e.withChildren _)

end Kept

/-- A table keeps what it holds. -/
theorem kept_extends (t : Table) : Kept fun u => t.Extends u ∧ u.Keyed :=
  fun u node hunknown h => ⟨h.1.trans (extends_memoize u node), keyed_memoize h.2 hunknown⟩

theorem extends_share {t : Table} (ht : t.Keyed) (node : Formula) :
    t.Extends (t.share node).2 ∧ (t.share node).2.Keyed :=
  (kept_extends t).share ⟨.refl t, ht⟩ node

theorem extends_condense {budget : Nat} {t : Table} {e : Formula} (ht : t.Keyed) :
    t.Extends (t.condense budget e).2 ∧ (t.condense budget e).2.Keyed :=
  (kept_extends t).condense ⟨.refl t, ht⟩ budget e

theorem extends_of_condense_eq {budget : Nat} {t u : Table} {e : Formula} {r : Option Formula}
    (ht : t.Keyed) (h : t.condense budget e = (r, u)) : t.Extends u ∧ u.Keyed := by
  have hgrown : t.Extends (t.condense budget e).2 ∧ (t.condense budget e).2.Keyed :=
    extends_condense ht
  rwa [h] at hgrown

/-! ### Levels -/

/-- A formula is condensed just when it has no more levels than are allowed. -/
theorem condense_isSome_iff {budget : Nat} {t : Table} {e : Formula} :
    (t.condense budget e).1.isSome = true ↔ e.depth ≤ budget := by
  induction budget generalizing t e with
  | zero =>
      have hpos := e.depth_pos
      rw [condense_zero]
      simp only [Option.isSome_none, Bool.false_eq_true, false_iff]
      omega
  | succ budget ih =>
      have hall (es : List Formula) :
          (t.condenseAll budget es).1.isSome = true ↔ ∀ c ∈ es, c.depth ≤ budget := by
        induction es generalizing t with
        | nil => simp [condenseAll]
        | cons e es ihs =>
            rw [condenseAll_cons, List.forall_mem_cons, ← ih (t := t),
              ← ihs (t := (t.condense budget e).2)]
            split
            · next h => simp [h]
            · next h => split <;> next h' => simp [h, h']
      rw [condense_succ, Formula.depth_le_succ_iff, ← hall]
      split
      · next htriv => cases e <;> simp_all [Formula.isTrivial, Formula.children, condenseAll]
      · split <;> next h => simp [h]

/-! ### Induction -/

/-- A relation between formulas and what becomes of them, along a list through
which the table is passed on. -/
inductive Threaded {β : Type} (R : Table → Formula → β → Table → Prop) :
    Table → List Formula → List β → Table → Prop
  | nil (t : Table) : Threaded R t [] [] t
  | cons {t u v : Table} {e : Formula} {b : β} {es : List Formula} {bs : List β} :
      t.Extends u → R t e b u → Threaded R u es bs v → Threaded R t (e :: es) (b :: bs) v

namespace Threaded

variable {β : Type} {R : Table → Formula → β → Table → Prop} {t u : Table} {es : List Formula}
  {bs : List β}

theorem grows (h : Threaded R t es bs u) : t.Extends u := by
  induction h with
  | nil t => exact .refl t
  | cons htu _ _ ih => exact htu.trans ih

theorem length_eq (h : Threaded R t es bs u) : bs.length = es.length := by
  induction h with
  | nil t => rfl
  | cons _ _ _ ih => rw [List.length_cons, List.length_cons, ih]

/-- What each step gives between the first table and the last one. -/
theorem forall₂_between {S : β → Formula → Prop} (h : Threaded R t es bs u)
    (hS : ∀ {v e b w}, e ∈ es → t.Extends v → R v e b w → w.Extends u → S b e) :
    List.Forall₂ S bs es := by
  induction h with
  | nil t => exact .nil
  | cons htu hstep hrest ih =>
      refine .cons (hS List.mem_cons_self (.refl _) hstep hrest.grows) (ih ?_)
      exact fun he hv => hS (List.mem_cons_of_mem _ he) (htu.trans hv)

/-- What each step gives of its result, between the first table and the last. -/
theorem forall_mem {p : β → Prop} (h : Threaded R t es bs u)
    (hp : ∀ {v e b w}, e ∈ es → t.Extends v → R v e b w → w.Extends u → p b) :
    ∀ b ∈ bs, p b := by
  have hboth := (h.forall₂_between hp).imp fun b e hb => And.intro hb (trivial : True)
  exact ((List.forall₂_and_left bs es).1 hboth).1

/-- What each step gives for all tables it leads to holds in the last one. -/
theorem forall₂ {S : β → Formula → Prop} {T : Table} (h : Threaded R t es bs u)
    (hT : u.Extends T)
    (hS : ∀ {t e b u}, e ∈ es → R t e b u → u.Extends T → S b e) : List.Forall₂ S bs es :=
  h.forall₂_between fun he _ hstep hgrows => hS he hstep (hgrows.trans hT)

end Threaded

/-- What holds of a condensed formula if it holds of literals, constants and
variables and passes from the parts of a node to the node. -/
theorem condense_induction {motive : Table → Formula → Formula → Table → Prop}
    (trivial : ∀ t e, e.isTrivial = true → motive t e e t)
    (node : ∀ t e parts u, e.isTrivial = false → u.Keyed → Threaded motive t e.children parts u →
      motive t e (u.share (e.withChildren parts)).1 (u.share (e.withChildren parts)).2)
    {budget : Nat} {t u : Table} {e e' : Formula} (ht : t.Keyed)
    (h : t.condense budget e = (some e', u)) : motive t e e' u := by
  induction budget generalizing t u e e' with
  | zero =>
      rw [condense_zero] at h
      cases h
  | succ budget ih =>
      -- The parts of a node, with the table passed on from one to the next.
      have hall {es es' : List Formula} {t u : Table} (ht : t.Keyed)
          (h : t.condenseAll budget es = (some es', u)) :
          u.Keyed ∧ Threaded motive t es es' u := by
        induction es generalizing t es' with
        | nil =>
            cases h
            exact ⟨ht, .nil _⟩
        | cons a es ihs =>
            obtain ⟨htu, hu⟩ : t.Extends (t.condense budget a).2 ∧ (t.condense budget a).2.Keyed :=
              extends_condense ht
            rw [condenseAll_cons] at h
            split at h
            · cases h
            · next a' ha =>
              split at h
              · cases h
              · next rest hrest =>
                cases h
                obtain ⟨hv, hthread⟩ := ihs hu (Prod.ext hrest rfl)
                exact ⟨hv, .cons htu (ih ht (Prod.ext ha rfl)) hthread⟩
      rw [condense_succ] at h
      split at h
      · next htriv =>
        cases h
        exact trivial t e htriv
      · next htriv =>
        split at h
        · cases h
        · next parts hparts =>
          obtain ⟨hu, hthread⟩ := hall ht (Prod.ext hparts rfl)
          cases h
          exact node t e parts _ (Bool.eq_false_iff.2 htriv) hu hthread

end Gantry.Memo.Table
