import Gantry.Proofs.Memo.Condensation

/-!
What condensing preserves. Whatever relates a reference to all nodes with the
key of its entry, and passes from parts to nodes, relates what a formula
becomes to the formula. The literals of the formulas are of a given kind.
-/

namespace Gantry.Memo.Table

variable {t u T : Table} {L : Number → Prop} {R : Formula → Formula → Prop}

/-- A relation between formulas over the names of a table under which the
table's references may stand for nodes of literals in `L`. -/
structure Respects (T : Table) (L : Number → Prop) (R : Formula → Formula → Prop) : Prop where
  trans : ∀ {a b c}, R a b → R b c → R a c
  ofKey : ∀ {a b}, a.key = b.key → (∀ n ∈ b.literals, L n) → R a b
  node : ∀ {e parts}, e.isTrivial = false → parts.length = e.children.length →
    List.Forall₂ R parts e.children → R (e.withChildren parts) e
  entry : ∀ {i a e}, T.entries[i]? = some a → a.key.same e.key = true →
    (∀ n ∈ e.literals, L n) → R (.variable (T.name i)) e

theorem key_reference (node : Formula) (x : String) : (reference node x).key = .variable x := by
  unfold reference
  split <;> rfl

theorem literals_reference (node : Formula) (x : String) : (reference node x).literals = [] := by
  unfold reference
  split <;> rfl

theorem forall_literals_share (ht : t.Keyed) {node : Formula} (hnode : ∀ n ∈ node.literals, L n) :
    ∀ n ∈ (t.share node).1.literals, L n := by
  obtain ⟨h, -⟩ | ⟨i, a, -, -, -, -, h⟩ | ⟨-, -, -, h⟩ := share_cases ht node <;> rw [h]
  · exact hnode
  · simp [literals_reference]
  · simp [literals_reference]

namespace Respects

theorem reference (hR : Respects T L R) {i : Nat} {a node : Formula}
    (ha : T.entries[i]? = some a) (hsame : a.key.same node.key = true)
    (hnode : ∀ n ∈ node.literals, L n) : R (Table.reference node (T.name i)) node :=
  have hname : R (Table.reference node (T.name i)) (.variable (T.name i)) :=
    hR.ofKey (key_reference node _) (by simp [Formula.literals])
  hR.trans hname (hR.entry ha hsame hnode)

theorem share (hR : Respects T L R) (ht : t.Keyed) {node : Formula}
    (hnode : ∀ n ∈ node.literals, L n) :
    (∀ n ∈ (t.share node).1.literals, L n) ∧
      ((t.share node).2.Extends T → R (t.share node).1 node) := by
  refine ⟨forall_literals_share ht hnode, fun hT => ?_⟩
  obtain ⟨h, -⟩ | ⟨i, a, ha, hsame, -, -, h⟩ | ⟨-, -, -, h⟩ := share_cases ht node <;>
    rw [h] at hT ⊢
  · exact hR.ofKey rfl hnode
  · exact hT.name i ▸ hR.reference (hT.entry ha) hsame hnode
  · have hadded := hT.entry (getElem?_memoize_size t node)
    exact hT.name t.size ▸ hR.reference hadded (Formula.same_self _) hnode

theorem condense (hR : Respects T L R) (ht : t.Keyed) {budget : Nat} {e e' : Formula}
    (he : ∀ n ∈ e.literals, L n) (h : t.condense budget e = (some e', u)) :
    (∀ n ∈ e'.literals, L n) ∧ (u.Extends T → R e' e) := by
  revert he
  refine condense_induction (motive := fun _ e e' u => (∀ n ∈ e.literals, L n) →
    (∀ n ∈ e'.literals, L n) ∧ (u.Extends T → R e' e)) ?trivial ?node ht h
  case trivial => exact fun t e _ he => ⟨he, fun _ => hR.ofKey rfl he⟩
  case node =>
      intro t e parts u htriv hu hthread he
      have hlength := hthread.length_eq
      have hchildren (c : Formula) (hc : c ∈ e.children) : ∀ n ∈ c.literals, L n := fun n hn =>
        he n ((Formula.mem_literals_iff_children htriv n).2 ⟨c, hc, hn⟩)
      have hparts := hthread.forall₂ (.refl u)
        (S := fun part c => (∀ n ∈ part.literals, L n) ∧ (u.Extends T → R part c))
        fun hc hstep hgrows =>
          (hstep (hchildren _ hc)).imp_right fun hRT hT => hRT (hgrows.trans hT)
      have hliterals : ∀ n ∈ (e.withChildren parts).literals, L n := by
        intro n hn
        obtain ⟨part, hpart, hn⟩ := (Formula.mem_literals_withChildren htriv hlength n).1 hn
        obtain ⟨i, hi, rfl⟩ := List.getElem_of_mem hpart
        exact (hparts.get hi (hparts.length_eq ▸ hi)).1 n hn
      obtain ⟨hshared, hrelated⟩ := hR.share hu hliterals
      -- The reference stands for the node of the new parts, and that for the node given.
      refine ⟨hshared, fun hT => hR.trans (hrelated hT) (hR.node htriv hlength ?_)⟩
      have hTu := (extends_share hu (e.withChildren parts)).1.trans hT
      exact hparts.imp fun part c h => h.2 hTu

end Respects

end Gantry.Memo.Table
