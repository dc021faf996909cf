import Gantry.Proofs.Memo.Condensation

/-!
What all entries of a table have in common. A property of nodes that may
depend on how many entries there are, and that references to entries have,
passes from the formulas given to a table to all entries made of them.
-/

namespace Gantry.Memo

/-- Whether no variable of a formula looks like the name of an entry. -/
def Plain (stem : String) (e : Formula) : Prop := ∀ i : Nat, stem ++ toString i ∉ e.occurrences

namespace Table

variable {t u : Table} {p : Nat → Formula → Prop}

/-- Every part of an entry has the property for the number of entries before
it. -/
def All (t : Table) (p : Nat → Formula → Prop) : Prop :=
  ∀ ⦃i : Nat⦄ ⦃a : Formula⦄, t.entries[i]? = some a → a.Everywhere (p i)

theorem all_empty (stem : String) : (empty stem).All p :=
  fun i a h => by simp [empty] at h

theorem all_memoize {e : Formula} (ht : t.All p) (he : e.Everywhere (p t.size)) :
    (t.memoize e).2.All p := by
  intro i a ha
  rw [memoize, Array.getElem?_push] at ha
  split at ha
  · next hi =>
    cases ha
    exact hi ▸ he
  · exact ht ha

/-- A property of nodes that looks at nothing below their heads, and that all
references to earlier entries have. -/
structure Hereditary (stem : String) (p : Nat → Formula → Prop) : Prop where
  mono : ∀ {m n e}, m ≤ n → p m e → p n e
  head : ∀ {n e parts}, e.isTrivial = false → parts.length = e.children.length →
    p n e → p n (e.withChildren parts)
  name : ∀ {i n}, i < n → p n (.variable (stem ++ toString i))
  group : ∀ {n e}, p n (.group e)

namespace Hereditary

theorem everywhere_mono {stem : String} (hp : Hereditary stem p) {m n : Nat} {e : Formula}
    (hmn : m ≤ n) (he : e.Everywhere (p m)) : e.Everywhere (p n) :=
  fun part hpart => hp.mono hmn (he part hpart)

theorem everywhere_reference (hp : Hereditary t.stem p) {i n : Nat} (hi : i < n)
    (node : Formula) : (reference node (t.name i)).Everywhere (p n) := by
  have hname : (Formula.variable (t.name i)).Everywhere (p n) :=
    (Formula.everywhere_iff _ _).2 ⟨hp.name hi, by simp [Formula.children]⟩
  unfold reference
  split
  · exact (Formula.everywhere_iff _ _).2 ⟨hp.group, by simpa [Formula.children] using hname⟩
  · exact hname

theorem all_share (hp : Hereditary t.stem p) (hkeyed : t.Keyed) (ht : t.All p)
    {node : Formula} (hnode : node.Everywhere (p t.size)) :
    (t.share node).2.All p ∧ (t.share node).1.Everywhere (p (t.share node).2.size) := by
  obtain ⟨h, -⟩ | ⟨i, a, ha, -, -, -, h⟩ | ⟨-, -, -, h⟩ := share_cases hkeyed node
  · exact h ▸ ⟨ht, hnode⟩
  · exact h ▸ ⟨ht, hp.everywhere_reference (lt_size_of_getElem? ha) node⟩
  · rw [h, size_memoize]
    exact ⟨all_memoize ht hnode, hp.everywhere_reference (Nat.lt_succ_self _) node⟩

/-- The entries made of the parts of a node, and what the parts become. -/
theorem all_threaded {es es' : List Formula}
    (h : Threaded (fun t e e' u => Hereditary t.stem p → t.All p → e.Everywhere (p t.size) →
      u.All p ∧ e'.Everywhere (p u.size)) t es es' u)
    (hp : Hereditary t.stem p) (ht : t.All p) (hes : ∀ e ∈ es, e.Everywhere (p t.size)) :
    u.All p ∧ ∀ e' ∈ es', e'.Everywhere (p u.size) := by
  induction h with
  | nil t => exact ⟨ht, by simp⟩
  | cons htu hstep hrest ih =>
      obtain ⟨he, hes⟩ := List.forall_mem_cons.1 hes
      have hpu := htu.stem ▸ hp
      obtain ⟨hu, he'⟩ := hstep hp ht he
      obtain ⟨hv, hes'⟩ := ih hpu hu fun a ha => hp.everywhere_mono htu.size_le (hes a ha)
      exact ⟨hv, List.forall_mem_cons.2 ⟨hp.everywhere_mono hrest.grows.size_le he', hes'⟩⟩

theorem all_condense (hp : Hereditary t.stem p) (hkeyed : t.Keyed) (ht : t.All p)
    {budget : Nat} {e e' : Formula} (he : e.Everywhere (p t.size))
    (h : t.condense budget e = (some e', u)) : u.All p ∧ e'.Everywhere (p u.size) := by
  revert hp ht he
  refine condense_induction (motive := fun t e e' u => Hereditary t.stem p → t.All p →
    e.Everywhere (p t.size) → u.All p ∧ e'.Everywhere (p u.size)) ?trivial ?node hkeyed h
  case trivial => exact fun t e _ _ ht he => ⟨ht, he⟩
  case node =>
      intro t e parts u htriv hu hthread hp ht he
      obtain ⟨hhead, hchildren⟩ := (Formula.everywhere_iff _ _).1 he
      have hlength := hthread.length_eq
      obtain ⟨hall, hparts⟩ := all_threaded hthread hp ht hchildren
      have hpu : Hereditary u.stem p := hthread.grows.stem ▸ hp
      refine hpu.all_share hu hall ((Formula.everywhere_iff _ _).2 ⟨?_, ?_⟩)
      · exact hp.mono hthread.grows.size_le (hp.head htriv hlength hhead)
      · rw [Formula.children_withChildren htriv hlength]
        exact hparts

end Hereditary

/-! ### Leaves -/

/-- A property of literals, constants and variables. -/
theorem hereditary_of_trivial {stem : String} (mono : ∀ {m n e}, m ≤ n → p m e → p n e)
    (name : ∀ {i n}, i < n → p n (.variable (stem ++ toString i)))
    (node : ∀ {n e}, e.isTrivial = false → p n e) : Hereditary stem p where
  mono := mono
  head htriv hlength _ := node (Formula.isTrivial_withChildren htriv hlength)
  name := name
  group := node rfl

/-- Literals are of one kind, whatever kind that is. -/
def OfLiterals (L : Number → Prop) (e : Formula) : Prop := ∀ n, e = .number n → L n

/-- Whether all literals of all entries are of a kind. -/
def LiteralsIn (t : Table) (L : Number → Prop) : Prop :=
  ∀ ⦃i : Nat⦄ ⦃a : Formula⦄, t.entries[i]? = some a → ∀ n ∈ a.literals, L n

theorem hereditary_ofLiterals (stem : String) (L : Number → Prop) :
    Hereditary stem fun _ => OfLiterals L := by
  refine hereditary_of_trivial (fun _ h => h) (fun _ n hn => by cases hn) ?_
  rintro _ e htriv n rfl
  cases htriv

theorem everywhere_ofLiterals_iff {L : Number → Prop} {e : Formula} :
    e.Everywhere (OfLiterals L) ↔ ∀ n ∈ e.literals, L n := by
  simp only [Formula.mem_literals_iff]
  constructor
  · exact fun h n hn => h _ hn n rfl
  · rintro h part hpart n rfl
    exact h n hpart

/-- References are to the entries before. -/
def Backward (stem : String) (n : Nat) (e : Formula) : Prop :=
  ∀ i, e = .variable (stem ++ toString i) → i < n

theorem hereditary_backward (stem : String) : Hereditary stem (Backward stem) := by
  refine hereditary_of_trivial (fun hmn h i hi => (h i hi).trans_le hmn) ?_ ?_
  · intro i n hi j hj
    have hname : (empty stem).name i = (empty stem).name j := Formula.variable.inj hj
    exact name_inj hname ▸ hi
  · rintro _ e htriv i rfl
    cases htriv

/-- Names that begin otherwise than the stem do not look like entries. -/
theorem plain_of_head? {stem : String} {e : Formula} (hstem : stem ≠ "")
    (h : ∀ x ∈ e.occurrences, stem.toList.head? ≠ x.toList.head?) : Plain stem e := by
  intro i hi
  apply h _ hi
  rw [String.toList_append, List.head?_append_of_ne_nil]
  simpa using hstem

theorem everywhere_backward {stem : String} {e : Formula} (h : Plain stem e) (n : Nat) :
    e.Everywhere (Backward stem n) := by
  rintro part hpart i rfl
  exact absurd ((Formula.mem_occurrences_iff _ e).2 hpart) (h i)

/-- Every entry refers to earlier ones only. -/
def Ordered (t : Table) : Prop :=
  ∀ ⦃i : Nat⦄ ⦃a : Formula⦄, t.entries[i]? = some a →
    ∀ ⦃x : String⦄ ⦃j : Nat⦄, x ∈ a.occurrences → t.index? x = some j → j < i

theorem ordered_of_all (h : t.All (Backward t.stem)) : t.Ordered := by
  intro i a ha x j hx hj
  obtain ⟨-, rfl⟩ := index?_eq_some_iff.1 hj
  exact h ha (.variable (t.name j)) ((Formula.mem_occurrences_iff _ a).1 hx) j rfl

end Table

end Gantry.Memo
