import Gantry.Proofs.Memo.Invariants
import Gantry.Proofs.Memo.Preservation

/-!
Formulas in which a table has nothing left to replace. A name is settled if no
entry that it stands for, directly or through references, has a part that the
table knows. What a formula has been condensed to only changes in a later table
if the later table knows parts of it, or if it has become an entry itself.
-/

namespace Gantry.Memo.Table

variable {t u T : Table} {x y : String} {a b e r : Formula}

/-! ### Known parts -/

/-- Whether no part of a formula, itself included, is known to a table. -/
def Unknown (t : Table) (e : Formula) : Prop :=
  e.Everywhere fun part => part.isTrivial = false → t.find? part = none

/-- Whether everything below the root of a formula's key is unknown. -/
def Reduced (t : Table) (e : Formula) : Prop := ∀ c ∈ e.key.children, t.Unknown c

/-- The entries that a name stands for: its own, and those they refer to. -/
inductive Uses (t : Table) (x : String) : Formula → Prop
  | entry {a : Formula} : t.entry? x = some a → Uses t x a
  | reference {a b : Formula} {y : String} :
      Uses t x a → y ∈ a.occurrences → t.entry? y = some b → Uses t x b

/-- Whether no entry that a name stands for has a known part. -/
def Settled (t : Table) (x : String) : Prop := ∀ a, t.Uses x a → t.Reduced a

/-- A formula that could be an entry of a settled name. -/
def Steady (t : Table) (e : Formula) : Prop := t.Reduced e ∧ ∀ y ∈ e.occurrences, t.Settled y

theorem unknown_of_isTrivial (h : e.isTrivial = true) : t.Unknown e := by
  refine (Formula.everywhere_iff _ _).2 ⟨fun htriv => ?_, ?_⟩
  · rw [h] at htriv
    cases htriv
  · cases e <;> simp_all [Formula.isTrivial, Formula.children]

theorem uses_of_mem (ha : t.entry? x = some a) (hy : y ∈ a.occurrences) (hb : t.Uses y b) :
    t.Uses x b := by
  induction hb with
  | entry h => exact .reference (.entry ha) hy h
  | reference _ hz h ih => exact .reference ih hz h

theorem exists_entry_of_uses (h : t.Uses x b) :
    ∃ a, t.entry? x = some a ∧ (b = a ∨ ∃ y ∈ a.occurrences, t.Uses y b) := by
  -- The induction takes the last reference off, what is wanted is the first.
  induction h with
  | entry ha => exact ⟨_, ha, .inl rfl⟩
  | reference _ hz hb ih =>
      obtain ⟨a, ha, rfl | ⟨y, hy, hc⟩⟩ := ih
      · exact ⟨_, ha, .inr ⟨_, hz, .entry hb⟩⟩
      · exact ⟨a, ha, .inr ⟨y, hy, .reference hc hz hb⟩⟩

/-- A name is settled just when its entry is steady. -/
theorem settled_iff (ha : t.entry? x = some a) : t.Settled x ↔ t.Steady a := by
  constructor
  · intro h
    exact ⟨h a (.entry ha), fun y hy b hb => h b (uses_of_mem ha hy hb)⟩
  · rintro ⟨hreduced, hsettled⟩ b hb
    obtain ⟨c, hc, rfl | ⟨y, hy, hb⟩⟩ := exists_entry_of_uses hb
    · exact Option.some.inj (hc.symm.trans ha) ▸ hreduced
    · exact hsettled y (Option.some.inj (hc.symm.trans ha) ▸ hy) b hb

theorem settled_of_contains_eq_false (h : t.contains x = false) : t.Settled x := by
  intro b hb
  obtain ⟨a, ha, -⟩ := exists_entry_of_uses hb
  rw [entry?_eq_none_iff.2 h] at ha
  cases ha

/-! ### Formulas with one key -/

theorem Unknown.child {c : Formula} (h : t.Unknown e) (hc : c ∈ e.children) : t.Unknown c :=
  ((Formula.everywhere_iff _ _).1 h).2 c hc

theorem unknown_of_same (h : a.same b = true) (ha : t.Unknown a) : t.Unknown b := by
  refine Formula.everywhere_of_same (fun c d hcd hc htriv => ?_) h ha
  rw [← find?_congr hcd]
  exact hc (Formula.isTrivial_eq_of_same hcd ▸ htriv)

theorem reduced_of_sameKey (h : a.sameKey b = true) (ha : t.Reduced a) : t.Reduced b := by
  intro d hd
  obtain ⟨k, hk, rfl⟩ := List.getElem_of_mem hd
  have hsame := Formula.children_same h
  have hk' : k < a.key.children.length := hsame.length_eq ▸ hk
  exact unknown_of_same (hsame.get hk' hk) (ha _ (List.getElem_mem hk'))

theorem steady_of_sameKey (h : a.sameKey b = true) (ha : t.Steady a) : t.Steady b :=
  ⟨reduced_of_sameKey h ha.1, Formula.occurrences_eq_of_sameKey h ▸ ha.2⟩

theorem steady_of_key_eq (h : a.key = b.key) (ha : t.Steady a) : t.Steady b := by
  refine ⟨?_, ?_⟩
  · rw [Reduced, ← h]
    exact ha.1
  · rw [← Formula.occurrences_key b, ← h, Formula.occurrences_key]
    exact ha.2

/-- A reference is steady just when what it refers to is. -/
theorem steady_of_reference {node : Formula} (ha : t.entry? x = some a)
    (hsame : a.sameKey node = true) (h : t.Steady (reference node x)) : t.Steady node := by
  have hx : x ∈ (reference node x).occurrences := by
    rw [← Formula.occurrences_key, key_reference]
    exact List.mem_singleton_self x
  exact steady_of_sameKey hsame ((settled_iff ha).1 (h.2 x hx))

/-! ### Nodes that stay -/

theorem share_of_isTrivial {node : Formula} (h : node.key.isTrivial = true) :
    t.share node = (node, t) := by
  rw [share, if_pos h]

theorem share_of_find? {node : Formula} (htriv : node.key.isTrivial = false)
    (h : t.find? node.key = some x) : t.share node = (reference node x, t) := by
  rw [share, if_neg (by simp [htriv]), h]

theorem share_of_unknown {node : Formula} (h : t.find? node.key = none)
    (hshared : isShared node = false) : t.share node = (node, t) := by
  rw [share, h]
  simp [hshared]

/-- What a formula has been condensed to is nothing that would be condensed any
further by the same table. -/
def Condensed (t : Table) (r : Formula) : Prop :=
  r.key.isTrivial = true ∨ t.find? r.key = none ∧ isShared r = false

theorem condensed_share (ht : t.Keyed) (node : Formula) :
    (t.share node).2.Condensed (t.share node).1 := by
  have hreference (x : String) : (reference node x).key.isTrivial = true := by
    rw [key_reference]
    rfl
  obtain ⟨h, hkept⟩ | ⟨i, a, -, -, -, -, h⟩ | ⟨-, -, -, h⟩ := share_cases ht node
  · exact h ▸ hkept
  · exact h ▸ .inl (hreference _)
  · exact h ▸ .inl (hreference _)

/-- A later table can only replace it by a reference. -/
theorem share_snd_of_condensed (h : t.Condensed r) (T : Table) : (T.share r).2 = T := by
  obtain htriv | ⟨-, hshared⟩ := h
  · rw [share_of_isTrivial htriv]
  · unfold share
    split
    · rfl
    · split
      · rfl
      · rw [hshared, if_neg Bool.false_ne_true]

/-- The parts of a steady node stay where they are. -/
theorem steady_part {parts : List Formula} (htriv : e.isTrivial = false)
    (hgroup : ∀ a, e ≠ .group a) (hlength : parts.length = e.children.length)
    (h : T.Steady (e.withChildren parts)) {part : Formula} (hpart : part ∈ parts)
    (hcondensed : t.Condensed part) : T.Steady part ∧ T.share part = (part, T) := by
  have hunknown : T.Unknown part.key := by
    refine h.1 _ ?_
    rw [(Formula.key_withChildren htriv hgroup hlength).2]
    exact List.mem_map_of_mem hpart
  refine ⟨⟨fun c hc => hunknown.child hc, fun y hy => h.2 y ?_⟩, ?_⟩
  · exact (Formula.mem_occurrences_withChildren htriv hlength y).2 ⟨part, hpart, hy⟩
  · cases hkey : part.key.isTrivial with
    | true => exact share_of_isTrivial hkey
    | false =>
        obtain hkey' | ⟨-, hshared⟩ := hcondensed
        · rw [hkey] at hkey'
          cases hkey'
        · exact share_of_unknown (((Formula.everywhere_iff _ _).1 hunknown).1 hkey) hshared

end Gantry.Memo.Table
