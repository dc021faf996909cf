import Gantry.Proofs.Memo.Expansion

/-!
What the entries of a table look like. Below its root an entry has nothing left
to share: whatever was a call or a group there has been replaced by a reference,
unless the group only surrounds a leaf. With the dictionary of keys and the
order of references this is the invariant that every history keeps.
-/

namespace Gantry.Memo.Table

variable {t u : Table}

/-- A node that may stand below the root of an entry: no call, and a group only
around a literal, a constant or a variable, possibly in further groups. -/
def Inline : Formula → Prop
  | .call _ _ => False
  | .group a => a.key.isTrivial = true
  | _ => True

/-- Below their roots, entries consist of inline nodes. -/
def Flat (t : Table) : Prop :=
  ∀ ⦃i : Nat⦄ ⦃a : Formula⦄, t.entries[i]? = some a → ∀ c ∈ a.children, c.Everywhere Inline

/-- A table as every history leaves it. -/
structure WellFormed (stem : String) (t : Table) : Prop where
  /-- The names are the stem with the numerals from zero on, in this order. -/
  names : t.names = (List.range t.entries.size).map fun i => stem ++ toString i
  /-- Each name stands for the entry of its number. -/
  entry : ∀ {x : String} {a : Formula},
    t.entry? x = some a ↔ ∃ i : Nat, t.entries[i]? = some a ∧ stem ++ toString i = x
  /-- The dictionary has the key of each entry with the name of the entry. -/
  lookups : t.lookups.toList = t.entries.toList.zipIdx.map fun p => (p.1.key, stem ++ toString p.2)
  /-- Different entries have different keys. -/
  distinct : ∀ {i j : Nat} {a b : Formula}, i ≠ j → t.entries[i]? = some a →
    t.entries[j]? = some b → a.key.same b.key = false
  /-- What is found for a key is what the dictionary has for it. -/
  find : ∀ {k : Formula} {x : String},
    t.find? k = some x ↔ ∃ l, (l, x) ∈ t.lookups.toList ∧ l.same k = true
  /-- An entry is found by its own key. -/
  own : ∀ {i : Nat} {a : Formula}, t.entries[i]? = some a →
    t.find? a.key = some (stem ++ toString i)
  flat : t.Flat

theorem wellFormed {stem : String} (hstem : t.stem = stem) (ht : t.Keyed)
    (hflat : t.Flat) : t.WellFormed stem := by
  subst hstem
  refine ⟨rfl, ?entry, ht.lookups, ht.same_eq_false, ?find, ?own, hflat⟩
  case entry =>
      intro x a
      rw [entry?_eq_some_iff]
      exact exists_congr fun i => and_comm
  case find =>
      intro k x
      rw [find?_eq_some_iff ht]
      constructor
      · rintro ⟨i, a, ha, hsame, rfl⟩
        exact ⟨a.key, ht.mem_lookups.2 ⟨i, a, ha, rfl, rfl⟩, hsame⟩
      · rintro ⟨l, hl, hsame⟩
        obtain ⟨i, a, ha, rfl, rfl⟩ := ht.mem_lookups.1 hl
        exact ⟨i, a, ha, hsame, rfl⟩
  case own =>
      intro i a ha
      exact (find?_eq_some_iff ht).2 ⟨i, a, ha, Formula.same_self a.key, rfl⟩

end Gantry.Memo.Table
