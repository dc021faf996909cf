import Gantry.Proofs.Memo.Table

/-!
Looking up keys. A formula becomes an entry only if its key is unknown, so no
key is there twice, not even in a table that a failing batch has left half way.
The keys and the names they stand for are therefore a dictionary, in which an
entry is found under its own name and under no other, and from which taking the
keys of the last entries leaves what was there before them.
-/

namespace Gantry.Memo.Table

variable {t u : Table} {k l : Formula} {x : String}

/-- The dictionary has the key of each entry with the name of the entry, in
order, and no key is the same as one before it. -/
structure Keyed (t : Table) : Prop where
  lookups : t.lookups.toList = t.entries.toList.zipIdx.map fun p => (p.1.key, t.name p.2)
  distinct : t.lookups.toList.Pairwise fun a b => a.1.same b.1 = false

theorem keyed_empty (stem : String) : (empty stem).Keyed := ⟨by simp [empty], .nil⟩

/-! ### Finding a key -/

theorem Keyed.mem_lookups (ht : t.Keyed) :
    (k, x) ∈ t.lookups.toList ↔ ∃ i a, t.entries[i]? = some a ∧ a.key = k ∧ t.name i = x := by
  simp only [ht.lookups, List.mem_map, Prod.exists, List.mem_zipIdx_iff_getElem?,
    Array.getElem?_toList, Prod.mk.injEq]
  rw [exists_comm]

theorem exists_of_find? (ht : t.Keyed) (h : t.find? k = some x) :
    ∃ i e, t.entries[i]? = some e ∧ e.key.same k = true ∧ x = t.name i := by
  obtain ⟨⟨l, y⟩, hfound, rfl⟩ := Option.map_eq_some_iff.1 h
  have hmem : (l, y) ∈ t.lookups.toList := Array.mem_toList_iff.2 (Array.mem_of_find?_eq_some hfound)
  obtain ⟨i, a, ha, rfl, rfl⟩ := ht.mem_lookups.1 hmem
  exact ⟨i, a, ha, by simpa using Array.find?_some hfound, rfl⟩

theorem find?_eq_none_iff_lookups :
    t.find? k = none ↔ ∀ entry ∈ t.lookups.toList, entry.1.same k = false := by
  simp [find?]

theorem find?_eq_none_iff (ht : t.Keyed) :
    t.find? k = none ↔
      ∀ {i : Nat} {a : Formula}, t.entries[i]? = some a → a.key.same k = false := by
  rw [find?_eq_none_iff_lookups]
  constructor
  · exact fun h i a ha => h _ (ht.mem_lookups.2 ⟨i, a, ha, rfl, rfl⟩)
  · rintro h ⟨l, y⟩ hmem
    obtain ⟨i, a, ha, rfl, rfl⟩ := ht.mem_lookups.1 hmem
    exact h ha

/-- Keys that are the same are found alike. -/
theorem find?_congr (h : k.same l = true) : t.find? k = t.find? l := by
  have hsame (c : Formula) : c.same k = c.same l := by
    rw [Bool.eq_iff_iff]
    exact ⟨fun hc => Formula.same_trans hc h,
      fun hc => Formula.same_trans hc (Formula.same_symm h)⟩
  simp only [find?, hsame]

/-- Adding a formula with an unknown key keeps the dictionary in step. -/
theorem keyed_memoize (ht : t.Keyed) {e : Formula} (hunknown : t.find? e.key = none) :
    (t.memoize e).2.Keyed := by
  constructor
  · rw [memoize, Array.toList_push, Array.toList_push, ht.lookups, List.zipIdx_append,
      List.map_append, size]
    simp [name]
  · rw [memoize, Array.toList_push, List.pairwise_append]
    refine ⟨ht.distinct, List.pairwise_singleton _ _, fun entry hentry added hadded => ?_⟩
    rw [List.mem_singleton.1 hadded]
    exact find?_eq_none_iff_lookups.1 hunknown entry hentry

/-- No two entries have one key. -/
theorem Keyed.same_eq_false (ht : t.Keyed) {i j : Nat} {a b : Formula} (hij : i ≠ j)
    (ha : t.entries[i]? = some a) (hb : t.entries[j]? = some b) : a.key.same b.key = false := by
  have hlt {i j : Nat} {a b : Formula} (hij : i < j) (ha : t.entries[i]? = some a)
      (hb : t.entries[j]? = some b) : a.key.same b.key = false := by
    have hlookup {i : Nat} {a : Formula} (ha : t.entries[i]? = some a) :
        t.lookups.toList[i]? = some (a.key, t.name i) := by
      simp [ht.lookups, ha]
    obtain ⟨hi, hai⟩ := List.getElem?_eq_some_iff.1 (hlookup ha)
    obtain ⟨hj, hbj⟩ := List.getElem?_eq_some_iff.1 (hlookup hb)
    have hpair := List.pairwise_iff_getElem.1 ht.distinct i j hi hj hij
    rwa [hai, hbj] at hpair
  rcases Nat.lt_or_gt_of_ne hij with h | h
  · exact hlt h ha hb
  · rw [Bool.eq_false_iff]
    intro hsame
    exact Bool.false_ne_true ((hlt h hb ha).symm.trans (Formula.same_symm hsame))

/-- A key is found just under the name of the entry that has it. -/
theorem find?_eq_some_iff (ht : t.Keyed) :
    t.find? k = some x ↔
      ∃ i a, t.entries[i]? = some a ∧ a.key.same k = true ∧ x = t.name i := by
  refine ⟨exists_of_find? ht, ?_⟩
  rintro ⟨i, a, ha, hsame, rfl⟩
  cases hfind : t.find? k with
  | none =>
      rw [(find?_eq_none_iff ht).1 hfind ha] at hsame
      cases hsame
  | some y =>
      -- Another entry that is found would have the same key as this one.
      obtain ⟨j, b, hb, hsame', rfl⟩ := exists_of_find? ht hfind
      by_contra hname
      have hij : i ≠ j := fun h => hname (by rw [h])
      have hboth := Formula.same_trans hsame (Formula.same_symm hsame')
      rw [ht.same_eq_false hij ha hb] at hboth
      cases hboth

/-- Tables that hold each other's entries are the same. -/
theorem Extends.antisymm (htu : t.Extends u) (hut : u.Extends t) (ht : t.Keyed) (hu : u.Keyed) :
    t = u := by
  have hentries : t.entries = u.entries := by
    refine Array.ext_getElem? fun i => ?_
    cases ha : t.entries[i]? with
    | some a => exact (htu.entry ha).symm
    | none =>
        cases hb : u.entries[i]? with
        | none => rfl
        | some b => exact ha.symm.trans (hut.entry hb)
  have hlookups : t.lookups = u.lookups := by
    refine Array.toList_inj.1 ?_
    rw [ht.lookups, hu.lookups, hentries]
    simp only [htu.name]
  obtain ⟨stem, entries, lookups⟩ := t
  obtain ⟨stem', entries', lookups'⟩ := u
  obtain rfl : stem = stem' := hut.stem
  obtain rfl : entries = entries' := hentries
  obtain rfl : lookups = lookups' := hlookups
  rfl

/-! ### Forgetting keys -/

/-- A table that grows keeps its dictionary as the beginning of the new one. -/
theorem Extends.lookups_prefix (h : t.Extends u) (ht : t.Keyed) (hu : u.Keyed) :
    t.lookups.toList <+: u.lookups.toList := by
  obtain ⟨rest, hrest⟩ := h.entries_prefix
  rw [ht.lookups, hu.lookups, ← hrest, List.zipIdx_append, List.map_append]
  simp only [h.name]
  exact List.prefix_append _ _

theorem foldl_forget {old new : List (Formula × String)}
    (hdistinct : (old ++ new).Pairwise fun a b => a.1.same b.1 = false) :
    (new.map Prod.fst).foldl forget (old ++ new).toArray = old.toArray := by
  induction new with
  | nil => simp
  | cons entry new ih =>
      -- No old key is the same, so it is the new one that goes.
      have hold : ∀ k ∈ old, k.1.same entry.1 = false := fun k hk =>
        (List.pairwise_append.1 hdistinct).2.2 k hk entry List.mem_cons_self
      have hforget : forget (old ++ entry :: new).toArray entry.1 = (old ++ new).toArray := by
        rw [forget, List.eraseP_toArray, List.eraseP_append_right _ (by simpa using hold),
          List.eraseP_cons_of_pos]
        exact Formula.same_self entry.1
      rw [List.map_cons, List.foldl_cons, hforget]
      refine ih ?_
      exact hdistinct.sublist ((List.Sublist.refl old).append (List.sublist_cons_self entry new))

/-- Taking the keys of the entries that a table has gained out of its dictionary
gives back the dictionary it had. -/
theorem foldl_forget_lookups (hgrows : t.Extends u) (ht : t.Keyed) (hu : u.Keyed) :
    ((u.entries.toList.drop t.size).map Formula.key).foldl forget u.lookups = t.lookups := by
  obtain ⟨new, hnew⟩ := hgrows.lookups_prefix ht hu
  have hkeys {v : Table} (hv : v.Keyed) :
      v.lookups.toList.map Prod.fst = v.entries.toList.map Formula.key := by
    conv_rhs => rw [← List.zipIdx_map_fst 0 v.entries.toList]
    rw [hv.lookups, List.map_map, List.map_map]
    rfl
  have hdropped : (u.entries.toList.drop t.size).map Formula.key = new.map Prod.fst := by
    have hall := hkeys hu
    have hlength : (t.lookups.toList.map Prod.fst).length = t.size := by
      rw [hkeys ht, List.length_map, Array.length_toList, size]
    rw [← hnew, List.map_append] at hall
    rw [List.map_drop, ← hall, ← hlength, List.drop_left]
  have hforget := foldl_forget (hnew.symm ▸ hu.distinct)
  rwa [hnew, ← hdropped] at hforget

/-- Forgetting what a table has gained gives it back. -/
theorem truncate_size (h : t.Extends u) (ht : t.Keyed) (hu : u.Keyed) :
    u.truncate t.size = t := by
  rw [truncate, h.take_entries, foldl_forget_lookups h ht hu, h.stem]

end Gantry.Memo.Table
