import Gantry.Memo.Table
import Gantry.Proofs.Formula.Sameness

/-!
Memo tables seen through their names. A name is an entry's just when it is the
stem followed by the entry's number, and a table that has grown holds what it
held before under the same names.
-/

namespace Gantry.Memo.Table

variable {t u : Table}

/-! ### Names -/

theorem name_inj {i j : Nat} (h : t.name i = t.name j) : i = j := by
  have hdigits : Nat.toDigits 10 i = Nat.toDigits 10 j := by
    have hnumeral : toString i = toString j := (String.append_right_inj t.stem).1 h
    rw [Nat.toString_eq_ofList_toDigits, Nat.toString_eq_ofList_toDigits] at hnumeral
    exact String.ofList_injective hnumeral
  calc i = Nat.ofDigitChars 10 (Nat.toDigits 10 i) 0 := Nat.ofDigitChars_ten_toDigits.symm
    _ = j := by rw [hdigits, Nat.ofDigitChars_ten_toDigits]

theorem afterStem_append (ss cs : List Char) : afterStem ss (ss ++ cs) = some cs := by
  induction ss with
  | nil => rfl
  | cons s ss ih => simpa [afterStem] using ih

theorem index?_eq_some_iff {x : String} {i : Nat} :
    t.index? x = some i ↔ i < t.size ∧ t.name i = x := by
  refine ⟨of_index?_eq_some, ?_⟩
  rintro ⟨hi, rfl⟩
  have hafter : afterStem t.stem.toList (t.name i).toList = some (Nat.toDigits 10 i) := by
    rw [name, String.toList_append, Nat.toString_eq_ofList_toDigits, String.toList_ofList,
      afterStem_append]
  have hdigits : (Nat.toDigits 10 i).all Char.isDigit = true :=
    List.all_eq_true.2 fun c hc => Nat.isDigit_of_mem_toDigits (by decide) (by decide) hc
  have hvalue : (Nat.toDigits 10 i).foldl (fun n c => 10 * n + (c.toNat - 48)) 0 = i := by
    have := Nat.ofDigitChars_ten_toDigits (n := i)
    rwa [Nat.ofDigitChars_eq_foldl] at this
  unfold index?
  rw [hafter]
  cases hcs : Nat.toDigits 10 i with
  | nil => exact absurd hcs Nat.toDigits_ne_nil
  | cons d ds =>
      rw [hcs] at hdigits hvalue
      simp [hdigits, hvalue, hi]

theorem contains_iff {x : String} : t.contains x = true ↔ ∃ i < t.size, t.name i = x := by
  rw [contains, Option.isSome_iff_exists]
  simp only [index?_eq_some_iff]

theorem entry?_eq_some_iff {x : String} {e : Formula} :
    t.entry? x = some e ↔ ∃ i, t.name i = x ∧ t.entries[i]? = some e := by
  unfold entry?
  simp only [bind, Option.bind_eq_some_iff, index?_eq_some_iff]
  constructor
  · rintro ⟨i, ⟨-, hx⟩, he⟩
    exact ⟨i, hx, he⟩
  · rintro ⟨i, hx, he⟩
    obtain ⟨hi, -⟩ := Array.getElem?_eq_some_iff.1 he
    exact ⟨i, ⟨hi, hx⟩, he⟩

theorem lt_size_of_getElem? {i : Nat} {e : Formula} (h : t.entries[i]? = some e) : i < t.size :=
  (Array.getElem?_eq_some_iff.1 h).1

theorem entry?_name {i : Nat} {e : Formula} (h : t.entries[i]? = some e) :
    t.entry? (t.name i) = some e :=
  entry?_eq_some_iff.2 ⟨i, rfl, h⟩

theorem contains_name {i : Nat} (h : i < t.size) : t.contains (t.name i) = true :=
  contains_iff.2 ⟨i, h, rfl⟩

theorem name_ne_of_contains_eq_false {x : String} {i : Nat} (h : t.contains x = false)
    (hi : i < t.size) : t.name i ≠ x := by
  rintro rfl
  cases h.symm.trans (contains_name hi)

theorem entry?_eq_none_iff {x : String} : t.entry? x = none ↔ t.contains x = false := by
  constructor
  · intro h
    by_contra hcontains
    obtain ⟨i, hi, rfl⟩ := contains_iff.1 (Bool.eq_true_of_not_eq_false hcontains)
    have hentry := entry?_name (Array.getElem?_eq_getElem hi)
    exact Option.some_ne_none _ (hentry.symm.trans h)
  · intro h
    cases hentry : t.entry? x with
    | none => rfl
    | some e =>
        obtain ⟨i, rfl, he⟩ := entry?_eq_some_iff.1 hentry
        rw [contains_name (lt_size_of_getElem? he)] at h
        cases h

theorem index?_name {i : Nat} (h : i < t.size) : t.index? (t.name i) = some i :=
  index?_eq_some_iff.2 ⟨h, rfl⟩

/-! ### Growth -/

/-- One table holds the entries of another under their names. -/
structure Extends (t u : Table) : Prop where
  stem : u.stem = t.stem
  entry : ∀ {i : Nat} {e : Formula}, t.entries[i]? = some e → u.entries[i]? = some e

theorem Extends.refl (t : Table) : t.Extends t := ⟨rfl, id⟩

theorem Extends.trans {v : Table} (htu : t.Extends u) (huv : u.Extends v) : t.Extends v :=
  ⟨huv.stem.trans htu.stem, huv.entry ∘ htu.entry⟩

theorem Extends.name (h : t.Extends u) (i : Nat) : u.name i = t.name i := by
  rw [Table.name, Table.name, h.stem]

theorem Extends.size_le (h : t.Extends u) : t.size ≤ u.size := by
  by_contra hlt
  have hlast : u.size < t.entries.size := Nat.lt_of_not_le hlt
  have := lt_size_of_getElem? (h.entry (Array.getElem?_eq_getElem hlast))
  omega

theorem extends_memoize (t : Table) (e : Formula) : t.Extends (t.memoize e).2 := by
  refine ⟨rfl, fun {i a} ha => ?_⟩
  have hi := lt_size_of_getElem? ha
  rw [memoize, Array.getElem?_push_lt hi]
  exact ha ▸ (Array.getElem?_eq_getElem hi).symm

theorem getElem?_memoize_size (t : Table) (e : Formula) :
    (t.memoize e).2.entries[t.size]? = some e := by
  rw [memoize, size, Array.getElem?_push_size]

/-- Cutting off the entries a table has gained leaves those it had. -/
theorem Extends.take_entries (h : t.Extends u) : u.entries.take t.size = t.entries := by
  have hle : t.entries.size ≤ u.entries.size := h.size_le
  refine Array.ext_getElem? fun i => ?_
  rw [Array.take_eq_extract, Array.getElem?_extract, size]
  by_cases hi : i < t.entries.size
  · rw [if_pos (by omega), Nat.zero_add, h.entry (Array.getElem?_eq_getElem hi),
      Array.getElem?_eq_getElem hi]
  · rw [if_neg (by omega), Array.getElem?_eq_none (by omega)]

theorem Extends.entries_prefix (h : t.Extends u) : t.entries.toList <+: u.entries.toList := by
  rw [List.prefix_iff_getElem?]
  intro i hi
  have hentry : t.entries[i]? = some t.entries.toList[i] := by
    rw [← Array.getElem?_toList, List.getElem?_eq_getElem hi]
  rw [Array.getElem?_toList]
  exact h.entry hentry

end Gantry.Memo.Table
