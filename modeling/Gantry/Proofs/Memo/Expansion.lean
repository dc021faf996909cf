import Gantry.Proofs.Memo.History
import Gantry.Proofs.Formula.Replacement

/-!
Expansion of references. Replacing the names of entries by the entries, and
the names in these likewise, undoes the sharing of subformulas: the name a
formula was given expands to the formula, up to groups, in the table it was
given by and in all later ones.
-/

namespace Gantry.Memo.Table

variable {t T : Table}

/-- Replaces names of entries by the entries down to `n` levels. -/
def expandWithin (t : Table) : Nat → Formula → Formula
  | 0, e => e
  | n + 1, e => e.replace fun x => Option.map (t.expandWithin n) <| t.entry? x

/-- Replaces all names of entries by what these expand to. As many levels as
there are entries are enough. -/
def expand (t : Table) (e : Formula) : Formula := t.expandWithin t.size e

/-! ### All levels -/

/-- References to the first `n` entries are gone after `n` levels. -/
theorem expandWithin_of_le (ht : t.Ordered) {m n : Nat} (hnm : n ≤ m) {e : Formula}
    (he : ∀ x ∈ e.occurrences, ∀ j, t.index? x = some j → j < n) :
    t.expandWithin m e = t.expandWithin n e := by
  induction n generalizing m e with
  | zero =>
      cases m with
      | zero => rfl
      | succ m =>
          rw [expandWithin, expandWithin]
          refine Formula.replace_eq_self fun x hx => ?_
          have hcontains : t.contains x = false := by
            by_contra hcontains
            obtain ⟨j, hj, rfl⟩ := contains_iff.1 (Bool.eq_true_of_not_eq_false hcontains)
            exact Nat.not_lt_zero j (he _ hx j (index?_name hj))
          rw [entry?_eq_none_iff.2 hcontains]
          rfl
  | succ n ih =>
      obtain ⟨m, rfl⟩ := Nat.exists_eq_add_of_le' (Nat.le_of_succ_le hnm)
      cases m with
      | zero => omega
      | succ m =>
          rw [expandWithin, Nat.add_right_comm, expandWithin]
          refine Formula.replace_congr fun x hx => ?_
          cases hentry : t.entry? x with
          | none => rfl
          | some a =>
              obtain ⟨i, rfl, ha⟩ := entry?_eq_some_iff.1 hentry
              have hi : i < n + 1 := he _ hx i (index?_name (lt_size_of_getElem? ha))
              -- References of an entry are to earlier ones, so one level less is enough for it.
              have ha' : ∀ x ∈ a.occurrences, ∀ j, t.index? x = some j → j < n := by
                intro x hx j hj
                have := ht ha hx hj
                omega
              rw [Option.map_some, Option.map_some, ih (by omega) ha']

/-- Expansion replaces each name by the expansion of its entry. -/
theorem expand_eq (ht : t.Ordered) (e : Formula) :
    t.expand e = e.replace fun x => Option.map t.expand <| t.entry? x := by
  have hlt (x : String) (j : Nat) (hj : t.index? x = some j) : j < t.size :=
    (index?_eq_some_iff.1 hj).1
  calc t.expand e = t.expandWithin (t.size + 1) e :=
        (expandWithin_of_le ht (Nat.le_succ _) fun x _ => hlt x).symm
    _ = e.replace fun x => Option.map t.expand <| t.entry? x := rfl

theorem expand_variable (ht : t.Ordered) {i : Nat} {a : Formula} (ha : t.entries[i]? = some a) :
    t.expand (.variable (t.name i)) = t.expand a := by
  rw [expand_eq ht (.variable _), Formula.replace, entry?_name ha]
  rfl

/-- A formula that mentions no entry is its own expansion. -/
theorem expand_eq_self (ht : t.Ordered) {e : Formula}
    (he : ∀ x ∈ e.occurrences, t.contains x = false) : t.expand e = e := by
  rw [expand_eq ht]
  refine Formula.replace_eq_self fun x hx => ?_
  rw [entry?_eq_none_iff.2 (he x hx)]
  rfl

theorem expand_plain (ht : t.Ordered) {e : Formula} (he : Plain t.stem e) : t.expand e = e := by
  refine expand_eq_self ht fun x hx => ?_
  by_contra hcontains
  obtain ⟨i, -, rfl⟩ := contains_iff.1 (Bool.eq_true_of_not_eq_false hcontains)
  exact he i hx

theorem forall_literals_expandWithin {L : Number → Prop} (ht : t.LiteralsIn L) {k : Nat}
    {e : Formula} (he : ∀ n ∈ e.literals, L n) :
    ∀ n ∈ (t.expandWithin k e).literals, L n := by
  induction k generalizing e with
  | zero => exact he
  | succ k ih =>
      rw [expandWithin]
      refine Formula.forall_literals_replace he fun x a ha => ?_
      obtain ⟨b, hb, rfl⟩ := Option.map_eq_some_iff.1 ha
      obtain ⟨i, -, hi⟩ := entry?_eq_some_iff.1 hb
      exact ih (ht hi)

theorem forall_literals_expand {L : Number → Prop} (ht : t.LiteralsIn L) {e : Formula}
    (he : ∀ n ∈ e.literals, L n) : ∀ n ∈ (t.expand e).literals, L n :=
  forall_literals_expandWithin ht he

/-! ### Expansion undoes sharing -/

theorem sameKey_replace_withChildren {f : String → Option Formula} {e : Formula}
    {parts : List Formula} (htriv : e.isTrivial = false)
    (hlength : parts.length = e.children.length)
    (h : List.Forall₂ (fun a b => (a.replace f).sameKey (b.replace f) = true) parts e.children) :
    ((e.withChildren parts).replace f).sameKey (e.replace f) = true := by
  revert h
  refine Formula.withChildren_cases (motive := fun e parts e' =>
    List.Forall₂ (fun a b => (a.replace f).sameKey (b.replace f) = true) parts e.children →
      (e'.replace f).sameKey (e.replace f) = true) ?group ?unary ?binary ?call htriv hlength
  case group =>
      intro a b h
      obtain ⟨hab, -⟩ := List.forall₂_cons.1 h
      exact hab
  case unary =>
      intro op a b h
      obtain ⟨hab, -⟩ := List.forall₂_cons.1 h
      simpa [Formula.sameKey, Formula.replace, Formula.key, Formula.same] using hab
  case binary =>
      intro op a b c d h
      obtain ⟨hac, h⟩ := List.forall₂_cons.1 h
      obtain ⟨hbd, -⟩ := List.forall₂_cons.1 h
      simpa [Formula.sameKey, Formula.replace, Formula.key, Formula.same] using ⟨hac, hbd⟩
  case call =>
      intro g as bs h
      rw [Formula.children] at h
      simpa [Formula.sameKey, Formula.replace, Formula.key, Formula.same, Formula.sameAll_iff,
        List.forall₂_map_left_iff, List.forall₂_map_right_iff] using h

/-- Formulas that are the same up to groups expand alike. -/
theorem sameKey_expand (hT : T.Ordered) {a b : Formula} (h : a.sameKey b = true) :
    (T.expand a).sameKey (T.expand b) = true := by
  rw [expand_eq hT a, expand_eq hT b]
  exact Formula.sameKey_replace h

theorem respects_expand (hT : T.Ordered) :
    Respects T (fun _ => True) fun a b => (T.expand a).sameKey (T.expand b) = true := by
  have hreplace : T.expand = fun e => e.replace fun x => Option.map T.expand <| T.entry? x :=
    funext (expand_eq hT)
  refine ⟨Formula.sameKey_trans, ?ofKey, ?node, ?entry⟩
  case ofKey =>
      intro a b hkey _
      have hexpand : (T.expand a).key = (T.expand b).key := by
        rw [hreplace, Formula.key_replace, Formula.key_replace, hkey]
      rw [Formula.sameKey, hexpand]
      exact Formula.same_self _
  case node =>
      intro e parts htriv hlength h
      rw [hreplace] at h ⊢
      exact sameKey_replace_withChildren htriv hlength h
  case entry =>
      intro i a e ha hsame _
      rw [expand_variable hT ha]
      exact sameKey_expand hT hsame

variable {stem : String} {history : List Batch}

/-- The name a formula was given stands for the formula. -/
theorem sameKey_expand_of_mem_answered [Stack]
    (hplain : ∀ b ∈ history, ∀ e ∈ b.formulas, Plain stem e)
    {e : Formula} {x : String} (h : (e, x) ∈ (empty stem).answered history) :
    (((empty stem).after history).expand (.variable x)).sameKey e = true := by
  have ht := ordered_after hplain
  obtain ⟨⟨b, hb, he⟩, -⟩ := exists_of_mem_answered (keyed_empty stem) h
  have hexpand := (respects_expand ht).answered (keyed_empty stem) (fun _ _ => trivial) h
  have hself : ((empty stem).after history).expand e = e :=
    expand_plain ht (by rw [stem_after]; exact hplain b hb e he)
  rwa [hself] at hexpand

end Gantry.Memo.Table
