import Gantry.Proofs.Memo.Selection

/-!
Compiled and direct evaluation agree. As long as literals of the same value
are identical, the entry of a formula's name expands to a formula with the same
values, so an evaluator, if the entries it takes can be written and read,
returns what the formulas it stands for evaluate to in the scope it is given,
and fails just when one of them does.
-/

namespace Gantry.Memo.Table

variable {stem : String} {history : List Batch} {s : Scope}

section

variable [Stack]

/-- The name a formula was given expands to the formula, up to groups. -/
theorem key_expand_of_mem_answered (hplain : ∀ b ∈ history, ∀ e ∈ b.formulas, Plain stem e)
    (hidentical : ∀ m ∈ literals history, ∀ n ∈ literals history, m.same n = true → m = n)
    {e : Formula} {x : String} (h : (e, x) ∈ (empty stem).answered history) :
    (((empty stem).after history).expand (.variable x)).key = e.key := by
  have hsame := sameKey_expand_of_mem_answered hplain h
  have hexpanded : ∀ n ∈ (((empty stem).after history).expand (.variable x)).literals,
      n ∈ literals history :=
    forall_literals_expand (literalsIn_after fun _ hn => hn) (by simp [Formula.literals])
  have he : ∀ n ∈ e.literals, n ∈ literals history :=
    forall_literals_of_mem_answered (fun _ hn => hn) h
  exact Formula.eq_of_same (fun m n hm hn => hidentical m hm n hn) hsame (by simpa using hexpanded)
    (by simpa using he)

theorem operable_after (h : ∀ b ∈ history, ∀ e ∈ b.formulas, e.Everywhere Operable) :
    ((empty stem).after history).All fun _ => Operable :=
  (hereditary_operable stem).all_after (t := empty stem) (keyed_empty stem) (all_empty stem) h

theorem isWorded_after
    (h : ∀ b ∈ history, ∀ e ∈ b.formulas, e.Everywhere fun part => part.isWorded = true) :
    ((empty stem).after history).All fun _ e => e.isWorded = true :=
  (hereditary_isWorded stem).all_after (t := empty stem) (keyed_empty stem) (all_empty stem) h

/-- The formulas of a batch that a table begins with have known names. -/
theorem answered_singleton {b : Batch} {names : List String}
    (hok : ((empty stem).answer b).1 = .ok names) :
    ∃ es, Item.formulas b.items = .ok es ∧ (empty stem).answered [b] = es.zip names ∧
      names.length = es.length ∧ ∀ x ∈ names, ((empty stem).after [b]).contains x = true := by
  obtain ⟨es, hes, hgiven, hlength⟩ := given_eq_zip (keyed_empty stem) hok
  have hanswered : (empty stem).answered [b] = es.zip names := by
    rw [answered, hgiven, answered, List.append_nil]
  refine ⟨es, hes, hanswered, hlength, fun x hx => ?_⟩
  rw [← List.map_snd_zip hlength.le] at hx
  obtain ⟨⟨e, x⟩, htarget, rfl⟩ := List.mem_map.1 hx
  obtain ⟨i, a, ha, rfl⟩ := exists_entry_of_mem_answered (keyed_empty stem) (hanswered ▸ htarget)
  exact contains_name (lt_size_of_getElem? ha)

/-- Nothing but what is written stands in the way of compiling names that formulas were given. -/
theorem compilable_after (hplain : ∀ b ∈ history, ∀ e ∈ b.formulas, Plain stem e)
    (hsize : ((empty stem).after history).size ≠ 0) {names : List String}
    (hknown : ∀ x ∈ names, ((empty stem).after history).contains x = true) :
    ¬((empty stem).after history).Uncompilable (.many names) :=
  not_uncompilable_iff.2 ⟨hsize, ordered_after hplain, hknown⟩

theorem compilable_answer {b : Batch} {names : List String}
    (hplain : ∀ e ∈ b.formulas, Plain stem e) (hsome : names ≠ [])
    (hok : ((empty stem).answer b).1 = .ok names) :
    ¬((empty stem).after [b]).Uncompilable (.many names) := by
  obtain ⟨-, -, -, -, hknown⟩ := answered_singleton hok
  refine compilable_after (by simpa using hplain) ?_ hknown
  obtain ⟨i, hi, -⟩ := contains_iff.1 (hknown _ (List.head_mem hsome))
  omega

end

end Gantry.Memo.Table
