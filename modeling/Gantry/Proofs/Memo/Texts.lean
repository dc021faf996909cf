import Gantry.Proofs.Formula.Literals
import Gantry.Proofs.Memo.Agreement
import Gantry.Proofs.Memo.Reoptimization
import Gantry.Proofs.Memo.Sharing

/-!
What the texts of entries say. If all formulas that a table is given were read, the text of each
entry is read as the entry, and stands for the formulas that were given its name. Only where a
literal beyond the range of doubles is written is another formula read.
-/

namespace Gantry.Memo.Table

open Formula (isName isNamePart numberValue? tokenize parse parseWith Legible IsRead
  Recovers)

variable {stem x : String} {history : List Batch} {e : Formula}

/-! ### Entries can be read -/

/-- The names of entries are names of formulas, if the stem is. -/
theorem isName_append_toString (h : isName stem = true) (i : Nat) :
    isName (stem ++ toString i) = true :=
  Formula.isName_append h
    (List.all_eq_true.2 fun _ => Formula.isNamePart_of_mem_toString)

/-- Names of entries end in a digit, which no constant does. -/
theorem constant?_append_toString (stem : String) (i : Nat) :
    constant? (stem ++ toString i) = none := by
  have hlast : ∀ c ∈ (stem ++ toString i).toList.getLast?, c.isDigit = true := by
    have hne : (toString i).toList ≠ [] := by
      rw [Nat.toString_eq_ofList_toDigits, String.toList_ofList]
      exact Nat.toDigits_ne_nil
    intro c hc
    rw [String.toList_append, List.getLast?_append_of_ne_nil _ hne] at hc
    exact Formula.isDigit_of_mem_toString (List.mem_of_getLast? hc)
  unfold constant?
  split
  · next h => exact absurd (hlast 'i' (by rw [h]; rfl)) (by decide)
  · next h => exact absurd (hlast 'E' (by rw [h]; rfl)) (by decide)
  · rfl

theorem hereditary_legible (hstem : isName stem = true) : Hereditary stem fun _ => Legible where
  mono _ h := h
  head htriv hlength h := by
    revert h
    refine Formula.withChildren_cases (motive := fun e parts e' =>
      parts.length = e.children.length → Legible e → Legible e') ?_ ?_ ?_ ?_ htriv hlength hlength
    · exact fun _ _ _ h => h
    · exact fun _ _ _ _ h => h
    · exact fun _ _ _ _ _ _ h => h
    · exact fun f as bs hlength h => h.trans (congrArg some hlength.symm)
  name _ := ⟨isName_append_toString hstem _, constant?_append_toString stem _⟩
  group := trivial

theorem operable_of_legible (h : Legible e) : Operable e := by
  cases e <;> trivial

/-- Known constants and functions are named by words. -/
theorem isWorded_of_legible (h : Legible e) : e.isWorded = true := by
  cases e with
  | constant c => exact Formula.all_isNamePart_of_isName (Formula.isName_of_constant? h)
  | call f args =>
      obtain ⟨g, hg, -⟩ := Option.map_eq_some_iff.1 h
      exact Formula.all_isNamePart_of_isName (Formula.isName_of_ofName? hg)
  | _ => rfl

theorem brief_of_isRead (h : ∀ n ∈ e.literals, IsRead n) : e.Brief := fun k hk => by
  obtain ⟨hnonneg, hlt⟩ := h _ hk
  zify
  rwa [abs_of_nonneg hnonneg]

section

variable (hread : ∀ b ∈ history, ∀ e ∈ b.formulas, ∃ s, parse s = .ok e)

include hread

theorem legible_of_read {b : Batch} (hb : b ∈ history) (he : e ∈ b.formulas) :
    e.Everywhere Legible := by
  obtain ⟨s, hs⟩ := hread b hb e he
  exact (Formula.legible_of_parse hs).1

variable [Stack]

theorem isRead_after : ((empty stem).after history).LiteralsIn IsRead := by
  refine literalsIn_after fun n hn => ?_
  obtain ⟨b, hb, hn⟩ := List.mem_flatMap.1 hn
  obtain ⟨e, he, hn⟩ := List.mem_flatMap.1 hn
  obtain ⟨s, hs⟩ := hread b hb e he
  exact (Formula.legible_of_parse hs).2 n hn

/-- Entries made of formulas that were read come back from their texts. -/
theorem recovers_entry (hstem : isName stem = true) {i : Nat}
    (h : ((empty stem).after history).entries[i]? = some e) : e.Recovers := by
  have hlegible : ((empty stem).after history).All fun _ => Legible :=
    (hereditary_legible hstem).all_after (t := empty stem) (keyed_empty stem) (all_empty stem)
      fun b hb e he => legible_of_read hread hb he
  exact Formula.recovers_of_legible (hlegible h) (isRead_after hread h)

/-- Nothing but the brackets it takes to write them stands in the way of compiling names that
formulas that were read were given. -/
theorem compiles_of_read {targets : Targets}
    (h : ¬((empty stem).after history).Uncompilable targets) :
    ((∃ a, ((empty stem).after history).Covers targets a ∧ Code.bracketLimit < a.nesting) ∧
        ((empty stem).after history).compile targets = .error .unreadable) ∨
      (∀ a, ((empty stem).after history).Covers targets a → a.nesting ≤ Code.bracketLimit) ∧
        ∃ ev, ((empty stem).after history).compile targets = .ok ev := by
  have hoperators : ((empty stem).after history).All fun _ => Operable :=
    operable_after fun b hb e he part hpart =>
      operable_of_legible (legible_of_read hread hb he part hpart)
  have hwords : ((empty stem).after history).All fun _ e => e.isWorded = true :=
    isWorded_after fun b hb e he part hpart =>
      isWorded_of_legible (legible_of_read hread hb he part hpart)
  obtain ⟨⟨a, ⟨x, -, ha⟩, hlong⟩, -⟩ | ⟨-, hdeep | ⟨hroom, ev, hev, -⟩⟩ :=
    compiles_of_compilable hoperators hwords h
  · obtain ⟨i, -, ha⟩ := entry?_eq_some_iff.1 ha
    exact absurd (brief_of_isRead (isRead_after hread ha)) hlong
  · exact .inl hdeep
  · exact .inr ⟨hroom, ev, hev⟩

end

/-- The text of the entry of a name stands for the formulas that were given the name. -/
theorem exists_entry_readBack [Stack] (hstem : isName stem = true)
    (hread : ∀ b ∈ history, ∀ e ∈ b.formulas, ∃ s, parse s = .ok e)
    (hplain : ∀ b ∈ history, ∀ e ∈ b.formulas, Plain stem e)
    (hfinite : ∀ n ∈ literals history, n.isFinite = true)
    (h : (e, x) ∈ (empty stem).answered history) :
    ∃ a d, entry? ((empty stem).after history) x = some a ∧ a.ReadBack d ∧
      (((empty stem).after history).expand d).sameKey e = true := by
  have ht := ordered_after hplain
  obtain ⟨i, a, ha, rfl⟩ := exists_entry_of_mem_answered (keyed_empty stem) h
  obtain ⟨d, hd, hsame⟩ := recovers_entry hread hstem ha
  have hda : d.sameKey a = true := hsame.2 (literalsIn_after hfinite ha)
  have hae := sameKey_expand_of_mem_answered hplain h
  rw [expand_variable ht ha] at hae
  exact ⟨a, d, entry?_eq_some_iff.2 ⟨i, rfl, ha⟩, hd,
    Formula.sameKey_trans (sameKey_expand ht hda) hae⟩

/-! ### Texts that come back -/

theorem mem_texts_iff {t : Table} {a : Formula} : (x, some a) ∈ t.texts ↔ entry? t x = some a := by
  rw [entry?_eq_some_iff, texts, List.mem_map]
  refine exists_congr fun i => ?_
  rw [Prod.mk.injEq, List.mem_range]
  exact ⟨And.right, fun h => ⟨lt_size_of_getElem? h.2, h⟩⟩

/-- A text that is read is written again as one that is read, and as the same formula just if no
literal in it is beyond the range of doubles. The entries of a table that is given such formulas
come back from their texts alike, and stand for the formulas that were given their names. -/
theorem sameKey_readBack [Stack] {s : String} (h : parse s = .ok e) : e.Recovers ∧
    ∀ (stem : String) (history : List Batch), isName stem = true →
      (∀ b ∈ history, ∀ e ∈ b.formulas, ∃ s, parse s = .ok e) →
      (∀ x a, (x, some a) ∈ ((empty stem).after history).texts → a.Recovers) ∧
      ((∀ b ∈ history, ∀ e ∈ b.formulas, Plain stem e) →
        (∀ n ∈ literals history, n.isFinite = true) →
        ∀ e x, (e, x) ∈ (empty stem).answered history → ∃ a d,
          (x, some a) ∈ ((empty stem).after history).texts ∧ a.ReadBack d ∧
            (((empty stem).after history).expand d).sameKey e = true) := by
  obtain ⟨hlegible, hliterals⟩ := Formula.legible_of_parse h
  refine ⟨Formula.recovers_of_legible hlegible hliterals, fun stem history hstem hread => ⟨?_, ?_⟩⟩
  · intro x a hentry
    obtain ⟨i, -, ha⟩ := entry?_eq_some_iff.1 (mem_texts_iff.1 hentry)
    exact recovers_entry hread hstem ha
  · intro hplain hfinite e x hgiven
    obtain ⟨a, d, ha, hd, hsame⟩ := exists_entry_readBack hstem hread hplain hfinite hgiven
    exact ⟨a, d, mem_texts_iff.2 ha, hd, hsame⟩

/-- A sum with a literal, and a sum that is met twice. -/
def written : List Batch :=
  [.listed [.text "x + 1"], .keyed [("k", .text "a + b + (a + b)")]]

theorem mem_formulas_written {b : Batch} (hb : b ∈ written) (he : e ∈ b.formulas) :
    e = sumWith (.int 1) ∨ e = repeatedSum := by
  have hmem : e ∈ written.flatMap Batch.formulas := List.mem_flatMap.2 ⟨b, hb, he⟩
  simpa [written, Batch.formulas, Batch.items, Item.formula, parse_sumWhole, parse_repeatedSum,
    Except.toOption] using hmem

theorem sameKey_readBack_written : parse "x + 1" = .ok (sumWith (.int 1)) ∧
    (sumWith (.int 1)).Recovers ∧
    (∀ x a, (x, some a) ∈ ((empty "f").after written).texts → a.Recovers) ∧
      ∀ e x, (e, x) ∈ (empty "f").answered written → ∃ a d,
        (x, some a) ∈ ((empty "f").after written).texts ∧ a.ReadBack d ∧
          (((empty "f").after written).expand d).sameKey e = true := by
  have hread : ∀ b ∈ written, ∀ e ∈ b.formulas, ∃ s, parse s = .ok e := by
    intro b hb e he
    obtain rfl | rfl := mem_formulas_written hb he
    · exact ⟨_, parse_sumWhole⟩
    · exact ⟨_, parse_repeatedSum⟩
  have hplain : ∀ b ∈ written, ∀ e ∈ b.formulas, Plain "f" e := by
    intro b hb e he
    refine plain_of_head? (by decide) ?_
    obtain rfl | rfl := mem_formulas_written hb he <;> decide
  have hfinite : ∀ n ∈ literals written, n.isFinite = true := by
    intro n hn
    simp only [literals, List.mem_flatMap] at hn
    obtain ⟨b, hb, e, he, hn⟩ := hn
    obtain rfl | rfl := mem_formulas_written hb he
    · obtain rfl : n = .int 1 := by simpa [sumWith, Formula.literals] using hn
      rfl
    · simp [repeatedSum, Formula.literals] at hn
  obtain ⟨hsum, hmemo⟩ := sameKey_readBack parse_sumWhole
  obtain ⟨hentries, hnames⟩ := hmemo "f" written (by decide) hread
  exact ⟨parse_sumWhole, hsum, hentries, hnames hplain hfinite⟩

theorem parse_infinity : parse "1e999" = .ok (.number (.real Binary64.infinity)) := by
  have htokens : tokenize "1e999".toList = .ok [⟨.number, "1e999", 0⟩, ⟨.stop, "", 5⟩] := by
    decide +kernel
  have hvalue : numberValue? "1e999" = some (.real Binary64.infinity) := by decide +kernel
  rw [parse, parseWith, htokens]
  simp [Formula.parseTokens, Formula.parseSum, Formula.parseProduct, Formula.parseSigned,
    Formula.parsePower, Formula.parseAtom, Formula.parseFactors, Formula.parseTerms, hvalue]

/-- A literal beyond the range of doubles does not come back: infinity is written as a name. -/
theorem not_sameKey_readBack : ¬∀ (s : String) (e : Formula), parse s = .ok e →
    ∃ d, e.ReadBack d ∧ d.sameKey e = true := by
  intro h
  obtain ⟨d, hd, hsame⟩ := h _ _ parse_infinity
  obtain ⟨hlegible, hliterals⟩ := Formula.legible_of_parse parse_infinity
  obtain ⟨d', hd', hiff⟩ := Formula.recovers_of_legible hlegible hliterals
  obtain rfl := hd.unique hd'
  have hfinite := hiff.1 hsame (.real Binary64.infinity) (by simp [Formula.literals])
  revert hfinite
  decide

example : (Formula.number (.real Binary64.infinity)).write = .ok "inf" := by decide +kernel

end Gantry.Memo.Table
