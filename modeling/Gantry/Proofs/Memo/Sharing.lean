import Gantry.Proofs.Memo.Expansion
import Gantry.Proofs.Formula.Evaluation
import Gantry.Formula.Reader

/-!
What formulas of the same name have in common. They are the same up to groups,
with literals compared by value. A whole number and a double of the same value
are different operands, though, so the formulas have the same values only if
their literals are identical.
-/

namespace Gantry.Memo.Table

open Formula (tokenize parseWith numberValue?)

variable {stem x : String} {history : List Batch} {a b : Formula}

/-- Formulas that were given the same name are the same up to groups. If their
literals are identical, they have the same value or fail alike in every scope. -/
theorem evaluate_eq_of_name_eq [Stack] (hplain : ∀ b ∈ history, ∀ e ∈ b.formulas, Plain stem e)
    (ha : (a, x) ∈ (empty stem).answered history) (hb : (b, x) ∈ (empty stem).answered history) :
    a.sameKey b = true ∧ (a.literals = b.literals → ∀ s, a.evaluate s = b.evaluate s) := by
  have hexpand := Formula.sameKey_symm (sameKey_expand_of_mem_answered hplain ha)
  have hsame := Formula.sameKey_trans hexpand (sameKey_expand_of_mem_answered hplain hb)
  refine ⟨hsame, fun hliterals s => ?_⟩
  have hkey : a.key = b.key := Formula.eq_of_literals_eq hsame (by simpa using hliterals)
  exact Formula.evaluate_eq_of_key_eq hkey

/-! ### A whole number and a double under one name -/

def sumWith (n : Number) : Formula := .binary "+" (.variable "x") (.number n)

def sumGrouped : Formula := .binary "+" (.group (.variable "x")) (.number (.int 1))

/-- One formula three times, once with a literal of another kind. -/
def sums : List Batch :=
  [.listed [.text "x + 1", .text "x + 1.0"], .keyed [("k", .tree sumGrouped)]]

theorem parse_sumWith {text literal : String} {n : Number} {stop : Nat}
    (htokens : tokenize text.toList = .ok [⟨.name, "x", 0⟩, ⟨.op, "+", 2⟩, ⟨.number, literal, 4⟩,
      ⟨.stop, "", stop⟩])
    (hn : numberValue? literal = some n) : Formula.parse text = .ok (sumWith n) := by
  rw [Formula.parse, parseWith, htokens]
  simp [Formula.parseTokens, Formula.parseSum, Formula.parseProduct, Formula.parseSigned,
    Formula.parsePower, Formula.parseAtom, Formula.parseFactors, Formula.parseTerms,
    Formula.nameValue, constant?, hn, sumWith]

theorem parse_sumWhole : Formula.parse "x + 1" = .ok (sumWith (.int 1)) := by
  have htokens : tokenize "x + 1".toList = .ok [⟨.name, "x", 0⟩, ⟨.op, "+", 2⟩, ⟨.number, "1", 4⟩,
      ⟨.stop, "", 5⟩] := by decide +kernel
  exact parse_sumWith htokens (by decide +kernel)

theorem parse_sumReal : Formula.parse "x + 1.0" = .ok (sumWith (.real (Binary64.ofInt 1))) := by
  have htokens : tokenize "x + 1.0".toList = .ok [⟨.name, "x", 0⟩, ⟨.op, "+", 2⟩,
      ⟨.number, "1.0", 4⟩, ⟨.stop, "", 7⟩] := by decide +kernel
  exact parse_sumWith htokens (by decide +kernel)

theorem flatMap_formulas_sums : sums.flatMap Batch.formulas =
    [sumWith (.int 1), sumWith (.real (Binary64.ofInt 1)), sumGrouped] := by
  simp [sums, Batch.formulas, Batch.items, Item.formula, parse_sumWhole, parse_sumReal,
    Except.toOption]

theorem answered_sums : (empty "f").answered sums =
    [(sumWith (.int 1), "f0"), (sumWith (.real (Binary64.ofInt 1)), "f0"), (sumGrouped, "f0")] := by
  have hitems : Item.formulas [.text "x + 1", .text "x + 1.0"] =
      .ok [sumWith (.int 1), sumWith (.real (Binary64.ofInt 1))] := by
    simp [Item.formulas, Item.formula, parse_sumWhole, parse_sumReal]
  simp only [sums, answered, given, answer, Batch.items, optimize, hitems]
  with_unfolding_all rfl

theorem evaluate_eq_of_name_eq_sums :
    (sumWith (.int 1)).literals = sumGrouped.literals ∧
      ∀ s, (sumWith (.int 1)).evaluate s = sumGrouped.evaluate s := by
  have hplain : ∀ c ∈ sums, ∀ e ∈ c.formulas, Plain "f" e := by
    intro c hc e he
    have hmem : e ∈ sums.flatMap Batch.formulas := List.mem_flatMap.2 ⟨c, hc, he⟩
    rw [flatMap_formulas_sums] at hmem
    refine plain_of_head? (by decide) ?_
    clear he hc
    revert e
    decide
  have hliterals : (sumWith (.int 1)).literals = sumGrouped.literals := rfl
  have hwhole : (sumWith (.int 1), "f0") ∈ (empty "f").answered sums := by simp [answered_sums]
  have hgrouped : (sumGrouped, "f0") ∈ (empty "f").answered sums := by simp [answered_sums]
  exact ⟨hliterals, (evaluate_eq_of_name_eq hplain hwhole hgrouped).2 hliterals⟩

/-- The texts `x + 1` and `x + 1.0` are given the same name, but where `x` is
the greatest signed word the one wraps around and the other does not. -/
theorem shared_name_values_differ :
    ∃ (a b : Formula) (s : Scope) (m n : Quantity), Formula.parse "x + 1" = .ok a ∧
      Formula.parse "x + 1.0" = .ok b ∧
      ((empty "f").optimize [.text "x + 1", .text "x + 1.0"]).1 = .ok ["f0", "f0"] ∧
      a.evaluate s = .ok (some m) ∧ b.evaluate s = .ok (some n) ∧ m.number.same n.number = false := by
  let s : Scope := ({} : Scope).insert "x" (some (.given (.int 9223372036854775807)))
  have hx : (Formula.variable "x").evaluateIn Meaning.direct s =
      .ok (some (.given (.int 9223372036854775807))) :=
    Formula.evaluateIn_variable_eq_ok_iff.2 Std.HashMap.getElem?_insert_self
  have hitems : Item.formulas [.text "x + 1", .text "x + 1.0"] =
      .ok [sumWith (.int 1), sumWith (.real (Binary64.ofInt 1))] := by
    simp [Item.formulas, Item.formula, parse_sumWhole, parse_sumReal]
  refine ⟨sumWith (.int 1), sumWith (.real (Binary64.ofInt 1)), s, .signed Int64.minValue,
    .real (Binary64.ofInt 9223372036854775808), parse_sumWhole, parse_sumReal, ?_, ?_, ?_,
    by decide +kernel⟩
  · rw [optimize, hitems]
    decide +kernel
  · exact Formula.evaluateIn_binary_eq_ok_iff.2 ⟨.add, _, _, rfl, hx, rfl, by decide +kernel⟩
  · exact Formula.evaluateIn_binary_eq_ok_iff.2 ⟨.add, _, _, rfl, hx, rfl, by decide +kernel⟩

end Gantry.Memo.Table
