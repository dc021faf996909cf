import Gantry.Code.Reader
import Mathlib.Algebra.Group.Nat.Defs

/-!
Quoted keys are read as they are written. A character is written as it is or
behind a backslash, by a letter or by the hexadecimal digits of its code point.
-/

namespace Gantry.Code

open Text

variable {n fuel : Nat} {c mark : Char} {cs rest : List Char}

/-! ### Hexadecimal digits -/

theorem hexDigit?_digitChar (h : n < 16) : hexDigit? n.digitChar = some n := by
  have hall : ∀ n < 16, hexDigit? n.digitChar = some n := by decide
  exact hall n h

theorem hexValue?_append_singleton (h : hexDigit? c = some n) :
    hexValue? (cs ++ [c]) = (hexValue? cs).map fun m => 16 * m + n := by
  rw [hexValue?, List.foldl_append, List.foldl_cons, List.foldl_nil, ← hexValue?, h]
  cases hexValue? cs <;> rfl

theorem hexValue?_toDigits (n : Nat) : hexValue? (Nat.toDigits 16 n) = some n := by
  induction n using Nat.strongRecOn with
  | ind n ih =>
      rw [Nat.toDigits_eq_if (by decide)]
      split
      · next h =>
        rw [← List.nil_append [_], hexValue?_append_singleton (hexDigit?_digitChar h)]
        exact congrArg some (Nat.zero_add n)
      · have hdigit := hexDigit?_digitChar (Nat.mod_lt n (by decide : 0 < 16))
        rw [hexValue?_append_singleton hdigit, ih (n / 16) (by omega)]
        exact congrArg some (Nat.div_add_mod n 16)

theorem hexValue?_zeros_append (k : Nat) (cs : List Char) :
    hexValue? (List.replicate k '0' ++ cs) = hexValue? cs := by
  induction k with
  | zero => rfl
  | succ k ih =>
      rw [List.replicate_succ, List.cons_append, ← ih]
      rfl

theorem hexValue?_hexDigits (width n : Nat) : hexValue? (hexDigits width n) = some n :=
  (hexValue?_zeros_append _ _).trans (hexValue?_toDigits n)

theorem length_hexDigits {width : Nat} (hwidth : 0 < width) (h : n < 16 ^ width) :
    (hexDigits width n).length = width := by
  have hlength := (Nat.length_toDigits_le_iff (b := 16) (by decide) hwidth).2 h
  simp only [hexDigits, List.length_append, List.length_replicate]
  omega

theorem codePoint?_hexDigits {width : Nat} (hwidth : 0 < width) (h : c.toNat < 16 ^ width)
    (rest : List Char) : codePoint? width (hexDigits width c.toNat ++ rest) = some (c, rest) := by
  have hlength := length_hexDigits hwidth h
  rw [codePoint?, List.take_left' hlength, List.drop_left' hlength, hexValue?_hexDigits,
    Option.map_some, Char.ofNat_toNat]

/-! ### Quoted text -/

/-- A character is written as it is, or it is what stands behind a backslash. -/
theorem escapeChar_cases (hmark : mark = '\'' ∨ mark = '"') (c : Char) :
    (escapeChar mark c = [c] ∧ c ≠ mark ∧ c ≠ '\n' ∧ c ≠ '\\') ∨
      ∃ tail, escapeChar mark c = '\\' :: tail ∧
        ∀ rest, escaped? (tail ++ rest) = some (c, rest) := by
  have hbound : c.toNat < 16 ^ 8 := c.val.toNat_lt
  unfold escapeChar
  split
  · next h =>
    refine .inr ⟨[c], rfl, fun rest => ?_⟩
    rcases h with rfl | rfl
    · rcases hmark with rfl | rfl <;> rfl
    · rfl
  · next h =>
    rw [not_or] at h
    split
    · next h =>
      subst h
      exact .inr ⟨['n'], rfl, fun _ => rfl⟩
    · next hnewline =>
      split
      · next h =>
        subst h
        exact .inr ⟨['r'], rfl, fun _ => rfl⟩
      · split
        · next h =>
          subst h
          exact .inr ⟨['t'], rfl, fun _ => rfl⟩
        · split
          · exact .inl ⟨rfl, h.1, hnewline, h.2⟩
          · split
            · next hlt => exact .inr ⟨_, rfl, codePoint?_hexDigits (by decide) hlt⟩
            · split
              · next hlt => exact .inr ⟨_, rfl, codePoint?_hexDigits (by decide) hlt⟩
              · exact .inr ⟨_, rfl, codePoint?_hexDigits (by decide) hbound⟩

theorem quotedRest_flatMap (hmark : mark = '\'' ∨ mark = '"') (rest : List Char)
    (hfuel : (cs.flatMap (escapeChar mark)).length < fuel) :
    quotedRest mark fuel (cs.flatMap (escapeChar mark) ++ mark :: rest) = some (cs, rest) := by
  induction cs generalizing fuel with
  | nil =>
      obtain ⟨fuel, rfl⟩ := Nat.exists_eq_succ_of_ne_zero (Nat.ne_of_gt hfuel)
      rw [List.flatMap_nil, List.nil_append, quotedRest, if_pos rfl]
  | cons c cs ih =>
      obtain ⟨fuel, rfl⟩ : ∃ n, fuel = n + 1 :=
        Nat.exists_eq_succ_of_ne_zero (Nat.ne_of_gt (Nat.zero_lt_of_lt hfuel))
      rw [List.flatMap_cons, List.length_append] at hfuel
      rw [List.flatMap_cons, List.append_assoc]
      have hrest (hlt : (cs.flatMap (escapeChar mark)).length < fuel) := ih hlt
      obtain ⟨hplain, hne, hnewline, hslash⟩ | ⟨tail, hescaped, hread⟩ := escapeChar_cases hmark c
      · rw [hplain, List.length_singleton] at hfuel
        rw [hplain, List.singleton_append, quotedRest, if_neg hne, if_neg hnewline, if_neg hslash]
        simp only [Option.bind_eq_bind, Option.bind_some, hrest (by omega)]
        rfl
      · have hmarks : '\\' ≠ mark := by rcases hmark with rfl | rfl <;> decide
        rw [hescaped, List.length_cons] at hfuel
        rw [hescaped, List.cons_append, quotedRest, if_neg hmarks, if_neg (by decide), if_pos rfl,
          hread]
        simp only [Option.bind_eq_bind, Option.bind_some, hrest (by omega)]
        rfl

theorem toList_quoted (s : String) : (quoted s).toList =
    quoteMark s.toList :: (s.toList.flatMap (escapeChar (quoteMark s.toList)) ++
      [quoteMark s.toList]) := by
  rw [quoted, String.toList_ofList]

theorem quoteMark_cases (cs : List Char) : quoteMark cs = '\'' ∨ quoteMark cs = '"' := by
  unfold quoteMark
  split
  · exact .inr rfl
  · exact .inl rfl

theorem quoted?_quoted {s : String} (hfuel : (quoted s).toList.length ≤ fuel) (rest : List Char) :
    quoted? fuel ((quoted s).toList ++ rest) = some (s, rest) := by
  have hmark := quoteMark_cases s.toList
  rw [toList_quoted, List.length_cons, List.length_append] at hfuel
  rw [toList_quoted, List.cons_append, List.append_assoc, List.singleton_append, quoted?,
    if_pos hmark, quotedRest_flatMap hmark rest (by omega), Option.map_some]
  simp only [String.ofList_toList]

end Gantry.Code
