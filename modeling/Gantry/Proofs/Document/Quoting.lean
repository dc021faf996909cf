import Gantry.Document.Reader
import Gantry.Document.Writer

/-!
Texts in quotes are read back as they were written. A character that is not
basic is written by one or two code units of four hexadecimal digits each.
-/

namespace Gantry.Datum

open Text

variable {n : Nat} {c : Char} {cs rest : List Char}

/-! ### Code units -/

theorem hexDigit?_hexChar (h : n < 16) : hexDigit? (hexChar n) = some n := by
  have hall : ∀ n < 16, hexDigit? (hexChar n) = some n := by decide
  exact hall n h

theorem hexQuad?_hexQuad (h : n < 65536) (rest : List Char) :
    hexQuad? (hexQuad n ++ rest) = some (n, rest) := by
  have hdigits : 16 * (16 * (16 * (n / 4096 % 16) + n / 256 % 16) + n / 16 % 16) + n % 16 = n := by
    omega
  have hmod (m : Nat) : hexDigit? (hexChar (m % 16)) = some (m % 16) :=
    hexDigit?_hexChar (Nat.mod_lt _ (by decide))
  simp [hexQuad?, hexQuad, hexValue?, hmod, hdigits]

theorem toNat_lt (c : Char) : c.toNat < 0x110000 ∧ ¬ (0xd800 ≤ c.toNat ∧ c.toNat < 0xe000) := by
  have hvalid := c.valid
  rw [UInt32.isValidChar, Nat.isValidChar] at hvalid
  rw [Char.toNat]
  omega

/-- A character above the basic plane takes a pair of units. -/
theorem exists_pair (hlow : 0x10000 ≤ n) (hhigh : n < 0x110000) :
    ∃ high low, escapeUnits n = '\\' :: 'u' :: (hexQuad high ++ '\\' :: 'u' :: hexQuad low) ∧
      (high < 0x10000 ∧ low < 0x10000) ∧
      (0xd800 ≤ high ∧ high < 0xdc00 ∧ 0xdc00 ≤ low ∧ low < 0xe000) ∧
      0x10000 + (high - 0xd800) * 0x400 + (low - 0xdc00) = n := by
  refine ⟨0xd800 + (n - 0x10000) / 0x400, 0xdc00 + (n - 0x10000) % 0x400, ?_, ?_⟩
  · simp [escapeUnits, Nat.not_lt.2 hlow]
  · omega

/-- A character is read from its code units, whatever follows. -/
theorem escapedChar?_escapeUnits (c : Char) (rest : List Char) :
    ∃ units, escapeUnits c.toNat = '\\' :: 'u' :: units ∧
      escapedChar? (units ++ rest) = some (c, rest) := by
  obtain ⟨hlt, hvalid⟩ := toNat_lt c
  by_cases hbasic : c.toNat < 0x10000
  · refine ⟨hexQuad c.toNat, by simp [escapeUnits, hbasic], ?_⟩
    rw [escapedChar?, hexQuad?_hexQuad hbasic]
    simp only [Option.bind_eq_bind, Option.bind_some]
    split
    · split
      · rename_i low after _
        rw [if_neg (by omega), Char.ofNat_toNat]
        rfl
      · rw [Char.ofNat_toNat]
        rfl
    · rw [Char.ofNat_toNat]
      rfl
  · obtain ⟨high, low, hunits, ⟨hhigh, hlow⟩, hpair, hjoin⟩ := exists_pair (Nat.not_lt.1 hbasic) hlt
    refine ⟨_, hunits, ?_⟩
    rw [escapedChar?, List.append_assoc, hexQuad?_hexQuad hhigh]
    simp only [Option.bind_eq_bind, Option.bind_some, List.cons_append, hexQuad?_hexQuad hlow]
    rw [if_pos hpair, hjoin, Char.ofNat_toNat]
    rfl

/-! ### Quoted characters -/

/-- What a quoted character may look like. -/
theorem quotedChar_cases (c : Char) :
    (∃ e, quotedChar true c = ['\\', e] ∧ e ≠ 'u' ∧ simpleEscape? e = some c) ∨
      quotedChar true c = escapeUnits c.toNat ∨
        (quotedChar true c = [c] ∧ c ≠ '"' ∧ c ≠ '\\' ∧ 0x20 ≤ c.toNat) := by
  unfold quotedChar
  split
  · exact .inl ⟨'"', rfl, by decide, rfl⟩
  · exact .inl ⟨'\\', rfl, by decide, rfl⟩
  · exact .inl ⟨'n', rfl, by decide, rfl⟩
  · exact .inl ⟨'r', rfl, by decide, rfl⟩
  · exact .inl ⟨'t', rfl, by decide, rfl⟩
  · exact .inl ⟨'b', rfl, by decide, rfl⟩
  · exact .inl ⟨'f', rfl, by decide, rfl⟩
  · split
    · exact .inr (.inl rfl)
    · exact .inr (.inr ⟨rfl, by assumption, by assumption, by omega⟩)

theorem quotedRest_quotedChar (fuel : Nat) (c : Char) (rest : List Char) :
    quotedRest (fuel + 1) (quotedChar true c ++ rest) =
      (quotedRest fuel rest).map fun p => (c :: p.1, p.2) := by
  obtain ⟨e, hc, hu, he⟩ | hc | ⟨hc, hquote, hslash, hlarge⟩ := quotedChar_cases c
  · rw [hc, List.cons_append, List.cons_append, List.nil_append, quotedRest.eq_def]
    cases hrest : quotedRest fuel rest <;> simp [he, hrest]
  · obtain ⟨units, hunits, hread⟩ := escapedChar?_escapeUnits c rest
    rw [hc, hunits, List.cons_append, List.cons_append, quotedRest.eq_def]
    simp only [hread, Option.bind_eq_bind, Option.bind_some]
    cases quotedRest fuel rest <;> rfl
  · rw [hc, List.cons_append, List.nil_append, quotedRest.eq_def]
    have hsmall : ¬ c.toNat < 0x20 := by omega
    cases hrest : quotedRest fuel rest <;> simp [hslash, hsmall, hrest]

theorem quotedRest_quoted {fuel : Nat} (h : cs.length < fuel) (rest : List Char) :
    quotedRest fuel (cs.flatMap (quotedChar true) ++ '"' :: rest) = some (cs, rest) := by
  induction cs generalizing fuel with
  | nil =>
      obtain ⟨fuel, rfl⟩ := Nat.exists_eq_succ_of_ne_zero (Nat.ne_zero_of_lt h)
      rfl
  | cons c cs ih =>
      obtain ⟨fuel, rfl⟩ := Nat.exists_eq_succ_of_ne_zero (Nat.ne_zero_of_lt h)
      rw [List.flatMap_cons, List.append_assoc, quotedRest_quotedChar,
        ih (Nat.lt_of_succ_lt_succ h)]
      rfl

theorem toList_quotedText (s : String) :
    (quotedText true s).toList = '"' :: (s.toList.flatMap (quotedChar true) ++ ['"']) := by
  rw [quotedText, String.toList_ofList, List.cons_append]

/-- A quoted text is read up to its closing quote. -/
theorem quotedRest_quotedText (s : String) (rest : List Char) :
    quotedRest ((s.toList.flatMap (quotedChar true) ++ ['"'] ++ rest).length + 1)
      (s.toList.flatMap (quotedChar true) ++ ['"'] ++ rest) = some (s.toList, rest) := by
  have hpos (c : Char) : 1 ≤ (quotedChar true c).length := by
    obtain ⟨e, hc, -, -⟩ | hc | ⟨hc, -, -, -⟩ := quotedChar_cases c
    · simp [hc]
    · obtain ⟨units, hunits, -⟩ := escapedChar?_escapeUnits c []
      simp [hc, hunits]
    · simp [hc]
  have hlength : ∀ cs : List Char, cs.length ≤ (cs.flatMap (quotedChar true)).length := by
    intro cs
    induction cs with
    | nil => exact Nat.le_refl 0
    | cons c cs ih =>
        have := hpos c
        rw [List.length_cons, List.flatMap_cons, List.length_append]
        omega
  rw [List.append_assoc]
  refine quotedRest_quoted ?_ rest
  have := hlength s.toList
  rw [List.length_append]
  omega

end Gantry.Datum
