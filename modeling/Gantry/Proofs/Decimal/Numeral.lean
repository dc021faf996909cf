import Gantry.Decimal.Reader
import Gantry.Proofs.Decimal.Shortest
import Mathlib.Data.List.Basic
import Mathlib.Data.List.TakeWhile

/-!
Decimal numerals taken apart. Whatever a layout writes is a numeral of the
value it was given, and a numeral is read as the double nearest to its value;
so the text of a double, whose digits stand for a number that is rounded to
it, is read as that double.
-/

namespace Gantry

namespace Text

/-! ### Digits -/

variable {c : Char} {cs ds rest : List Char}

theorem toNat_of_isDigit (h : c.isDigit = true) : 48 ≤ c.toNat ∧ c.toNat ≤ 57 :=
  Char.isDigit_iff_toNat.1 h

theorem digit?_of_isDigit (h : c.isDigit = true) : digit? c = some (c.toNat - 48) := by
  have hrange := toNat_of_isDigit h
  rw [digit?, if_pos (by omega), if_pos h]

theorem isDigit_of_isDigit (h : c.isDigit = true) : isDigit c = true := by
  rw [isDigit, digit?_of_isDigit h, Option.isSome_some]

/-- Digits of other scripts lie behind the basic Latin ones. -/
theorem digit_cases (h : isDigit c = true) : c.isDigit = true ∨
    128 ≤ c.toNat ∧ ∃ z ∈ zeroDigits, z ≤ c.toNat ∧ c.toNat < z + 10 := by
  rw [isDigit, digit?] at h
  split at h
  · split at h
    · next hdigit => exact .inl hdigit
    · cases h
  · next hlatin =>
    rw [Option.isSome_map, List.find?_isSome] at h
    obtain ⟨z, hz, hrange⟩ := h
    rw [Bool.and_eq_true, decide_eq_true_iff, decide_eq_true_iff] at hrange
    exact .inr ⟨Nat.not_lt.1 hlatin, z, hz, hrange⟩

/-- No blank lies among the digits of a script. -/
theorem zeroDigits_gaps : ∀ z ∈ zeroDigits, z = 48 ∨ 160 < z ∧
    (z + 10 ≤ 5760 ∨ 5760 < z ∧ z + 10 ≤ 8192 ∨ 12288 < z) := by
  decide

theorem isBlank_of_isDigit (h : isDigit c = true) : isBlank c = false := by
  have hrange : 48 ≤ c.toNat ∧ c.toNat ≤ 57 ∨ 160 < c.toNat ∧
      (c.toNat < 5760 ∨ 5760 < c.toNat ∧ c.toNat < 8192 ∨ 12288 < c.toNat) := by
    obtain hdigit | ⟨hlatin, z, hz, hrange⟩ := digit_cases h
    · exact .inl (toNat_of_isDigit hdigit)
    · have := zeroDigits_gaps z hz
      omega
  simp only [isBlank, Bool.or_eq_false_iff, Bool.and_eq_false_iff, decide_eq_false_iff_not,
    beq_eq_false_iff_ne]
  omega

theorem digitsValue_eq (h : ∀ c ∈ cs, c.isDigit = true) :
    digitsValue cs = Nat.ofDigitChars 10 cs 0 := by
  rw [Nat.ofDigitChars_eq_foldl, digitsValue]
  exact List.foldl_ext _ _ _ fun n c hc => by rw [digit?_of_isDigit (h c hc)]; rfl

theorem digitsValue_append (hcs : ∀ c ∈ cs, c.isDigit = true) (hds : ∀ c ∈ ds, c.isDigit = true) :
    digitsValue (cs ++ ds) = digitsValue cs * 10 ^ ds.length + digitsValue ds := by
  rw [digitsValue_eq (List.forall_mem_append.2 ⟨hcs, hds⟩), digitsValue_eq hcs, digitsValue_eq hds,
    Nat.ofDigitChars_append, Nat.ofDigitChars_eq_ofDigitChars_zero, Nat.mul_comm]

theorem isDigit_of_mem_zeros {k : Nat} : ∀ c ∈ List.replicate k '0', c.isDigit = true := by
  intro c hc
  rw [List.eq_of_mem_replicate hc]
  rfl

theorem digitsValue_zeros (k : Nat) : digitsValue (List.replicate k '0') = 0 := by
  rw [digitsValue_eq isDigit_of_mem_zeros, Nat.ofDigitChars_replicate_zero, Nat.mul_zero]

theorem trimBlank_eq (h : ∀ c ∈ cs, isBlank c = false) : trimBlank cs = cs := by
  have hdrop (ds : List Char) (hds : ∀ c ∈ ds, isBlank c = false) : ds.dropWhile isBlank = ds :=
    List.dropWhile_eq_self_iff.2 fun hl => by simpa using hds _ (List.getElem_mem hl)
  rw [trimBlank, hdrop cs h, hdrop _ fun c hc => h c (List.mem_reverse.1 hc), List.reverse_reverse]

theorem toLower_of_isDigit (h : isDigit c = true) : c.toLower = c := by
  have hrange : c.toNat < 65 ∨ 90 < c.toNat := by
    obtain hdigit | ⟨hlatin, -⟩ := digit_cases h
    · have := toNat_of_isDigit hdigit
      omega
    · omega
  unfold Char.toLower
  rw [dif_neg]
  rintro ⟨hlow, hhigh⟩
  have hlow : 65 ≤ c.toNat := hlow
  have hhigh : c.toNat ≤ 90 := hhigh
  omega

end Text

namespace Decimal

open Text

/-- What follows a run of digits does not go on with it. -/
def EndsRun (rest : List Char) : Prop := ∀ c ∈ rest.head?, isDigit c = false ∧ c ≠ '_'

theorem digitRun_append {ds rest : List Char} (hds : ∀ c ∈ ds, isDigit c = true)
    (hrest : EndsRun rest) (after : Bool) : digitRun after (ds ++ rest) = (ds, rest) := by
  induction ds generalizing after with
  | nil =>
      cases rest with
      | nil => rfl
      | cons c rest =>
          obtain ⟨hdigit, hunderscore⟩ := hrest c rfl
          rw [List.nil_append, digitRun, if_neg (by simp [hdigit]), if_neg (by simp [hunderscore])]
  | cons c ds ih =>
      rw [List.forall_mem_cons] at hds
      rw [List.cons_append, digitRun, if_pos hds.1, ih hds.2]

section

variable {cs : List Char} (hhead : ∀ c ∈ cs.head?, isDigit c = true ∨ c = '.')
include hhead

theorem ne_of_head {c d : Char} (hc : c ∈ cs.head?) (hdigit : isDigit d = false) (hd : d ≠ '.') :
    c ≠ d := by
  rintro rfl
  exact (hhead c hc).elim (fun h => by simp [h] at hdigit) hd

theorem signRun_of_head : signRun cs = (false, cs) := by
  unfold signRun
  split
  · exact absurd rfl (ne_of_head hhead rfl (d := '-') rfl (by decide))
  · exact absurd rfl (ne_of_head hhead rfl (d := '+') rfl (by decide))
  · rfl

/-- A text that begins with a digit or a point has no sign and is none of the words. -/
theorem readReal?_of_head (hblank : ∀ c ∈ cs, isBlank c = false) :
    readReal? (String.ofList cs) = unsigned? false cs := by
  have hword {w : String} {d : Char} {ds : List Char} (hw : w.toList = d :: ds)
      (hdigit : isDigit d = false) (hd : d ≠ '.') : String.ofList (cs.map Char.toLower) ≠ w := by
    rintro rfl
    rw [String.toList_ofList] at hw
    cases cs with
    | nil => cases hw
    | cons c cs =>
        have hlower : c.toLower = c :=
          (hhead c rfl).elim toLower_of_isDigit fun hc => by rw [hc]; rfl
        obtain rfl : c.toLower = d := (List.cons.inj hw).1
        exact ne_of_head hhead rfl hdigit hd hlower.symm
  have hnan := hword (w := "nan") rfl (by decide) (by decide)
  have hinf := hword (w := "inf") rfl (by decide) (by decide)
  have hinfinity := hword (w := "infinity") rfl (by decide) (by decide)
  rw [readReal?, String.toList_ofList, trimBlank_eq hblank, signRun_of_head hhead]
  dsimp only
  rw [if_neg (not_or.2 ⟨hinf, hinfinity⟩), if_neg hnan]

end

/-- A decimal numeral taken apart: its digits, those behind the point if there is one, and the
sign and the digits of the exponent if there is one. -/
structure Numeral where
  whole : List Char
  fraction : Option (List Char)
  exponent : Option (Bool × List Char)
  whole_ne_nil : whole ≠ []
  whole_digits : ∀ c ∈ whole, c.isDigit = true
  fraction_digits : ∀ ds ∈ fraction, ∀ c ∈ ds, c.isDigit = true
  exponent_ne_nil : ∀ e ∈ exponent, e.2 ≠ []
  exponent_digits : ∀ e ∈ exponent, ∀ c ∈ e.2, c.isDigit = true

/-- Text of a fraction with its point. -/
def fractionChars : Option (List Char) → List Char
  | none => []
  | some ds => '.' :: ds

def exponentChars : Option (Bool × List Char) → List Char
  | none => []
  | some (negative, ds) => 'e' :: (if negative then '-' else '+') :: ds

def exponentValue : Option (Bool × List Char) → Int
  | none => 0
  | some (negative, ds) => if negative then -(digitsValue ds : Int) else digitsValue ds

namespace Numeral

def chars (n : Numeral) : List Char :=
  n.whole ++ (fractionChars n.fraction ++ exponentChars n.exponent)

def digits (n : Numeral) : Nat := digitsValue (n.whole ++ n.fraction.getD [])

def scale (n : Numeral) : Int := exponentValue n.exponent - (n.fraction.getD []).length

def value (n : Numeral) : ℚ := n.digits * 10 ^ n.scale

theorem endsRun_exponentChars (e : Option (Bool × List Char)) : EndsRun (exponentChars e) := by
  intro c hc
  cases e with
  | none => cases hc
  | some e =>
      obtain rfl : 'e' = c := Option.some.inj hc
      exact ⟨rfl, by decide⟩

theorem endsRun_fractionChars (f : Option (List Char)) (e : Option (Bool × List Char)) :
    EndsRun (fractionChars f ++ exponentChars e) := by
  cases f with
  | none => exact endsRun_exponentChars e
  | some ds =>
      intro c hc
      obtain rfl : '.' = c := Option.some.inj hc
      exact ⟨rfl, by decide⟩

theorem fractionRun_chars {f : Option (List Char)} (e : Option (Bool × List Char))
    (hf : ∀ ds ∈ f, ∀ c ∈ ds, c.isDigit = true) :
    fractionRun (fractionChars f ++ exponentChars e) = (f.getD [], exponentChars e) := by
  cases f with
  | none => rcases e with _ | ⟨negative, ds⟩ <;> rfl
  | some ds =>
      exact digitRun_append (fun c hc => isDigit_of_isDigit (hf ds rfl c hc))
        (endsRun_exponentChars e) false

theorem exponentRun_chars {e : Option (Bool × List Char)} (hne : ∀ x ∈ e, x.2 ≠ [])
    (hdigits : ∀ x ∈ e, ∀ c ∈ x.2, c.isDigit = true) :
    exponentRun (exponentChars e) = (exponentValue e, []) := by
  rcases e with _ | ⟨negative, ds⟩
  · rfl
  · have hend : EndsRun [] := by simp [EndsRun]
    have hrun : digitRun false ds = (ds, []) := by
      simpa using digitRun_append (fun c hc => isDigit_of_isDigit (hdigits _ rfl c hc)) hend false
    obtain ⟨d, ds, rfl⟩ := List.exists_cons_of_ne_nil (hne _ rfl)
    cases negative <;> simp [exponentChars, exponentRun, signRun, hrun, exponentValue]

theorem unsigned?_chars (negative : Bool) (n : Numeral) :
    unsigned? negative n.chars = some (Binary64.ofDecimal negative n.digits n.scale) := by
  have hwhole : digitRun false n.chars = (n.whole, _) :=
    digitRun_append (fun c hc => isDigit_of_isDigit (n.whole_digits c hc))
      (endsRun_fractionChars n.fraction n.exponent) false
  rw [unsigned?, hwhole]
  have hne : n.whole.isEmpty = false := List.isEmpty_eq_false_iff.2 n.whole_ne_nil
  simp only [fractionRun_chars n.exponent n.fraction_digits,
    exponentRun_chars n.exponent_ne_nil n.exponent_digits, hne, Bool.false_and,
    Bool.false_eq_true, if_false]
  rfl

theorem exists_cons (n : Numeral) : ∃ c cs, n.chars = c :: cs ∧ c.isDigit = true := by
  obtain ⟨c, cs, hcs⟩ := List.exists_cons_of_ne_nil n.whole_ne_nil
  refine ⟨c, cs ++ (fractionChars n.fraction ++ exponentChars n.exponent), ?_, ?_⟩
  · rw [chars, hcs, List.cons_append]
  · exact n.whole_digits c (by simp [hcs])

theorem isBlank_of_mem_chars (n : Numeral) : ∀ c ∈ n.chars, isBlank c = false := by
  have hdigits {ds : List Char} (hds : ∀ c ∈ ds, c.isDigit = true) : ∀ c ∈ ds, isBlank c = false :=
    fun c hc => isBlank_of_isDigit (isDigit_of_isDigit (hds c hc))
  rw [chars, List.forall_mem_append, List.forall_mem_append]
  refine ⟨hdigits n.whole_digits, ?_, ?_⟩
  · cases hf : n.fraction with
    | none => simp [fractionChars]
    | some ds => exact List.forall_mem_cons.2 ⟨rfl, hdigits (n.fraction_digits ds hf)⟩
  · rcases he : n.exponent with _ | ⟨negative, ds⟩
    · simp [exponentChars]
    · refine List.forall_mem_cons.2 ⟨rfl, List.forall_mem_cons.2 ⟨?_, ?_⟩⟩
      · cases negative <;> rfl
      · exact hdigits (n.exponent_digits _ he)

theorem readReal?_chars (n : Numeral) :
    readReal? (String.ofList n.chars) = some (Binary64.ofDecimal false n.digits n.scale) := by
  obtain ⟨c, cs, hcs, hc⟩ := n.exists_cons
  have hhead : ∀ c ∈ n.chars.head?, isDigit c = true ∨ c = '.' := by
    rw [hcs]
    rintro _ ⟨⟩
    exact .inl (isDigit_of_isDigit hc)
  rw [readReal?_of_head hhead n.isBlank_of_mem_chars, unsigned?_chars]

end Numeral

/-! ### Layouts -/

variable {ds : List Char}

theorem isDigit_of_mem_digitChars {n : Nat} : ∀ c ∈ digitChars n, c.isDigit = true :=
  fun _ hc => Nat.isDigit_of_mem_toDigits (by decide) (by decide) hc

theorem digitsValue_digitChars (n : Nat) : digitsValue (digitChars n) = n := by
  rw [digitsValue_eq isDigit_of_mem_digitChars, digitChars, Nat.ofDigitChars_ten_toDigits]

theorem isDigit_of_mem_padLeft {width : Nat} (hds : ∀ c ∈ ds, c.isDigit = true) :
    ∀ c ∈ padLeft width ds, c.isDigit = true :=
  List.forall_mem_append.2 ⟨isDigit_of_mem_zeros, hds⟩

theorem digitsValue_zeros_append (k : Nat) (hds : ∀ c ∈ ds, c.isDigit = true) :
    digitsValue (List.replicate k '0' ++ ds) = digitsValue ds := by
  rw [digitsValue_append isDigit_of_mem_zeros hds, digitsValue_zeros, Nat.zero_mul, Nat.zero_add]

theorem digitChars_ne_nil (n : Nat) : digitChars n ≠ [] := Nat.toDigits_ne_nil

theorem digitsValue_append_zeros (hds : ∀ c ∈ ds, c.isDigit = true) (k : Nat) :
    digitsValue (ds ++ List.replicate k '0') = digitsValue ds * 10 ^ k := by
  rw [digitsValue_append hds isDigit_of_mem_zeros, digitsValue_zeros, List.length_replicate,
    Nat.add_zero]

/-- A fraction that is missing or zero changes nothing. -/
theorem Numeral.value_eq {n : Numeral} (h : n.fraction = none ∨ n.fraction = some ['0']) :
    n.value = digitsValue n.whole * 10 ^ exponentValue n.exponent := by
  rw [value, digits, scale]
  obtain h | h := h
  · rw [h]
    simp
  · have hzero := digitsValue_append_zeros n.whole_digits 1
    rw [List.replicate_one] at hzero
    rw [h, Option.getD_some, hzero, List.length_singleton, Nat.cast_one,
      zpow_sub_one₀ (by norm_num)]
    push_cast
    ring

theorem isDigit_of_mem_mark {mark : Bool} : ∀ ds ∈ (if mark then some ['0'] else none),
    ∀ c ∈ ds, c.isDigit = true := by
  cases mark <;> simp

/-- Digits with a point are a numeral of their value. -/
theorem exists_numeral_positional (wholeMark : Bool) (hne : ds ≠ [])
    (hds : ∀ c ∈ ds, c.isDigit = true) (whole : Int) :
    ∃ n : Numeral, (positional wholeMark ds whole).toList = n.chars ∧
      n.value = digitsValue ds * 10 ^ (whole - ds.length) ∧
      (wholeMark = true → n.fraction.isSome = true) := by
  unfold positional
  split
  · -- All digits are behind the point.
    obtain ⟨k, rfl⟩ : ∃ k : Nat, whole = -k := ⟨(-whole).toNat, by omega⟩
    have hfraction : ∀ c ∈ List.replicate k '0' ++ ds, c.isDigit = true :=
      List.forall_mem_append.2 ⟨isDigit_of_mem_zeros, hds⟩
    refine ⟨⟨['0'], some (List.replicate k '0' ++ ds), none, by simp, by simp,
      by simpa using hfraction, by simp, by simp⟩, ?_, ?_, by simp⟩
    · simp [Numeral.chars, fractionChars, exponentChars]
    · have hdigits : digitsValue ('0' :: (List.replicate k '0' ++ ds)) = digitsValue ds :=
        digitsValue_zeros_append (k + 1) hds
      have hscale : (0 : Int) - ((List.replicate k '0' ++ ds).length : Nat) = -k - ds.length := by
        rw [List.length_append, List.length_replicate]
        omega
      show (digitsValue ('0' :: (List.replicate k '0' ++ ds)) : ℚ) *
        10 ^ ((0 : Int) - ((List.replicate k '0' ++ ds).length : Nat)) = _
      rw [hdigits, hscale]
  · obtain ⟨k, rfl⟩ : ∃ k : Nat, whole = k := ⟨whole.toNat, by omega⟩
    rw [Int.toNat_natCast]
    dsimp only
    split
    · -- All digits are in front of it.
      rename_i hlength
      obtain ⟨j, rfl⟩ := Nat.exists_eq_add_of_le hlength
      refine ⟨⟨ds ++ List.replicate j '0', if wholeMark then some ['0'] else none, none,
        by simp [hne], List.forall_mem_append.2 ⟨hds, isDigit_of_mem_zeros⟩, isDigit_of_mem_mark,
        by simp, by simp⟩, ?_, ?_, by simp⟩
      · cases wholeMark <;> simp [Numeral.chars, fractionChars, exponentChars]
      · rw [Numeral.value_eq (by cases wholeMark <;> simp)]
        simp [digitsValue_append_zeros hds, exponentValue]
    · -- The point is among the digits.
      rename_i hlength
      have hpos : 0 < k := by omega
      refine ⟨⟨ds.take k, some (ds.drop k), none, by simp [hne, hpos.ne'],
        fun c hc => hds c (List.mem_of_mem_take hc), ?_, by simp, by simp⟩, ?_, ?_, by simp⟩
      · rintro _ ⟨⟩ c hc
        exact hds c (List.mem_of_mem_drop hc)
      · simp [Numeral.chars, fractionChars, exponentChars]
      · have hscale : -((ds.drop k).length : Int) = k - ds.length := by
          rw [List.length_drop]
          omega
        simp [Numeral.value, Numeral.digits, Numeral.scale, exponentValue, ← hscale]

theorem toList_exponentText (width : Nat) (e : Int) : (exponentText width e).toList =
    exponentChars (some (decide (e < 0), padLeft width (digitChars e.natAbs))) := by
  rw [exponentText, String.toList_append, String.toList_ofList, exponentChars]
  split <;> simp [*]

theorem exponentValue_eq (width : Nat) (e : Int) :
    exponentValue (some (decide (e < 0), padLeft width (digitChars e.natAbs))) = e := by
  rw [exponentValue, padLeft, digitsValue_zeros_append _ isDigit_of_mem_digitChars,
    digitsValue_digitChars]
  split <;> rename_i hsign <;> rw [decide_eq_true_iff] at hsign <;> omega

/-- Digits with an exponent are a numeral of their value. -/
theorem exists_numeral_exponent (fractionMark : Bool) (width : Nat) (hne : ds ≠ [])
    (hds : ∀ c ∈ ds, c.isDigit = true) (e : Int) :
    ∃ n : Numeral, (String.ofList (ds.take 1)
        ++ (if (ds.drop 1).isEmpty then (if fractionMark then ".0" else "")
            else "." ++ String.ofList (ds.drop 1))
        ++ exponentText width e).toList = n.chars ∧
      n.value = digitsValue ds * 10 ^ (e - ds.length + 1) ∧ n.exponent.isSome = true := by
  obtain ⟨d, ds, rfl⟩ := List.exists_cons_of_ne_nil hne
  rw [List.forall_mem_cons] at hds
  have hexponent : ∀ x ∈ some (decide (e < 0), padLeft width (digitChars e.natAbs)),
      x.2 ≠ [] ∧ ∀ c ∈ x.2, c.isDigit = true := by
    rintro _ ⟨⟩
    exact ⟨by simp [padLeft, digitChars_ne_nil], isDigit_of_mem_padLeft isDigit_of_mem_digitChars⟩
  by_cases hempty : ds = []
  · subst hempty
    refine ⟨⟨[d], if fractionMark then some ['0'] else none, some (_, _), by simp, by simp [hds.1],
      isDigit_of_mem_mark, fun x hx => (hexponent x hx).1, fun x hx => (hexponent x hx).2⟩,
      ?_, ?_, rfl⟩
    · rw [String.toList_append, toList_exponentText]
      cases fractionMark <;> simp [Numeral.chars, fractionChars]
    · rw [Numeral.value_eq (by cases fractionMark <;> simp), exponentValue_eq]
      simp
  · refine ⟨⟨[d], some ds, some (_, _), by simp, by simp [hds.1], by simpa using hds.2,
      fun x hx => (hexponent x hx).1, fun x hx => (hexponent x hx).2⟩, ?_, ?_, rfl⟩
    · rw [String.toList_append, toList_exponentText]
      simp [Numeral.chars, fractionChars, hempty]
    · show (digitsValue (d :: ds) : ℚ) * 10 ^ (exponentValue _ - (ds.length : Int)) = _
      rw [exponentValue_eq, List.length_cons]
      congr 2
      omega

theorem exists_numeral_write (layout : Layout) (x : Positive) :
    ∃ n : Numeral, (layout.write x).toList = n.chars ∧ n.value = x.value ∧
      (layout.wholeMark = true → n.fraction.isSome = true ∨ n.exponent.isSome = true) := by
  have hne := digitChars_ne_nil x.digits
  have hds := isDigit_of_mem_digitChars (n := x.digits)
  have hvalue := digitsValue_digitChars x.digits
  unfold Layout.write
  dsimp only
  generalize digitChars x.digits = ds at *
  split
  · obtain ⟨n, hchars, hn, hmark⟩ :=
      exists_numeral_positional layout.wholeMark hne hds (x.scale + ds.length - 1 + 1)
    refine ⟨n, hchars, ?_, fun h => .inl (hmark h)⟩
    rw [hn, hvalue, Positive.value]
    congr 2
    omega
  · obtain ⟨n, hchars, hn, hexponent⟩ := exists_numeral_exponent layout.fractionBeforeExponent
      layout.exponentWidth hne hds (x.scale + ds.length - 1)
    refine ⟨n, hchars, ?_, fun _ => .inr hexponent⟩
    rw [hn, hvalue, Positive.value]
    congr 2
    omega

/-! ### Literals -/

/-- The text of a double that is not negative is a numeral that reads as the double, and cannot
be taken for a whole number. -/
theorem exists_numeral_literalText {x : Binary64} (hx : x.isFinite = true)
    (hs : x.signBit = false) :
    ∃ n : Numeral, (literalText x).toList = n.chars ∧
      Binary64.ofDecimal false n.digits n.scale = x ∧
        (n.fraction.isSome = true ∨ n.exponent.isSome = true) := by
  have hnan := Binary64.isNaN_eq_false_of_isFinite hx
  have hinfinite := Binary64.isInfinite_eq_false_of_isFinite hx
  by_cases hzero : x.magnitude = 0
  · refine ⟨⟨['0'], some ['0'], none, by simp, by simp, by simp, by simp, by simp⟩, ?_, ?_, by simp⟩
    · simp [literalText, hnan, hinfinite, hs, Binary64.isZero, hzero, Numeral.chars, fractionChars,
        exponentChars]
    · exact Binary64.eq_of_signBit_of_magnitude (.trans rfl hs.symm) (.trans rfl hzero.symm)
  · have hm : 0 < x.significand := Binary64.significand_pos hzero
    obtain ⟨n, hchars, hvalue, hmark⟩ := exists_numeral_write .literal (shortest x)
    refine ⟨n, ?_, ?_, hmark rfl⟩
    · simpa [literalText, hnan, hinfinite, hs, Binary64.isZero, hzero] using hchars
    · have hattracts := attracts_shortest hx hm
      rw [← hvalue] at hattracts
      exact Binary64.ofDecimal_eq hx hm hs hattracts

/-- The text of a whole number that is not negative is a numeral without point and exponent. -/
theorem exists_numeral_toString (k : Nat) : ∃ n : Numeral, (toString k).toList = n.chars ∧
    n.fraction = none ∧ n.exponent = none ∧ digitsValue n.chars = k := by
  have hchars : (toString k).toList = digitChars k := by
    rw [Nat.toString_eq_ofList_toDigits, String.toList_ofList, digitChars]
  refine ⟨⟨digitChars k, none, none, digitChars_ne_nil k, isDigit_of_mem_digitChars, by simp,
    by simp, by simp⟩, ?_, rfl, rfl, ?_⟩
  · simpa [Numeral.chars, fractionChars, exponentChars] using hchars
  · simpa [Numeral.chars, fractionChars, exponentChars] using digitsValue_digitChars k

end Decimal

end Gantry
