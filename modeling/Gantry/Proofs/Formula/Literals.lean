import Gantry.Proofs.Formula.Admission
import Gantry.Proofs.Formula.Evaluation
import Gantry.Proofs.Formula.Failure
import Gantry.Proofs.Formula.Sameness
import Gantry.Proofs.Formula.Signs

/-!
The literals of formulas that were read. They have no sign and are numbers, and the whole ones
have no more digits than are read. So they are written as what they are, except for those beyond
the range of doubles: the text of infinity is a name, and is read as a variable.
-/

namespace Gantry

open Text

namespace Binary64

variable {n : Nat}

/-- Without a sign, and a number. -/
def IsUnsigned (x : Binary64) : Prop := x.isNaN = false ∧ x.signBit = false

theorem isUnsigned_ofMagnitude (h : n ≤ infinityWord) : (ofMagnitude false n).IsUnsigned := by
  have hlt : n < 2 ^ 63 := h.trans_lt (by decide)
  refine ⟨?_, signBit_ofMagnitude hlt⟩
  rw [isNaN, magnitude_ofMagnitude hlt]
  exact decide_eq_false h.not_gt

/-- A decimal without a sign is rounded to a number without one. -/
theorem isUnsigned_ofDecimal (m : Nat) (e : Int) : (ofDecimal false m e).IsUnsigned := by
  have hratio (n d : Nat) : (ofRatio false n d).IsUnsigned :=
    isUnsigned_ofMagnitude (ratioMagnitude_le n d)
  unfold ofDecimal
  dsimp only
  split
  · exact isUnsigned_ofMagnitude (Nat.zero_le _)
  · split
    · exact isUnsigned_ofMagnitude (Nat.le_refl _)
    · split
      · exact isUnsigned_ofMagnitude (Nat.zero_le _)
      · split
        · exact hratio _ _
        · exact hratio _ _

end Binary64

theorem Decimal.isUnsigned_of_unsigned? {cs : List Char} {x : Binary64}
    (h : unsigned? false cs = some x) : x.IsUnsigned := by
  unfold unsigned? at h
  dsimp only at h
  split at h
  · cases h
  · split at h
    · cases h
      exact Binary64.isUnsigned_ofDecimal _ _
    · cases h

theorem Text.digit?_getD_lt (c : Char) : (digit? c).getD 0 < 10 := by
  cases hc : digit? c with
  | none => decide
  | some d =>
      rw [Option.getD_some]
      unfold digit? at hc
      split at hc
      · split at hc
        · next hdigit =>
          cases hc
          have hrange := toNat_of_isDigit hdigit
          omega
        · cases hc
      · obtain ⟨z, hz, rfl⟩ := Option.map_eq_some_iff.1 hc
        have hrange := List.find?_some hz
        simp only [Bool.and_eq_true, decide_eq_true_eq] at hrange
        omega

/-- Digits have less value than their number allows. -/
theorem Text.digitsValue_lt (cs : List Char) : digitsValue cs < 10 ^ cs.length := by
  induction cs using List.reverseRecOn with
  | nil => decide
  | append_singleton cs c ih =>
      have hc := digit?_getD_lt c
      rw [digitsValue, List.foldl_concat, ← digitsValue, List.length_append, List.length_singleton,
        Nat.pow_succ]
      omega

namespace Formula

variable {s : String} {cs : List Char} {t : Token} {e : Formula} {n : Number}

/-- What literals there are in formulas that were read. -/
def IsRead : Number → Prop
  | .int k => 0 ≤ k ∧ k < 10 ^ wholeDigitLimit
  | .real x => x.IsUnsigned

theorem IsTokenOf.isRead (h : IsTokenOf cs t) (hkind : t.kind = .number)
    (hvalue : numberValue? t.text = some n) : IsRead n := by
  obtain ⟨x, hx, hreal⟩ | ⟨-, hwhole⟩ := h.number hkind
  · cases hreal.symm.trans hvalue
    obtain ⟨w, htext, hw⟩ := h.at.isNumberText hkind
    rw [htext, hw.readReal?_eq] at hx
    exact Decimal.isUnsigned_of_unsigned? hx
  · rw [hwhole] at hvalue
    split at hvalue
    · cases hvalue
    · next hshort =>
      cases hvalue
      have hlt := digitsValue_lt t.text.toList
      rw [String.length_toList] at hlt
      have hlimit : 10 ^ t.text.length ≤ 10 ^ wholeDigitLimit :=
        Nat.pow_le_pow_right (by decide) (Nat.not_lt.1 hshort)
      exact ⟨Int.natCast_nonneg _, by exact_mod_cast hlt.trans_le hlimit⟩

/-- A formula that was read can be written so that it is read, and its literals are of that
kind. -/
theorem legible_of_parse (h : parse s = .ok e) :
    e.Everywhere Legible ∧ ∀ n ∈ e.literals, IsRead n := by
  obtain ⟨ts, htokens, hsum⟩ := parseWith_eq_ok_iff.1 h
  have hnamed := named_of_tokensFrom htokens
  have htoken (t : Token) (ht : t ∈ ts) : IsTokenOf s.toList t :=
    ⟨ts, _, tokenize_eq_ok_iff.2 ⟨ts, htokens, rfl⟩, ht⟩
  constructor
  · intro part hpart
    have hderived := hsum.derived part hpart
    cases part with
    | number n => trivial
    | constant c => exact hderived.2
    | var x =>
        obtain ⟨⟨t, ht, hkind, rfl⟩, hx⟩ := hderived
        exact ⟨hnamed t ht hkind, hx⟩
    | group e => trivial
    | unary op e => exact hderived
    | binary op l r => exact hderived
    | call f args =>
        obtain ⟨g, hg, harity⟩ := accepts_formulas_iff.1 hderived
        exact Option.map_eq_some_iff.2 ⟨g, hg, harity⟩
  · intro n hn
    obtain ⟨t, ht, hkind, hvalue⟩ := hsum.derived _ ((mem_literals_iff n e).1 hn)
    exact (htoken t ht).isRead hkind hvalue

/-! ### What is written of it -/

theorem same_literalReading_iff (h : IsRead n) :
    (literalReading n).sameKey (number n) = true ↔ n.isFinite = true := by
  cases n with
  | int k =>
      rw [literalReading, if_neg (not_lt.2 h.1)]
      simp [Number.isFinite]
  | real x =>
      obtain ⟨hnan, hs⟩ := h
      rw [literalReading, hnan, hs, if_neg Bool.false_ne_true, if_neg Bool.false_ne_true,
        sizeReading]
      split
      · next hinfinite =>
        have hfinite : ¬x.isFinite = true := fun hx => Bool.false_ne_true
          ((Binary64.isInfinite_eq_false_of_isFinite hx).symm.trans hinfinite)
        exact iff_of_false Bool.false_ne_true hfinite
      · next hinfinite =>
        have hfinite := (Binary64.isInfinite_or_isFinite hnan).resolve_left hinfinite
        exact iff_of_true (sameKey_self _) hfinite

theorem isNegativeZero_of_isRead (h : ∀ n ∈ e.literals, IsRead n) : e.isNegativeZero = false := by
  unfold isNegativeZero
  split
  · next x =>
    obtain ⟨-, hs⟩ : IsRead (.real x) := h _ (by simp [literals])
    rw [hs, Bool.false_and]
  · rfl

/-- Written and read again, a formula that was read is the same just if it holds no infinity. -/
theorem sameKey_reading_iff (h : ∀ n ∈ e.literals, IsRead n) :
    e.reading.sameKey e = true ↔ ∀ n ∈ e.literals, n.isFinite = true := by
  induction e with
  | number n =>
      simpa [reading, literals] using same_literalReading_iff (h n (by simp [literals]))
  | constant c => simp [reading, literals]
  | var x => simp [reading, literals]
  | group e ih => exact ih h
  | unary op e ih => simpa [reading, sameKey, key, same, literals] using ih h
  | binary op l r ihl ihr =>
      simp only [literals, List.mem_append, or_imp, forall_and] at h ⊢
      rw [← ihl h.1, ← ihr h.2, reading, isNegativeZero_of_isRead h.1]
      simp [sameKey, key, same]
  | call f args ih =>
      simp only [literals, literalsAll_eq, List.mem_flatMap] at h ⊢
      have hargs : ∀ a ∈ args, a.reading.sameKey a = true ↔
          ∀ n ∈ a.literals, n.isFinite = true := fun a ha => ih a ha fun n hn => h n ⟨a, ha, hn⟩
      simp only [sameKey] at hargs
      simp only [reading, readingAll_eq, sameKey, key, keyAll_eq, same, sameAll_iff, List.map_map,
        List.forall₂_map_left_iff, List.forall₂_map_right_iff, List.forall₂_same, beq_self_eq_true,
        Bool.true_and, Function.comp_apply]
      constructor
      · rintro hall n ⟨a, ha, hn⟩
        exact (hargs a ha).1 (hall a ha) n hn
      · exact fun hall a ha => (hargs a ha).2 fun n hn => hall n ⟨a, ha, hn⟩

/-- The text of a formula is read, and as the formula itself just if it holds no infinity. -/
def Recovers (e : Formula) : Prop :=
  ∃ d, e.ReadBack d ∧ (d.sameKey e = true ↔ ∀ n ∈ e.literals, n.isFinite = true)

theorem recovers_of_legible (he : e.Everywhere Legible) (h : ∀ n ∈ e.literals, IsRead n) :
    e.Recovers := by
  have hwhole (k : Int) (hk : .int k ∈ e.literals) : k.natAbs < 10 ^ wholeDigitLimit := by
    obtain ⟨hpos, hlt⟩ : IsRead (.int k) := h _ hk
    lift k to Nat using hpos
    exact_mod_cast hlt
  obtain ⟨d, hd, hkey⟩ := exists_readBack he hwhole
  refine ⟨d, hd, ?_⟩
  rw [← sameKey_reading_iff h, sameKey, sameKey, hkey]

end Formula

end Gantry
