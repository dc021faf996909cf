import Gantry.Proofs.Formula.Lookahead
import Gantry.Proofs.Formula.Scanning

/-!
How reading a formula fails. The failure names the text and a place in it: the first character
that cannot be split off, a token that is out of place, or the end of the text. There is no place
just when the text is blank. Whole numbers that are too long are the one exception to the kind of
failure; no other number token is without a value.
-/

namespace Gantry.Formula

open Text

/-- What stands before `p` is the longest beginning of a text that is split into tokens. -/
def BreaksAt (cs : List Char) (p : Nat) : Prop :=
  p < cs.length ∧ (∃ ts, tokenize (cs.take p) = .ok ts) ∧
    ∀ q, p < q → tokenize (cs.take q) = .error p

/-- A token of a text, other than the end token. -/
def IsTokenOf (cs : List Char) (t : Token) : Prop :=
  ∃ ts last, tokenize cs = .ok (ts ++ [last]) ∧ t ∈ ts

variable {σ : Signature} {cs : List Char} {s : String} {t : Token} {p : Nat}

theorem tokenize_eq_ok_iff {ts : List Token} : tokenize cs = .ok ts ↔
    ∃ us, tokensFrom 0 cs = .ok us ∧ ts = us ++ [⟨.stop, "", textEnd cs⟩] := by
  rw [tokenize]
  cases tokensFrom 0 cs <;> simp [Except.map, eq_comm]

theorem tokenize_eq_error_iff : tokenize cs = .error p ↔ tokensFrom 0 cs = .error p := by
  rw [tokenize]
  cases tokensFrom 0 cs <;> simp [Except.map]

theorem breaksAt_of_tokensFrom (h : tokensFrom 0 cs = .error p) : BreaksAt cs p := by
  obtain ⟨k, hk, hlt, ⟨ts, hts⟩, hfail⟩ := tokensFrom_eq_error h
  rw [Nat.zero_add] at hk
  subst hk
  exact ⟨hlt, ⟨_, tokenize_eq_ok_iff.2 ⟨ts, hts, rfl⟩⟩,
    fun q hq => tokenize_eq_error_iff.2 (hfail q hq)⟩

theorem IsTokenOf.at (h : IsTokenOf cs t) : t.At cs := by
  obtain ⟨ts, last, htokens, ht⟩ := h
  obtain ⟨us, hus, heq⟩ := tokenize_eq_ok_iff.1 htokens
  rw [(List.append_inj' heq rfl).1] at ht
  exact at_of_tokensFrom hus ht

/-- A number token is text of a number. -/
theorem Token.At.isNumberText (h : t.At cs) (hkind : t.kind = .number) :
    ∃ w, t.text = String.ofList w ∧ IsNumberText w := by
  obtain ⟨n, hfront, htext⟩ := h
  rw [hkind] at hfront htext
  obtain ⟨hpos, rfl⟩ := numberLength_of_front? hfront
  exact ⟨_, by rw [htext, tokenText, if_neg (by simp)], isNumberText_take hpos⟩

/-- A number token has a value, unless it is all digits and too many of them. -/
theorem IsTokenOf.number (h : IsTokenOf cs t) (hkind : t.kind = .number) :
    (∃ x, Decimal.readReal? t.text = some x ∧ numberValue? t.text = some (.real x)) ∨
      (∀ c ∈ t.text.toList, isDigit c = true) ∧ numberValue? t.text =
        if wholeDigitLimit < t.text.length then none
        else some (.int (digitsValue t.text.toList)) := by
  obtain ⟨w, htext, hw⟩ := h.at.isNumberText hkind
  rw [htext, numberValue?, String.toList_ofList]
  cases hmark : w.any fun c => c == '.' || c == 'e' || c == 'E' with
  | true =>
      obtain ⟨x, hx⟩ := Option.isSome_iff_exists.1 hw.readReal?
      exact .inl ⟨x, hx, by rw [if_pos rfl, hx, Option.getD_some]⟩
  | false => exact .inr ⟨hw.digits hmark, if_neg Bool.false_ne_true⟩

theorem IsTokenOf.of_numberTooLong (h : IsTokenOf cs t) (hkind : t.kind = .number)
    (hvalue : numberValue? t.text = none) :
    (∀ c ∈ t.text.toList, isDigit c = true) ∧ wholeDigitLimit < t.text.length := by
  obtain ⟨x, -, hx⟩ | ⟨hdigits, hx⟩ := h.number hkind
  · cases hvalue.symm.trans hx
  · refine ⟨hdigits, ?_⟩
    by_contra hshort
    rw [if_neg hshort] at hx
    cases hvalue.symm.trans hx

/-- A failure is one to read, unless a number token is too long. -/
theorem fault_of_blames {cause : ParseCause} (hcause : Blames σ t cause) (htoken : t.kind ≠ .stop →
    IsTokenOf cs t) (formula : String) (position : Option Nat) :
    (⟨formula, cause, position⟩ : ParseFailure).fault =
        .parse (⟨formula, cause, position⟩ : ParseFailure).message formula position ∨
      (⟨formula, cause, position⟩ : ParseFailure).fault = .value none ∧ IsTokenOf cs t ∧
        t.kind = .number ∧ (∀ c ∈ t.text.toList, isDigit c = true) ∧
        wholeDigitLimit < t.text.length := by
  cases hcause with
  | numberTooLong hkind hvalue =>
      have ht : IsTokenOf cs t := htoken (by simp [hkind])
      exact .inr ⟨rfl, ht, hkind, ht.of_numberTooLong hkind hvalue⟩
  | _ => exact .inl rfl

/-- What comes of a text: it breaks off, it is read, it is blank, or a token is to blame. -/
theorem parseWith_cases (σ : Signature) (s : String) :
    (∃ p, BreaksAt s.toList p ∧ parseWith σ s = .error ⟨s, .badCharacter, some p⟩) ∨
      (∃ e, parseWith σ s = .ok e) ∨
      ((∀ c ∈ s.toList, isBlank c = true) ∧ parseWith σ s = .error ⟨s, .empty, none⟩) ∨
      ∃ t cause, Blames σ t cause ∧ parseWith σ s = .error ⟨s, cause, some t.position⟩ ∧
        (IsTokenOf s.toList t ∨
          t.kind = .stop ∧ t.position = (s.toList.rdropWhile isBlank).length) := by
  cases htokens : tokensFrom 0 s.toList with
  | error p =>
      refine .inl ⟨p, breaksAt_of_tokensFrom htokens, ?_⟩
      rw [parseWith, tokenize_eq_error_iff.2 htokens]
  | ok ts =>
      have hok : tokenize s.toList = .ok (ts ++ [⟨.stop, "", textEnd s.toList⟩]) :=
        tokenize_eq_ok_iff.2 ⟨ts, htokens, rfl⟩
      rw [parseWith, hok]
      dsimp only
      obtain ⟨rfl, hempty⟩ | ⟨e, he⟩ | ⟨f, ⟨t, ht, hcause, hposition⟩, hf⟩ :=
        parseTokens_settled (σ := σ) (u := ⟨.stop, "", textEnd s.toList⟩)
          (kind_ne_stop_of_tokensFrom htokens) rfl
      · refine .inr (.inr (.inl ⟨tokensFrom_eq_nil_iff.1 htokens, ?_⟩))
        rw [hempty []]
        rfl
      · exact .inr (.inl ⟨e, by rw [he []]⟩)
      · have hnone : f.cause ≠ .empty := by
          intro h
          rw [h] at hcause
          cases hcause
        refine .inr (.inr (.inr ⟨t, f.cause, hcause, ?_, ?_⟩))
        · rw [hf [], ← hposition]
          exact congrArg _ (congrArg _ (if_neg hnone))
        · rw [List.mem_append, List.mem_singleton] at ht
          obtain ht | rfl := ht
          · exact .inl ⟨ts, _, hok, ht⟩
          · exact .inr ⟨rfl, textEnd_eq _⟩

/-- What stands behind the end token is not looked at. -/
theorem parseTokens_append {ts : List Token} (h : tokenize cs = .ok ts) (more : List Token) :
    parseTokens σ (ts ++ more) = parseTokens σ ts := by
  obtain ⟨us, hus, rfl⟩ := tokenize_eq_ok_iff.1 h
  rw [List.append_assoc, List.singleton_append]
  obtain ⟨-, hempty⟩ | ⟨e, he⟩ | ⟨f, -, hf⟩ :=
    parseTokens_settled (σ := σ) (u := ⟨.stop, "", textEnd cs⟩) (kind_ne_stop_of_tokensFrom hus) rfl
  · rw [hempty more, hempty []]
  · rw [he more, he []]
  · rw [hf more, hf []]

theorem position_eq_none_iff :
    (∃ f, parseWith σ s = .error f ∧ f.position = none) ↔ ∀ c ∈ s.toList, isBlank c = true := by
  constructor
  · rintro ⟨f, hf, hposition⟩
    obtain ⟨p, -, h⟩ | ⟨e, h⟩ | ⟨hblank, -⟩ | ⟨t, cause, -, h, -⟩ := parseWith_cases σ s
    · cases hf.symm.trans h
      cases hposition
    · cases hf.symm.trans h
    · exact hblank
    · cases hf.symm.trans h
      cases hposition
  · intro hblank
    refine ⟨⟨s, .empty, none⟩, ?_, rfl⟩
    rw [parseWith, tokenize, tokensFrom_eq_nil_iff.2 hblank]
    rfl

/-- A failure names the text, and the place of the first character that cannot be split off, of a
token or of the end of the text. It is a failure to read, unless a whole number is too long. There
is no place just when the text is blank. The tokens behind the end token are never looked at, and
only numbers that are too long have no value. -/
theorem parse_fails_in_place (s : String) :
    (∀ f, parse s = .error f → f.formula = s ∧
      (f.fault = .parse f.message s f.position ∨ f.fault = .value none ∧
        ∃ t, IsTokenOf s.toList t ∧ f.position = some t.position ∧ t.kind = .number ∧
          (∀ c ∈ t.text.toList, isDigit c = true) ∧ wholeDigitLimit < t.text.length) ∧
      ∀ p ∈ f.position, BreaksAt s.toList p ∨
        (∃ t, IsTokenOf s.toList t ∧ t.At s.toList ∧ p = t.position) ∨
        p = (s.toList.rdropWhile isBlank).length) ∧
    ((∃ f, parse s = .error f ∧ f.position = none) ↔ ∀ c ∈ s.toList, isBlank c = true) ∧
    (∀ ts, tokenize s.toList = .ok ts →
      ∀ more, parseTokens .formulas (ts ++ more) = parseTokens .formulas ts) ∧
    ∀ t, IsTokenOf s.toList t → t.kind = .number →
      (∃ x, Decimal.readReal? t.text = some x ∧ numberValue? t.text = some (.real x)) ∨
        (∀ c ∈ t.text.toList, isDigit c = true) ∧ numberValue? t.text =
          if wholeDigitLimit < t.text.length then none
          else some (.int (digitsValue t.text.toList)) := by
  refine ⟨fun f hf => ?_, position_eq_none_iff, fun ts hts => parseTokens_append hts,
    fun t => IsTokenOf.number⟩
  obtain ⟨p, hp, h⟩ | ⟨e, h⟩ | ⟨hblank, h⟩ | ⟨t, cause, hcause, h, ht⟩ :=
    parseWith_cases .formulas s
  · cases hf.symm.trans h
    refine ⟨rfl, .inl rfl, ?_⟩
    rintro _ ⟨⟩
    exact .inl hp
  · cases hf.symm.trans h
  · cases hf.symm.trans h
    refine ⟨rfl, .inl rfl, ?_⟩
    rintro _ ⟨⟩
  · cases hf.symm.trans h
    have htoken (hkind : t.kind ≠ .stop) : IsTokenOf s.toList t :=
      ht.resolve_right fun h => hkind h.1
    refine ⟨rfl, (fault_of_blames hcause htoken s _).imp_right ?_, ?_⟩
    · rintro ⟨hvalue, ht, hnumber⟩
      exact ⟨hvalue, t, ht, rfl, hnumber⟩
    · rintro _ ⟨⟩
      exact .inr (ht.imp (fun ht => ⟨t, ht, ht.at, rfl⟩) fun ht => ht.2)

end Gantry.Formula
