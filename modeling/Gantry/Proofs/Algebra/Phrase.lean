import Mathlib.Tactic.Ring
import Gantry.Proofs.Formula.Arithmetic
import Gantry.Proofs.Formula.RoundTrip
import Gantry.Proofs.Memo.Capture

/-!
Phrases of arithmetic: texts that are read as formulas with a known exact
value. Names and numerals are such phrases, and they are put together by signs,
operators and parentheses. A numeral may have more digits than are read, so a
phrase says what becomes of it if all its numerals have a value.
-/

namespace Gantry

open Formula (Token HasLevel IsSum IsProduct IsSigned IsPower IsAtom Spells)
open Memo.Table (Operable)

variable {N : String → Prop} {s : String → ℚ} {v w : (String → ℚ) → ℚ} {f g : Formula}
  {ts us : List Token} {t : Token} {cs ds : List Char} {ks : List ℕ}

/-! ### Exact values of formulas -/

namespace Formula

/-- The exact value of a formula, every variable having one. -/
def exactAt (s : String → ℚ) (f : Formula) : Except Unit ℚ :=
  f.evaluateOver Arithmetic.exact fun x => some (s x)

theorem exactAt_neg {q : ℚ} (hf : f.exactAt s = .ok q) : (unary "-" f).exactAt s = .ok (-q) := by
  rw [exactAt] at hf
  rw [exactAt, evaluateOver, hf]
  rfl

theorem exactAt_binary {op : String} {p q : ℚ} (hf : f.exactAt s = .ok p)
    (hg : g.exactAt s = .ok q) :
    (binary op f g).exactAt s = (Arithmetic.exact.binary op).bind fun h => h p q := by
  rw [exactAt] at hf hg
  rw [exactAt, evaluateOver, hf, hg]
  rfl

theorem exists_of_exactAt_binary {op : String} {q : ℚ} (h : (binary op f g).exactAt s = .ok q) :
    ∃ p r, f.exactAt s = .ok p ∧ g.exactAt s = .ok r ∧
      ((Arithmetic.exact.binary op).bind fun h => h p r) = .ok q := by
  rw [exactAt, evaluateOver] at h
  obtain ⟨o, ho, h⟩ := bind_eq_ok_iff.1 h
  obtain ⟨p, hp, h⟩ := bind_eq_ok_iff.1 h
  obtain ⟨r, hr, h⟩ := bind_eq_ok_iff.1 h
  exact ⟨p, r, hp, hr, by rw [ho]; exact h⟩

end Formula

/-- Formulas of whole literals with a given exact value. -/
structure Formula.Means (N : String → Prop) (f : Formula) (v : (String → ℚ) → ℚ) : Prop where
  value : ∀ s, f.exactAt s = .ok (v s)
  names : ∀ x ∈ f.occurrences, N x
  whole : ∀ n ∈ f.literals, n.isWhole = true

open Formula (Means)

theorem means_numeral (k : ℕ) : Means N (.number (.int k)) fun _ => (k : ℚ) where
  value _ := by simp [Formula.exactAt, Formula.evaluateOver, Arithmetic.exact]
  names := by simp [Formula.occurrences]
  whole := by simp [Formula.literals, Number.isWhole]

theorem means_variable {x : String} (hx : N x) : Means N (.variable x) fun s => s x where
  value _ := rfl
  names := by simpa [Formula.occurrences]
  whole := by simp [Formula.literals]

theorem means_group (hf : Means N f v) : Means N (.group f) v := ⟨hf.value, hf.names, hf.whole⟩

theorem means_binary {u : (String → ℚ) → ℚ} {op : String} (hf : Means N f v) (hg : Means N g w)
    (h : ∀ s, (Formula.binary op f g).exactAt s = .ok (u s)) : Means N (.binary op f g) u where
  value := h
  names x hx := (List.mem_append.1 hx).elim (hf.names x) (hg.names x)
  whole n hn := (List.mem_append.1 hn).elim (hf.whole n) (hg.whole n)

theorem means_add (hf : Means N f v) (hg : Means N g w) :
    Means N (.binary "+" f g) fun s => v s + w s :=
  means_binary hf hg fun s => Formula.exactAt_binary (hf.value s) (hg.value s)

theorem means_sub (hf : Means N f v) (hg : Means N g w) :
    Means N (.binary "-" f g) fun s => v s - w s :=
  means_binary hf hg fun s => Formula.exactAt_binary (hf.value s) (hg.value s)

theorem means_mul (hf : Means N f v) (hg : Means N g w) :
    Means N (.binary "*" f g) fun s => v s * w s :=
  means_binary hf hg fun s => Formula.exactAt_binary (hf.value s) (hg.value s)

theorem means_div (hf : Means N f v) (hg : Means N g w) (hw : ∀ s, w s ≠ 0) :
    Means N (.binary "/" f g) fun s => v s / w s :=
  means_binary hf hg fun s => by
    rw [Formula.exactAt_binary (hf.value s) (hg.value s)]
    exact if_neg (hw s)

theorem means_quotient {k : ℕ} (hf : Means N f v) (hk : k ≠ 0) :
    Means N (.binary "/" f (.number (.int k))) fun s => v s / k :=
  means_div hf (means_numeral k) fun _ => Nat.cast_ne_zero.2 hk

theorem means_pow {n : ℕ} (hf : Means N f v) (hg : Means N g fun _ => (n : ℚ)) :
    Means N (.binary "^" f g) fun s => v s ^ n :=
  means_binary hf hg fun s => by
    rw [Formula.exactAt_binary (hf.value s) (hg.value s)]
    refine (if_pos ⟨Rat.den_natCast n, .inr (Nat.cast_nonneg n)⟩).trans ?_
    rw [Rat.num_natCast, zpow_natCast]

/-! ### Numerals among tokens -/

namespace Formula

/-- Whether all number tokens have a property. -/
def Numbers (p : String → Prop) (ts : List Token) : Prop := ∀ t ∈ ts, t.kind = .number → p t.text

variable {p : String → Prop}

@[simp] theorem numbers_nil : Numbers p [] := fun _ ht => absurd ht List.not_mem_nil

@[simp] theorem numbers_append : Numbers p (ts ++ us) ↔ Numbers p ts ∧ Numbers p us := by
  simp only [Numbers, List.mem_append, or_imp, forall_and]

@[simp] theorem numbers_cons : Numbers p (t :: ts) ↔ (t.kind = .number → p t.text) ∧ Numbers p ts := by
  simp only [Numbers, List.mem_cons, forall_eq_or_imp]

theorem Token.Is.numbers_cons {x : String} (h : t.Is x) : Numbers p (t :: ts) ↔ Numbers p ts := by
  simp [h.1]

/-- Whether a number token has a value. -/
def HasNumber (x : String) : Prop := (numberValue? x).isSome = true

/-- Whether a text is a numeral of one of some numbers, which has a value unless it is too long. -/
def IsNumeral (ks : List ℕ) (x : String) : Prop :=
  ∃ k ∈ ks, numberValue? x = if k < 10 ^ wholeDigitLimit then some (.int k) else none

theorem everywhere_operable_unary {t : Token} (ht : t.Is "-" ∨ t.Is "+")
    (hf : f.Everywhere Operable) : (unary t.text f).Everywhere Operable := by
  refine (everywhere_iff _ _).2 ⟨?_, by simpa [children]⟩
  obtain ⟨-, ht⟩ | ⟨-, ht⟩ := ht <;> rw [ht] <;> rfl

theorem everywhere_operable_binary {op : String} (hop : (BinaryOp.ofSymbol? op).isSome = true)
    (hf : f.Everywhere Operable) (hg : g.Everywhere Operable) :
    (binary op f g).Everywhere Operable :=
  (everywhere_iff _ _).2 ⟨hop, by simpa [children] using ⟨hf, hg⟩⟩

theorem isSome_ofSymbol? {op op' : String} (hop : (BinaryOp.ofSymbol? op).isSome = true)
    (hop' : (BinaryOp.ofSymbol? op').isSome = true) (ht : t.Is op ∨ t.Is op') :
    (BinaryOp.ofSymbol? t.text).isSome = true := by
  obtain ⟨-, ht⟩ | ⟨-, ht⟩ := ht <;> rwa [ht]

theorem Token.numbers_cons_of_or {x y : String} (h : t.Is x ∨ t.Is y) :
    Numbers p (t :: ts) ↔ Numbers p ts :=
  h.elim Token.Is.numbers_cons Token.Is.numbers_cons

section

variable {σ : Signature}

mutual

/-- What is derived is made of number tokens that have a value and operators
that mean something. -/
theorem numbers_of_isSum : ∀ {ts : List Token} {e : Formula}, IsSum σ ts e →
    Numbers HasNumber ts ∧ e.Everywhere Operable
  | _, _, .product h => numbers_of_isProduct h
  | _, _, .term ha ht hb => by
      obtain ⟨hnumbers, hoperable⟩ := numbers_of_isSum ha
      obtain ⟨hnumbers', hoperable'⟩ := numbers_of_isProduct hb
      rw [numbers_append, Token.numbers_cons_of_or ht]
      exact ⟨⟨hnumbers, hnumbers'⟩,
        everywhere_operable_binary (isSome_ofSymbol? rfl rfl ht) hoperable hoperable'⟩

theorem numbers_of_isProduct : ∀ {ts : List Token} {e : Formula}, IsProduct σ ts e →
    Numbers HasNumber ts ∧ e.Everywhere Operable
  | _, _, .signed h => numbers_of_isSigned h
  | _, _, .factor ha ht hb => by
      obtain ⟨hnumbers, hoperable⟩ := numbers_of_isProduct ha
      obtain ⟨hnumbers', hoperable'⟩ := numbers_of_isSigned hb
      rw [numbers_append, Token.numbers_cons_of_or ht]
      exact ⟨⟨hnumbers, hnumbers'⟩,
        everywhere_operable_binary (isSome_ofSymbol? rfl rfl ht) hoperable hoperable'⟩

theorem numbers_of_isSigned : ∀ {ts : List Token} {e : Formula}, IsSigned σ ts e →
    Numbers HasNumber ts ∧ e.Everywhere Operable
  | _, _, .power h => numbers_of_isPower h
  | _, _, .sign ht h => by
      obtain ⟨hnumbers, hoperable⟩ := numbers_of_isSigned h
      rw [Token.numbers_cons_of_or ht]
      exact ⟨hnumbers, everywhere_operable_unary ht hoperable⟩

theorem numbers_of_isPower : ∀ {ts : List Token} {e : Formula}, IsPower σ ts e →
    Numbers HasNumber ts ∧ e.Everywhere Operable
  | _, _, .atom h => numbers_of_isAtom h
  | _, _, .power ha ht hb => by
      obtain ⟨hnumbers, hoperable⟩ := numbers_of_isAtom ha
      obtain ⟨hnumbers', hoperable'⟩ := numbers_of_isSigned hb
      rw [numbers_append, ht.numbers_cons]
      exact ⟨⟨hnumbers, hnumbers'⟩, everywhere_operable_binary rfl hoperable hoperable'⟩

theorem numbers_of_isAtom : ∀ {ts : List Token} {e : Formula}, IsAtom σ ts e →
    Numbers HasNumber ts ∧ e.Everywhere Operable
  | _, _, .number hkind hn =>
      ⟨by simp [HasNumber, hn], (everywhere_iff _ _).2 ⟨trivial, by simp [children]⟩⟩
  | _, _, .constant hkind _ =>
      ⟨by simp [hkind], (everywhere_iff _ _).2 ⟨trivial, by simp [children]⟩⟩
  | _, _, .var hkind _ =>
      ⟨by simp [hkind], (everywhere_iff _ _).2 ⟨trivial, by simp [children]⟩⟩
  | _, _, .group hp h hq => by
      obtain ⟨hnumbers, hoperable⟩ := numbers_of_isSum h
      rw [hp.numbers_cons, numbers_append, hq.numbers_cons]
      exact ⟨⟨hnumbers, numbers_nil⟩, (everywhere_iff _ _).2 ⟨trivial, by simpa [children]⟩⟩
  | _, _, .call hkind hp h hq _ => by
      obtain ⟨hnumbers, hoperable⟩ := numbers_of_areArguments h
      rw [numbers_cons, hp.numbers_cons, numbers_append, hq.numbers_cons]
      exact ⟨⟨by simp [hkind], hnumbers, numbers_nil⟩, (everywhere_iff _ _).2 ⟨trivial, hoperable⟩⟩

theorem numbers_of_areArguments : ∀ {ts : List Token} {args : List Formula},
    AreArguments σ ts args → Numbers HasNumber ts ∧ ∀ a ∈ args, a.Everywhere Operable
  | _, _, .none => ⟨numbers_nil, by simp⟩
  | _, _, .last h => by simpa using numbers_of_isSum h
  | _, _, .more ha ht hb => by
      obtain ⟨hnumbers, hoperable⟩ := numbers_of_isSum ha
      obtain ⟨hnumbers', hoperable'⟩ := numbers_of_areArguments hb
      rw [numbers_append, ht.numbers_cons]
      exact ⟨⟨hnumbers, hnumbers'⟩, List.forall_mem_cons.2 ⟨hoperable, hoperable'⟩⟩

end

end

/-! ### What follows a phrase -/

/-- Behind a phrase stands nothing or something that no name or numeral goes on with. -/
def Stops (rest : List Char) : Prop :=
  ∀ c ∈ rest.head?, c = ' ' ∨ c = ')' ∨ c = ',' ∨ c = '*' ∨ c = '/'

theorem Stops.endsNumber {rest : List Char} (h : Stops rest) : EndsNumber rest := by
  intro c hc
  obtain rfl | rfl | rfl | rfl | rfl := h c hc <;> decide

theorem Stops.endsName {rest : List Char} (h : Stops rest) : EndsName rest := by
  intro c hc
  obtain rfl | rfl | rfl | rfl | rfl := h c hc <;> decide

theorem Closed.stops {rest : List Char} (h : Closed rest) : Stops rest := by
  intro c hc
  obtain rfl | rfl | rfl := h c hc <;> decide

theorem stops_cons {c : Char} {rest : List Char} (h : c = ' ' ∨ c = ')' ∨ c = ',' ∨ c = '*' ∨ c = '/') :
    Stops (c :: rest) := by
  rintro _ ⟨⟩
  exact h

/-! ### Phrases -/

/-- A text that is read, at a level of the grammar, as a formula with some property. -/
def Phrase (ks : List ℕ) (level : Nat) (P : Formula → Prop) (cs : List Char) : Prop :=
  Spells Stops cs fun ts => Numbers (IsNumeral ks) ts ∧
    (Numbers HasNumber ts → ∃ f, HasLevel .formulas level ts f ∧ P f)

variable {m n : Nat} {P Q R : Formula → Prop}

theorem Phrase.mono (h : Phrase ks m P cs) (hle : n ≤ m) (hP : ∀ f, P f → Q f) :
    Phrase ks n Q cs := by
  refine Spells.mono h (fun _ h => h) fun ts hts => ⟨hts.1, fun hnumbers => ?_⟩
  obtain ⟨f, hf, hmeans⟩ := hts.2 hnumbers
  exact ⟨f, hf.mono hle, hP f hmeans⟩

theorem Phrase.loosen (h : Phrase ks m P cs) (hle : n ≤ m) : Phrase ks n P cs :=
  h.mono hle fun _ h => h

theorem phrase_variable {x : String} (hname : isName x = true) (hx : constant? x = none) :
    Phrase ks atomLevel (· = .variable x) x.toList := by
  refine (spells_name hname).mono (fun _ h => h.endsName) ?_
  rintro ts ⟨t, rfl, hkind, rfl⟩
  exact ⟨by simp [hkind], fun _ => ⟨_, hasLevel_of_isAtom (.var hkind hx) _, rfl⟩⟩

theorem phrase_name {x : String} (hname : isName x = true) (hx : constant? x = none) (hN : N x) :
    Phrase ks atomLevel (Means N · fun s => s x) x.toList :=
  (phrase_variable hname hx).mono le_rfl fun _ hf => hf ▸ means_variable hN

theorem phrase_literal {k : ℕ} (hk : k ∈ ks) :
    Phrase ks atomLevel (· = .number (.int k)) (toString k).toList := by
  refine (spells_toString k).mono (fun _ h => h.endsNumber) ?_
  rintro ts ⟨t, rfl, hkind, hvalue⟩
  refine ⟨by simpa using fun _ => ⟨k, hk, hvalue⟩, fun hnumbers => ?_⟩
  have hsome : (numberValue? t.text).isSome = true := hnumbers t List.mem_cons_self hkind
  have hshort : k < 10 ^ wholeDigitLimit := by
    by_contra hlong
    simp [hvalue, hlong] at hsome
  rw [if_pos hshort] at hvalue
  exact ⟨_, hasLevel_of_isAtom (.number hkind hvalue) _, rfl⟩

theorem phrase_numeral {k : ℕ} (hk : k ∈ ks) :
    Phrase ks atomLevel (Means N · fun _ => (k : ℚ)) (toString k).toList :=
  (phrase_literal hk).mono le_rfl fun _ hf => hf ▸ means_numeral k

theorem phrase_group (h : Phrase ks sumLevel P cs) (hQ : ∀ {f}, P f → Q (.group f)) :
    Phrase ks atomLevel Q (enclose cs) := by
  refine (Spells.enclose (F := Stops) (Spells.mono h (fun _ h => h.stops) fun _ h => h)).mono
    (fun _ h => h) ?_
  rintro ts ⟨p, us, q, rfl, hp, ⟨hnumerals, hread⟩, hq⟩
  refine ⟨?_, fun hnumbers => ?_⟩
  · rw [hp.numbers_cons, numbers_append, hq.numbers_cons]
    exact ⟨hnumerals, numbers_nil⟩
  · rw [hp.numbers_cons, numbers_append] at hnumbers
    obtain ⟨f, hf, hP⟩ := hread hnumbers.1
    exact ⟨_, hasLevel_of_isAtom (.group hp hf.isSum hq) _, hQ hP⟩

/-- Two phrases with an operator between them. -/
theorem phrase_binary {outer l r : Nat} {op : String} {os : List Char}
    (hcs : Phrase ks l P cs) (hds : Phrase ks r Q ds)
    (hop : Spells (fun rest => ∃ rest', rest = ds ++ rest') os fun ts => ∃ t : Token, ts = [t] ∧ t.Is op)
    (hstops : ∀ rest, Stops (os ++ rest))
    (hlevel : ∀ {ts us t f g}, HasLevel .formulas l ts f → t.Is op → HasLevel .formulas r us g →
      HasLevel .formulas outer (ts ++ t :: us) (.binary op f g))
    (hR : ∀ {f g}, P f → Q g → R (.binary op f g)) :
    Phrase ks outer R (cs ++ (os ++ ds)) := by
  have hrest := hop.append hds fun rest _ => ⟨rest, rfl⟩
  refine (Spells.append hcs hrest fun rest _ => List.append_assoc os ds rest ▸ hstops _).mono
    (fun _ h => h) ?_
  rintro _ ⟨ts, _, ⟨hnumerals, hread⟩, ⟨_, us, ⟨t, rfl, ht⟩, ⟨hnumerals', hread'⟩, rfl⟩, rfl⟩
  rw [List.singleton_append, numbers_append, ht.numbers_cons]
  refine ⟨⟨hnumerals, hnumerals'⟩, fun hnumbers => ?_⟩
  rw [numbers_append, ht.numbers_cons] at hnumbers
  obtain ⟨f, hf, hP⟩ := hread hnumbers.1
  obtain ⟨g, hg, hQ⟩ := hread' hnumbers.2
  exact ⟨_, hlevel hf ht hg, hR hP hQ⟩

/-- An operator with a blank on each side. -/
theorem spells_apart {F : List Char → Prop} {c : Char} (hc : isOperator c = true) :
    Spells F [' ', c, ' '] fun ts => ∃ t : Token, ts = [t] ∧ t.Is (String.ofList [c]) := by
  refine ((spells_operator hc).append spells_blank fun _ _ _ => by simp).blank.mono
    (fun _ _ => trivial) ?_
  rintro ts ⟨_, _, ⟨t, rfl, ht⟩, rfl, rfl⟩
  exact ⟨t, rfl, ht⟩

theorem phrase_add (hcs : Phrase ks sumLevel P cs) (hds : Phrase ks productLevel Q ds)
    (hR : ∀ {f g}, P f → Q g → R (.binary "+" f g)) :
    Phrase ks sumLevel R (cs ++ ([' ', '+', ' '] ++ ds)) :=
  phrase_binary hcs hds (spells_apart rfl) (fun _ => stops_cons (.inl rfl))
    (fun hf ht hg => hasLevel_binary rfl hf ht hg) hR

theorem phrase_sub (hcs : Phrase ks sumLevel P cs) (hds : Phrase ks productLevel Q ds)
    (hR : ∀ {f g}, P f → Q g → R (.binary "-" f g)) :
    Phrase ks sumLevel R (cs ++ ([' ', '-', ' '] ++ ds)) :=
  phrase_binary hcs hds (spells_apart rfl) (fun _ => stops_cons (.inl rfl))
    (fun hf ht hg => hasLevel_binary rfl hf ht hg) hR

theorem phrase_mul (hcs : Phrase ks productLevel P cs) (hds : Phrase ks powerLevel Q ds)
    (hstar : ∀ rest, (ds ++ rest).head? ≠ some '*')
    (hR : ∀ {f g}, P f → Q g → R (.binary "*" f g)) :
    Phrase ks productLevel R (cs ++ (['*'] ++ ds)) := by
  refine phrase_binary hcs (hds.loosen (by decide)) ?_
    (fun _ => stops_cons (.inr (.inr (.inr (.inl rfl)))))
    (fun hf ht hg => hasLevel_binary (rfl : operatorLevel? "*" = _) hf ht hg) hR
  refine (spells_operator (c := '*') rfl).mono ?_ fun _ h => h
  rintro _ ⟨rest, rfl⟩ -
  exact hstar rest

theorem phrase_div {k : ℕ} (hcs : Phrase ks productLevel P cs) (hk : k ∈ ks)
    (hR : ∀ {f}, P f → R (.binary "/" f (.number (.int k)))) :
    Phrase ks productLevel R (cs ++ (['/'] ++ (toString k).toList)) :=
  phrase_binary hcs ((phrase_literal hk).loosen (by decide))
    ((spells_operator (c := '/') rfl).mono (fun _ _ h => absurd h (by decide)) fun _ h => h)
    (fun _ => stops_cons (.inr (.inr (.inr (.inr rfl)))))
    (fun hf ht hg => hasLevel_binary rfl hf ht hg) fun hf hg => hg ▸ hR hf

theorem front?_doubleStar (rest : List Char) : front? ('*' :: '*' :: rest) = some (.op, 2) := by
  have hnumber : numberLength ('*' :: '*' :: rest) = 0 :=
    numberLength_eq_zero (by decide) (by decide) _
  rw [front?, hnumber]
  rfl

/-- A double star is the sign of a power. -/
theorem spells_doubleStar {F : List Char → Prop} :
    Spells F ['*', '*'] fun ts => ∃ t : Token, ts = [t] ∧ t.Is "^" := by
  refine (spells_word (by simp) (by simp; decide) fun rest _ => front?_doubleStar rest).mono
    (fun _ h => h) ?_
  rintro ts ⟨t, hts, hkind, htext⟩
  exact ⟨t, hts, hkind, htext⟩

theorem phrase_pow {k : ℕ} (hcs : Phrase ks atomLevel P cs) (hk : k ∈ ks)
    (hR : ∀ {f}, P f → R (.binary "^" f (.number (.int k)))) :
    Phrase ks powerLevel R (cs ++ (['*', '*'] ++ (toString k).toList)) :=
  phrase_binary hcs ((phrase_literal hk).loosen (by decide)) spells_doubleStar
    (fun _ => stops_cons (.inr (.inr (.inr (.inl rfl)))))
    (fun hf ht hg => hasLevel_binary rfl hf ht hg) fun hf hg => hg ▸ hR hf

/-- The sign stands before the first factor only. -/
theorem exists_negated {t : Token} (ht : t.Is "-") {ts : List Token} {f : Formula}
    (hf : IsProduct .formulas ts f) : ∃ g, IsProduct .formulas (t :: ts) g ∧
      (∀ s q, f.exactAt s = .ok q → g.exactAt s = .ok (-q)) ∧
      g.occurrences = f.occurrences ∧ g.literals = f.literals := by
  induction hf using IsProduct.induction with
  | signed h =>
      exact ⟨_, ht.2 ▸ .signed (.sign (.inl ht) h), fun s q => exactAt_neg, rfl, rfl⟩
  | factor ha hop hb ih =>
      obtain ⟨g, hg, hvalue, hnames, hliterals⟩ := ih
      refine ⟨_, hg.factor hop hb, fun s q hq => ?_, ?_, ?_⟩
      · obtain ⟨p, r, ha, hb, hr⟩ := exists_of_exactAt_binary hq
        rw [exactAt_binary (hvalue s p ha) hb]
        obtain ⟨-, hop⟩ | ⟨-, hop⟩ := hop <;> rw [hop] at hr ⊢
        · obtain rfl : p * r = q := Except.ok.inj hr
          exact congrArg Except.ok (neg_mul p r)
        · have hquotient : (if r = 0 then .error () else .ok (p / r)) = Except.ok q := hr
          refine (?_ : (if r = 0 then Except.error () else Except.ok (-p / r)) = Except.ok (-q))
          by_cases hzero : r = 0
          · rw [if_pos hzero] at hquotient
            cases hquotient
          · rw [if_neg hzero] at hquotient ⊢
            obtain rfl : p / r = q := Except.ok.inj hquotient
            rw [neg_div]
      · rw [occurrences, occurrences, hnames]
      · rw [literals, literals, hliterals]

theorem phrase_neg (h : Phrase ks productLevel (Means N · v) cs) :
    Phrase ks productLevel (Means N · fun s => -v s) ('-' :: cs) := by
  refine (Spells.behind (c := '-') rfl (by decide) h).mono (fun _ h => h) ?_
  rintro _ ⟨t, ts, rfl, ht, hnumerals, hread⟩
  rw [ht.numbers_cons]
  refine ⟨hnumerals, fun hnumbers => ?_⟩
  rw [ht.numbers_cons] at hnumbers
  obtain ⟨f, hf, hmeans⟩ := hread hnumbers
  obtain ⟨g, hg, hvalue, hnames, hliterals⟩ := exists_negated ht hf
  exact ⟨g, hg, fun s => hvalue s _ (hmeans.value s), hnames ▸ hmeans.names,
    hliterals ▸ hmeans.whole⟩

theorem phrase_minus (h : Phrase ks signLevel P cs) (hQ : ∀ {f}, P f → Q (.unary "-" f)) :
    Phrase ks signLevel Q ('-' :: cs) := by
  refine (Spells.behind (c := '-') rfl (by decide) h).mono (fun _ h => h) ?_
  rintro _ ⟨t, ts, rfl, ht, hnumerals, hread⟩
  rw [ht.numbers_cons]
  refine ⟨hnumerals, fun hnumbers => ?_⟩
  rw [ht.numbers_cons] at hnumbers
  obtain ⟨f, hf, hP⟩ := hread hnumbers
  have htext : t.text = "-" := ht.2
  have hsigned : IsSigned .formulas (t :: ts) (.unary t.text f) := .sign (.inl ht) hf
  rw [htext] at hsigned
  exact ⟨_, hsigned, hQ hP⟩

/-- Only a numeral with too many digits keeps a phrase from being read. -/
theorem parse_of_phrase {x : String} (h : Phrase ks sumLevel P x.toList) :
    (∀ f, parse x = .ok f → P f ∧ f.Everywhere Operable) ∧
      ((∀ k ∈ ks, k < 10 ^ wholeDigitLimit) → ∃ f, parse x = .ok f) := by
  obtain ⟨ts, ⟨hnumerals, hread⟩, htokens⟩ := h [] (by rintro c hc; cases hc) 0
  rw [List.append_nil, tokensFrom_nil] at htokens
  have htokens : tokensFrom 0 x.toList = .ok ts := by
    rw [htokens, Except.map, List.append_nil]
  constructor
  · intro f hf
    obtain ⟨us, hus, hsum⟩ := parseWith_eq_ok_iff.1 hf
    obtain rfl : ts = us := Except.ok.inj (htokens.symm.trans hus)
    obtain ⟨hnumbers, hoperable⟩ := numbers_of_isSum hsum
    obtain ⟨g, hg, hP⟩ := hread hnumbers
    obtain rfl : f = g := hsum.unique hg.isSum
    exact ⟨hP, hoperable⟩
  · intro hshort
    obtain ⟨g, hg, -⟩ := hread fun t ht hkind => by
      obtain ⟨k, hk, hvalue⟩ := hnumerals t ht hkind
      rw [HasNumber, hvalue, if_pos (hshort k hk)]
      rfl
    exact ⟨g, parseWith_eq_ok_iff.2 ⟨ts, htokens, hg.isSum⟩⟩

end Formula

end Gantry
