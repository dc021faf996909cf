import Gantry.Proofs.Formula.Parsing
import Gantry.Proofs.Formula.Rendering

/-!
Reading undoes writing up to groups. What remains is that the leaves of a
formula are read as what they are: names, and literals up to the number of
digits that whole numbers are read with.
-/

namespace Gantry

theorem length_toString_le_iff (k : Nat) :
    (toString k).length ≤ wholeDigitLimit ↔ k < 10 ^ wholeDigitLimit := by
  rw [Nat.toString_eq_ofList_toDigits, String.length_ofList]
  exact Nat.length_toDigits_le_iff (by decide) (by decide)

theorem natAbs_lt_limit {k : Int} (h : 0 ≤ k) :
    k.natAbs < 10 ^ wholeDigitLimit ↔ k < 10 ^ wholeDigitLimit := by
  lift k to Nat using h
  exact_mod_cast Iff.rfl

theorem Number.text?_int (k : Int) : (Number.int k).text? =
    if k.natAbs < 10 ^ wholeDigitLimit then some (toString k) else none := by
  rw [text?, if_congr (length_toString_le_iff k.natAbs) rfl rfl]

namespace Formula

open Text Decimal

variable {e : Formula} {n : Nat} {cs : List Char} {op : String}

/-! ### Names -/

theorem isName_of_ofName? {f : String} {g : Function} (h : Function.ofName? f = some g) :
    isName f = true := by
  have hall : ∀ entry ∈ Function.byName, isName entry.1 = true := by decide
  obtain ⟨before, after, hlist, -⟩ := List.lookup_eq_some_iff.1 h
  exact hall (f, g) (by rw [hlist]; simp)

theorem rendered_call {f : String} {g : Function} {args : List Formula}
    (hf : Function.ofName? f = some g) (hlength : args.length = g.arity)
    (h : ∀ a ∈ args, ∃ cs n, Rendered a cs n) :
    ∃ cs n, Rendered (.call f args) cs n := by
  obtain ⟨cs, hcs, hagain, hspells⟩ := rendered_arguments h
  refine ⟨f.toList ++ enclose cs, atomLevel, chars_call hcs, rfl,
    by rw [grouped, groupedAll_eq, chars_call hagain], ?_⟩
  refine (Spells.call (isName_of_ofName? hf) hspells).mono (fun _ h => h) ?_
  rintro ts ⟨t, p, us, q, rfl, hkind, rfl, hp, hus, hq⟩
  have haccepts : Signature.formulas.Accepts t.text (args.map grouped).length :=
    accepts_formulas_iff.2 ⟨g, hf, by rw [List.length_map, hlength]⟩
  rw [grouped, groupedAll_eq]
  exact hasLevel_of_isAtom (.call hkind hp hus hq haccepts) _

theorem rendered_variable {x : String} (hname : isName x = true) (hx : constant? x = none) :
    Rendered (.variable x) x.toList atomLevel where
  chars := rfl
  level := rfl
  again := rfl
  spells := by
    refine (spells_name hname).mono (fun _ h => h.endsName) ?_
    rintro ts ⟨t, rfl, hkind, rfl⟩
    exact hasLevel_of_isAtom (.var hkind hx) _

theorem isName_of_constant? {c : String} (h : (constant? c).isSome = true) : isName c = true := by
  unfold constant? at h
  split at h
  · decide
  · decide
  · cases h

theorem rendered_constant {c : String} (hc : (constant? c).isSome = true) :
    Rendered (.constant c) c.toList atomLevel where
  chars := rfl
  level := rfl
  again := rfl
  spells := by
    refine (spells_name (isName_of_constant? hc)).mono (fun _ h => h.endsName) ?_
    rintro ts ⟨t, rfl, hkind, rfl⟩
    exact hasLevel_of_isAtom (.constant hkind hc) _

/-! ### Literals -/

theorem isNegative_int {k : Int} (h : 0 ≤ k) : (Number.int k).isNegative = false := by
  simpa [Number.isNegative, Number.lt] using h

theorem isNegative_real {x : Binary64} (hx : x.isFinite = true) (hs : x.signBit = false) :
    (Number.real x).isNegative = false := by
  have hnan := Binary64.isNaN_eq_false_of_isFinite hx
  have hinfinite := Binary64.isInfinite_eq_false_of_isFinite hx
  have hunits : 0 ≤ x.units := by
    rw [Binary64.units, hs, if_neg Bool.false_ne_true]
    exact Int.natCast_nonneg _
  simpa [Number.isNegative, Number.lt, Number.place?, hnan, hinfinite, Place.lt] using hunits

/-- The text of a whole number is a numeral, whose value is missing if it is too long. -/
theorem exists_numeral_whole (k : Nat) : ∃ n : Numeral, (toString k).toList = n.chars ∧
    numberValue? (String.ofList n.chars) =
      if k < 10 ^ wholeDigitLimit then some (.int k) else none := by
  obtain ⟨n, hchars, hf, he, hvalue⟩ := exists_numeral_toString k
  have hlength := length_toString_le_iff k
  rw [← String.length_toList, hchars] at hlength
  refine ⟨n, hchars, ?_⟩
  rw [numberValue?_of_plain hf he, hvalue]
  split <;> split <;> first | rfl | omega

/-- A whole number is read as a number token, whose value is missing if it is too long. -/
theorem spells_toString (k : Nat) : Spells EndsNumber (toString k).toList fun ts =>
    ∃ t, ts = [t] ∧ t.kind = .number ∧
      numberValue? t.text = if k < 10 ^ wholeDigitLimit then some (.int k) else none := by
  obtain ⟨n, hchars, hvalue⟩ := exists_numeral_whole k
  rw [hchars]
  refine (spells_number n).mono (fun _ h => h) ?_
  rintro ts ⟨t, rfl, hkind, htext⟩
  exact ⟨t, rfl, hkind, htext ▸ hvalue⟩

theorem chars_int {k : Int} (hk : k.natAbs < 10 ^ wholeDigitLimit) :
    (Formula.number (.int k)).chars = .ok (toString k).toList := by
  rw [chars, literal, Number.text?_int, if_pos hk]
  rfl

theorem rendered_int {k : Int} (h : 0 ≤ k) (hk : k < 10 ^ wholeDigitLimit) :
    Rendered (.number (.int k)) (toString k).toList atomLevel where
  chars := chars_int ((natAbs_lt_limit h).2 hk)
  level := by rw [level?, isNegative_int h]; rfl
  again := chars_int ((natAbs_lt_limit h).2 hk)
  spells := by
    lift k to Nat using h
    refine (spells_toString k).mono (fun _ h => h.endsNumber) ?_
    rintro ts ⟨t, rfl, hkind, hvalue⟩
    rw [if_pos (by exact_mod_cast hk)] at hvalue
    exact hasLevel_of_isAtom (.number hkind hvalue) _

theorem rendered_real {x : Binary64} (hx : x.isFinite = true) (hs : x.signBit = false) :
    Rendered (.number (.real x)) (literalText x).toList atomLevel where
  chars := rfl
  level := by rw [level?, isNegative_real hx hs]; rfl
  again := rfl
  spells := by
    obtain ⟨n, hchars, hvalue, hmark⟩ := exists_numeral_literalText hx hs
    rw [hchars]
    refine (spells_number n).mono (fun _ h => h.endsNumber) ?_
    rintro ts ⟨t, rfl, hkind, htext⟩
    rw [← hvalue]
    exact hasLevel_of_isAtom (.number hkind (htext ▸ numberValue?_of_mark hmark)) _

/-! ### Reading what is written -/

/-- What the nodes of a formula are for its text to be readable: literals that are finite and not
negative, known constants, names, operators and functions with their number of arguments. -/
def Spellable : Formula → Prop
  | .number (.int k) => 0 ≤ k
  | .number (.real x) => x.isFinite = true ∧ x.signBit = false
  | .constant c => (constant? c).isSome = true
  | .variable x => isName x = true ∧ constant? x = none
  | .group _ => True
  | .unary op _ => (UnaryOp.ofSymbol? op).isSome = true
  | .binary op _ _ => (BinaryOp.ofSymbol? op).isSome = true
  | .call f args => (Function.ofName? f).map Function.arity = some args.length

instance : DecidablePred Spellable
  | .number (.int k) => inferInstanceAs (Decidable (0 ≤ k))
  | .number (.real _) => inferInstanceAs (Decidable (_ ∧ _))
  | .constant _ => inferInstanceAs (Decidable (_ = _))
  | .variable _ => inferInstanceAs (Decidable (_ ∧ _))
  | .group _ => inferInstanceAs (Decidable True)
  | .unary _ _ => inferInstanceAs (Decidable (_ = _))
  | .binary _ _ _ => inferInstanceAs (Decidable (_ = _))
  | .call _ _ => inferInstanceAs (Decidable (_ = _))

theorem unarySymbol_cases (h : (UnaryOp.ofSymbol? op).isSome = true) : op = "-" ∨ op = "+" := by
  unfold UnaryOp.ofSymbol? at h
  split at h
  · exact .inl rfl
  · exact .inr rfl
  · cases h

/-- Every binary operator that means something can be written. -/
theorem exists_operatorLevel (h : (BinaryOp.ofSymbol? op).isSome = true) :
    ∃ outer, operatorLevel? op = some outer := by
  unfold BinaryOp.ofSymbol? at h
  split at h
  · exact ⟨_, rfl⟩
  · exact ⟨_, rfl⟩
  · exact ⟨_, rfl⟩
  · exact ⟨_, rfl⟩
  · exact ⟨_, rfl⟩
  · cases h

theorem exists_rendered (he : e.Everywhere Spellable)
    (hwhole : ∀ k : Int, .int k ∈ e.literals → k < 10 ^ wholeDigitLimit) :
    ∃ cs n, Rendered e cs n := by
  induction e with
  | number n =>
      have hn := ((everywhere_iff _ _).1 he).1
      cases n with
      | int k => exact ⟨_, _, rendered_int hn (hwhole k (by simp [literals]))⟩
      | real x => exact ⟨_, _, rendered_real hn.1 hn.2⟩
  | constant c => exact ⟨_, _, rendered_constant ((everywhere_iff _ _).1 he).1⟩
  | var x =>
      obtain ⟨hname, hx⟩ := ((everywhere_iff _ _).1 he).1
      exact ⟨_, _, rendered_variable hname hx⟩
  | group e ih =>
      obtain ⟨cs, n, h⟩ := ih (((everywhere_iff _ _).1 he).2 e (by simp [children])) hwhole
      exact ⟨_, _, rendered_group h⟩
  | unary op e ih =>
      obtain ⟨hop, hpart⟩ := (everywhere_iff _ _).1 he
      obtain ⟨cs, n, h⟩ := ih (hpart e (by simp [children])) hwhole
      exact ⟨_, _, rendered_unary (unarySymbol_cases hop) h⟩
  | binary op l r ihl ihr =>
      obtain ⟨hop, hparts⟩ := (everywhere_iff _ _).1 he
      obtain ⟨outer, houter⟩ := exists_operatorLevel hop
      obtain ⟨ls, m, hl⟩ := ihl (hparts l (by simp [children]))
        fun k hk => hwhole k (List.mem_append_left _ hk)
      obtain ⟨rs, n, hr⟩ := ihr (hparts r (by simp [children]))
        fun k hk => hwhole k (List.mem_append_right _ hk)
      exact ⟨_, _, rendered_binary houter hl hr⟩
  | call f args ih =>
      obtain ⟨hf, hargs⟩ := (everywhere_iff _ _).1 he
      obtain ⟨g, hg, harity⟩ := Option.map_eq_some_iff.1 hf
      refine rendered_call hg harity.symm fun a ha => ih a ha (hargs a ha) fun k hk => hwhole k ?_
      rw [literals, literalsAll_eq]
      exact List.mem_flatMap.2 ⟨a, ha, hk⟩

/-- A text that spells a formula is read as that formula. -/
theorem parse_of_spells (h : Spells Closed cs fun ts => HasLevel .formulas n ts e) :
    parse (String.ofList cs) = .ok e := by
  obtain ⟨ts, hts, htokens⟩ := h [] (by simp [Closed]) 0
  rw [List.append_nil, tokensFrom_nil] at htokens
  refine parseWith_eq_ok_iff.2 ⟨ts, ?_, hts.isSum⟩
  rw [String.toList_ofList, htokens, Except.map, List.append_nil]

/-- Arguments of which one is too long cannot be written if the others can. -/
theorem argsChars_of_tooLong {args : List Formula}
    (h : ∀ a ∈ args, a.chars = .error .numberTooLong ∨ ∃ cs, a.chars = .ok cs)
    (hlong : ∃ a ∈ args, a.chars = .error .numberTooLong) :
    argsChars args = .error .numberTooLong := by
  induction args with
  | nil => simp at hlong
  | cons a as ih =>
      obtain ⟨ha, has⟩ := List.forall_mem_cons.1 h
      obtain hfirst | ⟨cs, hfirst⟩ := ha
      · cases as with
        | nil => exact hfirst
        | cons b bs =>
            rw [argsChars, hfirst]
            · rfl
            · simp
      · obtain ⟨b, hb, hlong⟩ := hlong
        obtain rfl | hb := List.mem_cons.1 hb
        · rw [hfirst] at hlong
          cases hlong
        · have hrest := ih has ⟨b, hb, hlong⟩
          cases as with
          | nil => cases hb
          | cons b bs =>
              rw [argsChars, hfirst, hrest]
              · rfl
              · simp

/-- A formula with a whole literal that is too long is not written. -/
theorem chars_of_tooLong (he : e.Everywhere Spellable)
    (h : ∃ k : Int, .int k ∈ e.literals ∧ 10 ^ wholeDigitLimit ≤ k) :
    e.chars = .error .numberTooLong := by
  -- What comes before the literal is written unless it is too long itself.
  have hbefore {a : Formula} (ha : a.Everywhere Spellable)
      (hlong : (∃ k : Int, .int k ∈ a.literals ∧ 10 ^ wholeDigitLimit ≤ k) →
        a.chars = .error .numberTooLong) :
      a.chars = .error .numberTooLong ∨ ∃ cs n, Rendered a cs n := by
    by_cases hk : ∃ k : Int, .int k ∈ a.literals ∧ 10 ^ wholeDigitLimit ≤ k
    · exact .inl (hlong hk)
    · simp only [not_exists, not_and, not_le] at hk
      exact .inr (exists_rendered ha hk)
  induction e with
  | number n =>
      obtain ⟨k, hk, hlong⟩ := h
      obtain rfl : .int k = n := by simpa [literals] using hk
      have hsize : 0 ≤ k := ((everywhere_iff _ _).1 he).1
      rw [chars, literal, Number.text?_int, if_neg ((natAbs_lt_limit hsize).not.2 hlong.not_gt)]
      rfl
  | constant c => simp [literals] at h
  | var x => simp [literals] at h
  | group e ih =>
      rw [chars, ih (((everywhere_iff _ _).1 he).2 e (by simp [children])) h]
      rfl
  | unary op e ih =>
      rw [chars, ih (((everywhere_iff _ _).1 he).2 e (by simp [children])) h]
      rfl
  | binary op l r ihl ihr =>
      obtain ⟨hop, hparts⟩ := (everywhere_iff _ _).1 he
      obtain ⟨outer, houter⟩ := exists_operatorLevel hop
      have hl := hparts l (by simp [children])
      have hr := hparts r (by simp [children])
      obtain hleft | ⟨cs, n, hleft⟩ := hbefore hl (ihl hl)
      · rw [chars, hleft]
        rfl
      · obtain ⟨k, hk, hlong⟩ := h
        obtain hk | hk := List.mem_append.1 hk
        · have herror := ihl hl ⟨k, hk, hlong⟩
          rw [hleft.chars] at herror
          cases herror
        · rw [chars, hleft.chars, hleft.level, houter, ihr hr ⟨k, hk, hlong⟩]
          rfl
  | call f args ih =>
      obtain ⟨-, hargs⟩ := (everywhere_iff _ _).1 he
      obtain ⟨k, hk, hlong⟩ := h
      rw [literals, literalsAll_eq] at hk
      obtain ⟨a, ha, hk⟩ := List.mem_flatMap.1 hk
      have hall : argsChars args = .error .numberTooLong := by
        refine argsChars_of_tooLong (fun b hb => ?_) ⟨a, ha, ih a ha (hargs a ha) ⟨k, hk, hlong⟩⟩
        obtain hlong | ⟨cs, _, hrendered⟩ := hbefore (hargs b hb) (ih b hb (hargs b hb))
        · exact .inl hlong
        · exact .inr ⟨cs, hrendered.chars⟩
      rw [chars, hall]
      rfl

/-- The text of a formula is read as the formula, with a group wherever the text has parentheses.
Only a formula with a whole literal that is too long has no text. -/
theorem parse_text (he : e.Everywhere Spellable) :
    ((∀ k : Int, .int k ∈ e.literals → k < 10 ^ wholeDigitLimit) →
      ∃ s, e.write = .ok s ∧ parse s = .ok e.grouped ∧ e.grouped.key = e.key ∧
        e.grouped.write = .ok s) ∧
    ((∃ k : Int, .int k ∈ e.literals ∧ 10 ^ wholeDigitLimit ≤ k) →
      e.write = .error .numberTooLong) := by
  refine ⟨fun hwhole => ?_, fun hlong => by rw [write, chars_of_tooLong he hlong]; rfl⟩
  obtain ⟨cs, n, h⟩ := exists_rendered he hwhole
  exact ⟨String.ofList cs, by rw [write, h.chars, Except.map], parse_of_spells h.spells,
    key_grouped e, by rw [write, h.again, Except.map]⟩

/-- A negative base, a product as an exponent, and a call. -/
def damped : Formula :=
  .binary "^" (.unary "-" (.variable "x"))
    (.binary "*" (.number (.real ⟨0x4004000000000000⟩))
      (.call "sin" [.binary "+" (.variable "y") (.number (.int 3))]))

theorem parse_text_damped : damped.Everywhere Spellable ∧
    (∀ k : Int, .int k ∈ damped.literals → k < 10 ^ wholeDigitLimit) ∧
      ∃ s, damped.write = .ok s ∧ parse s = .ok damped.grouped ∧
        damped.grouped.key = damped.key ∧ damped.grouped.write = .ok s := by
  have hspellable : damped.Everywhere Spellable := by
    unfold Everywhere
    decide
  have hwhole : ∀ k : Int, .int k ∈ damped.literals → k < 10 ^ wholeDigitLimit := by
    intro k hk
    obtain rfl : k = 3 := by simpa [damped, literals] using hk
    exact lt_of_lt_of_le (by decide : (3 : Int) < 10 ^ 1)
      (pow_le_pow_right₀ (by decide) (by decide))
  exact ⟨hspellable, hwhole, (parse_text hspellable).1 hwhole⟩

example : damped.write = .ok "(-x) ^ (2.5 * sin(y + 3))" := by decide +kernel

/-- Reading does not undo writing for all trees: a whole literal may be too long to be written. -/
theorem not_parse_text : ¬∀ e : Formula, e.Everywhere Spellable → ∃ s e', e.write = .ok s ∧
    parse s = .ok e' ∧ e'.key = e.key ∧ e'.write = .ok s := by
  intro h
  -- Any whole number that is too long will do, so none is ever written out.
  obtain ⟨k, hk⟩ : ∃ k : Nat, 10 ^ wholeDigitLimit ≤ k := ⟨10 ^ wholeDigitLimit, le_rfl⟩
  have hspellable : (Formula.number (.int k)).Everywhere Spellable :=
    (everywhere_iff _ _).2 ⟨Int.natCast_nonneg k, by simp [children]⟩
  obtain ⟨s, e', hs, -⟩ := h (.number (.int k)) hspellable
  have hlong : (Formula.number (.int k)).chars = .error .numberTooLong :=
    chars_of_tooLong hspellable ⟨k, by simp [literals], by exact_mod_cast hk⟩
  rw [write, hlong] at hs
  cases hs

end Formula

end Gantry
