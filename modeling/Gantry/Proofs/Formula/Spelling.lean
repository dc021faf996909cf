import Gantry.Formula.Text
import Gantry.Proofs.Decimal.Numeral
import Gantry.Proofs.Formula.Derivation

/-!
How text made of words is split into tokens. A text spells tokens of some kind
if it is split into such tokens wherever it stands; all that can go wrong is
that what follows goes on with its last word, so a text comes with a condition
on what follows, and texts are put together where the conditions are met.
-/

namespace Gantry.Formula

open Text Decimal

variable {cs ds w rest : List Char} {F G : List Char → Prop} {P Q : List Token → Prop} {c : Char}
  {kind : TokenKind} {p : Nat}

/-! ### One token -/

theorem tokensFrom_nil (p : Nat) : tokensFrom p [] = .ok [] := tokensFrom.eq_def p []

theorem tokensFrom_blank (p : Nat) (rest : List Char) :
    tokensFrom p (' ' :: rest) = tokensFrom (p + 1) rest := by
  rw [tokensFrom.eq_def]
  exact if_pos (by decide)

theorem tokensFrom_word (hc : isBlank c = false)
    (hfront : front? (c :: cs ++ rest) = some (kind, (c :: cs).length)) :
    tokensFrom p (c :: cs ++ rest) = (tokensFrom (p + (c :: cs).length) rest).map
      (⟨kind, tokenText kind (c :: cs), p⟩ :: ·) := by
  rw [List.cons_append] at *
  rw [tokensFrom.eq_def]
  dsimp only
  rw [if_neg (by simp [hc])]
  split
  · simp_all
  · rename_i kind' n h
    obtain ⟨rfl, rfl⟩ : kind = kind' ∧ (c :: cs).length = n := by simpa [hfront] using h
    rw [← List.cons_append, List.drop_left, List.take_left]
    cases tokensFrom (p + (c :: cs).length) rest <;> rfl

/-! ### Texts and their tokens -/

/-- Wherever a text stands, it is split into tokens of a kind, as long as what follows is as it
should be. -/
def Spells (F : List Char → Prop) (cs : List Char) (P : List Token → Prop) : Prop :=
  ∀ rest, F rest → ∀ p, ∃ ts, P ts ∧
    tokensFrom p (cs ++ rest) = (tokensFrom (p + cs.length) rest).map (ts ++ ·)

theorem Spells.mono (h : Spells F cs P) (hG : ∀ rest, G rest → F rest) (hQ : ∀ ts, P ts → Q ts) :
    Spells G cs Q := by
  intro rest hrest p
  obtain ⟨ts, hts, htokens⟩ := h rest (hG rest hrest) p
  exact ⟨ts, hQ ts hts, htokens⟩

theorem Spells.append (hcs : Spells F cs P) (hds : Spells G ds Q)
    (hfollow : ∀ rest, G rest → F (ds ++ rest)) :
    Spells G (cs ++ ds) fun ts => ∃ us vs, P us ∧ Q vs ∧ ts = us ++ vs := by
  intro rest hrest p
  obtain ⟨us, hus, hfirst⟩ := hcs (ds ++ rest) (hfollow rest hrest) p
  obtain ⟨vs, hvs, hsecond⟩ := hds rest hrest (p + cs.length)
  refine ⟨us ++ vs, ⟨us, vs, hus, hvs, rfl⟩, ?_⟩
  rw [List.append_assoc, hfirst, hsecond, List.length_append, Nat.add_assoc]
  cases tokensFrom (p + (cs.length + ds.length)) rest <;> simp [Except.map]

theorem spells_blank : Spells (fun _ => True) [' '] (· = []) := by
  intro rest _ p
  refine ⟨[], rfl, ?_⟩
  rw [List.singleton_append, tokensFrom_blank]
  cases tokensFrom (p + 1) rest <;> rfl

theorem spells_nil : Spells F [] (· = []) := by
  intro rest _ p
  refine ⟨[], rfl, ?_⟩
  cases h : tokensFrom p rest <;> simp [Except.map, h]

theorem spells_word (hw : w ≠ []) (hblank : ∀ c ∈ w.head?, isBlank c = false)
    (hfront : ∀ rest, F rest → front? (w ++ rest) = some (kind, w.length)) :
    Spells F w fun ts => ∃ t, ts = [t] ∧ t.kind = kind ∧ t.text = tokenText kind w := by
  intro rest hrest p
  obtain ⟨c, cs, rfl⟩ := List.exists_cons_of_ne_nil hw
  exact ⟨_, ⟨_, rfl, rfl, rfl⟩, tokensFrom_word (hblank c rfl) (hfront rest hrest)⟩

/-! ### Numbers -/

/-- What follows a number does not go on with it. -/
def EndsNumber (rest : List Char) : Prop :=
  ∀ c ∈ rest.head?, isDigit c = false ∧ c ≠ '.' ∧ c ≠ 'e' ∧ c ≠ 'E'

theorem takeWhile_append_of_head {p : Char → Bool} (hds : ∀ c ∈ ds, p c = true)
    (hrest : ∀ c ∈ rest.head?, p c = false) : (ds ++ rest).takeWhile p = ds := by
  rw [List.takeWhile_append_of_pos hds]
  cases rest with
  | nil => rw [List.takeWhile_nil, List.append_nil]
  | cons c rest => rw [List.takeWhile_cons, if_neg (by simp [hrest c rfl]), List.append_nil]

theorem exponentLength_append (e : Option (Bool × List Char)) (hne : ∀ x ∈ e, x.2 ≠ [])
    (hdigits : ∀ x ∈ e, ∀ c ∈ x.2, c.isDigit = true) (hrest : EndsNumber rest) :
    exponentLength (exponentChars e ++ rest) = (exponentChars e).length := by
  rcases e with _ | ⟨negative, ds⟩
  · cases rest with
    | nil => rfl
    | cons c rest =>
        obtain ⟨-, -, he, hE⟩ := hrest c rfl
        simp [exponentChars, exponentLength, he, hE]
  · have htake : (ds ++ rest).takeWhile isDigit = ds :=
      takeWhile_append_of_head (fun c hc => isDigit_of_isDigit (hdigits _ rfl c hc))
        fun c hc => (hrest c hc).1
    obtain ⟨d, ds, rfl⟩ := List.exists_cons_of_ne_nil (hne _ rfl)
    rw [List.cons_append] at htake
    cases negative <;> simp [exponentChars, exponentLength, htake] <;> omega

theorem mantissaLength_append {ds : List Char} (f : Option (List Char)) (hne : ds ≠ [])
    (hds : ∀ c ∈ ds, c.isDigit = true) (hf : ∀ ds ∈ f, ∀ c ∈ ds, c.isDigit = true)
    (hrest : ∀ c ∈ rest.head?, isDigit c = false ∧ c ≠ '.') :
    mantissaLength (ds ++ (fractionChars f ++ rest)) = ds.length + (fractionChars f).length := by
  have htake : (ds ++ (fractionChars f ++ rest)).takeWhile isDigit = ds := by
    refine takeWhile_append_of_head (fun c hc => isDigit_of_isDigit (hds c hc)) ?_
    cases f with
    | none => exact fun c hc => (hrest c hc).1
    | some fs =>
        rintro _ ⟨⟩
        rfl
  obtain ⟨k, hk⟩ := Nat.exists_eq_succ_of_ne_zero (List.length_pos_iff.2 hne).ne'
  unfold mantissaLength
  rw [htake, hk]
  dsimp only
  rw [← Nat.succ_eq_add_one, ← hk, List.drop_left]
  cases f with
  | none =>
      cases rest with
      | nil => rfl
      | cons c rest =>
          obtain ⟨-, hpoint⟩ := hrest c rfl
          simp [fractionChars, hpoint]
  | some fs =>
      have htake' : (fs ++ rest).takeWhile isDigit = fs :=
        takeWhile_append_of_head (fun c hc => isDigit_of_isDigit (hf fs rfl c hc))
          fun c hc => (hrest c hc).1
      simp only [fractionChars, List.cons_append, htake', List.length_cons]
      omega

theorem numberLength_append (n : Numeral) (hrest : EndsNumber rest) :
    numberLength (n.chars ++ rest) = n.chars.length := by
  have hhead : ∀ c ∈ (exponentChars n.exponent ++ rest).head?, isDigit c = false ∧ c ≠ '.' := by
    rcases n.exponent with _ | ⟨negative, ds⟩
    · exact fun c hc => ⟨(hrest c hc).1, (hrest c hc).2.1⟩
    · rintro _ ⟨⟩
      exact ⟨rfl, by decide⟩
  have hmantissa := mantissaLength_append n.fraction n.whole_ne_nil n.whole_digits
    n.fraction_digits hhead
  have hsplit : n.chars ++ rest =
      n.whole ++ (fractionChars n.fraction ++ (exponentChars n.exponent ++ rest)) := by
    simp [Numeral.chars]
  have hpos := List.length_pos_iff.2 n.whole_ne_nil
  obtain ⟨k, hk⟩ : ∃ k, n.whole.length + (fractionChars n.fraction).length = k + 1 :=
    Nat.exists_eq_succ_of_ne_zero (by omega)
  have hdrop : (n.chars ++ rest).drop (k + 1) = exponentChars n.exponent ++ rest := by
    rw [hsplit, ← hk, ← List.append_assoc, ← List.length_append, List.drop_left]
  rw [numberLength, hsplit, hmantissa, hk]
  dsimp only
  rw [← hsplit, hdrop, exponentLength_append _ n.exponent_ne_nil n.exponent_digits hrest, ← hk]
  simp only [Numeral.chars, List.length_append]
  omega

theorem front?_number (n : Numeral) (hrest : EndsNumber rest) :
    front? (n.chars ++ rest) = some (.number, n.chars.length) := by
  obtain ⟨c, cs, hcs, -⟩ := n.exists_cons
  rw [front?, numberLength_append n hrest, if_pos (by simp [hcs])]

theorem spells_number (n : Numeral) : Spells EndsNumber n.chars fun ts =>
    ∃ t, ts = [t] ∧ t.kind = .number ∧ t.text = String.ofList n.chars := by
  obtain ⟨c, cs, hcs, hc⟩ := n.exists_cons
  have hhead : ∀ c ∈ n.chars.head?, isBlank c = false := by
    rw [hcs]
    rintro _ ⟨⟩
    exact isBlank_of_isDigit (isDigit_of_isDigit hc)
  refine (spells_word (by simp [hcs]) hhead fun rest hrest => front?_number n hrest).mono
    (fun _ h => h) ?_
  rintro ts ⟨t, hts, hkind, htext⟩
  exact ⟨t, hts, hkind, by simpa [tokenText] using htext⟩

/-! ### Names -/

/-- What follows a name does not go on with it. -/
def EndsName (rest : List Char) : Prop := ∀ c ∈ rest.head?, isNamePart c = false

/-- Whether a text is a name as formulas have them. -/
def isName (s : String) : Bool :=
  match s.toList with
  | [] => false
  | c :: cs => isNameStart c && cs.all isNamePart

theorem exists_cons_of_isName {x : String} (h : isName x = true) :
    ∃ d ds, x.toList = d :: ds ∧ isNameStart d = true ∧ ds.all isNamePart = true := by
  unfold isName at h
  split at h
  · cases h
  · next d ds hx =>
    rw [Bool.and_eq_true] at h
    exact ⟨d, ds, hx, h⟩

theorem all_isNamePart_of_isName {x : String} (h : isName x = true) :
    x.toList.all isNamePart = true := by
  obtain ⟨d, ds, hchars, hd, hds⟩ := exists_cons_of_isName h
  have hpart : isNamePart d = true := by
    unfold isNameStart at hd
    rw [isNamePart, Char.isAlphanum]
    grind
  rw [hchars, List.all_cons, hpart, hds, Bool.true_and]

theorem isName_append {x y : String} (hx : isName x = true)
    (hy : y.toList.all isNamePart = true) : isName (x ++ y) = true := by
  obtain ⟨d, ds, hchars, hd, hds⟩ := exists_cons_of_isName hx
  rw [isName, String.toList_append, hchars]
  simp only [List.cons_append, List.all_append, hd, hds, hy, Bool.and_self]

theorem isDigit_of_mem_toString {n : Nat} {c : Char} (h : c ∈ (toString n).toList) :
    c.isDigit = true := by
  rw [Nat.toString_eq_ofList_toDigits, String.toList_ofList] at h
  exact Nat.isDigit_of_mem_toDigits (by decide) (by decide) h

theorem isNamePart_of_mem_toString {n : Nat} {c : Char} (h : c ∈ (toString n).toList) :
    isNamePart c = true := by
  simp [isNamePart, Char.isAlphanum, isDigit_of_mem_toString h]

theorem toNat_of_isNameStart (h : isNameStart c = true) : 65 ≤ c.toNat ∧ c.toNat < 128 := by
  unfold isNameStart Char.isAlpha Char.isUpper Char.isLower at h
  simp only [Bool.or_eq_true, ge_iff_le, decide_eq_true_eq, beq_iff_eq, Bool.and_eq_true,
    UInt32.le_iff_toNat_le, Char.toNat_val] at h
  obtain (⟨hlow, hhigh⟩ | ⟨hlow, hhigh⟩) | rfl := h
  · exact ⟨hlow, hhigh.trans_lt (by decide)⟩
  · exact ⟨le_trans (by decide) hlow, hhigh.trans_lt (by decide)⟩
  · exact ⟨by decide, by decide⟩

theorem isDigit_of_isNameStart (h : isNameStart c = true) : isDigit c = false := by
  have hrange := toNat_of_isNameStart h
  have hdigit : c.isDigit = false := by
    rw [← Bool.not_eq_true, Char.isDigit_iff_toNat]
    exact fun h => absurd (hrange.1.trans h.2) (by decide)
  rw [isDigit, digit?, if_pos hrange.2, hdigit]
  rfl

theorem isBlank_of_isNameStart (h : isNameStart c = true) : isBlank c = false := by
  have hrange := toNat_of_isNameStart h
  simp only [isBlank, Bool.or_eq_false_iff, Bool.and_eq_false_iff, decide_eq_false_iff_not,
    beq_eq_false_iff_ne]
  omega

theorem numberLength_eq_zero (hdigit : isDigit c = false) (hpoint : c ≠ '.') (cs : List Char) :
    numberLength (c :: cs) = 0 := by
  have htake : ((c :: cs).takeWhile isDigit).length = 0 := by simp [hdigit]
  have hmantissa : mantissaLength (c :: cs) = 0 := by
    unfold mantissaLength
    rw [htake]
    simp [hpoint]
  rw [numberLength, hmantissa]

theorem front?_name (hc : isNameStart c = true) (hcs : cs.all isNamePart = true)
    (hrest : EndsName rest) : front? (c :: cs ++ rest) = some (.name, (c :: cs).length) := by
  have hpoint : c ≠ '.' := by
    rintro rfl
    cases hc
  have hlength : nameLength (c :: (cs ++ rest)) = (c :: cs).length := by
    rw [nameLength, if_pos hc, takeWhile_append_of_head (List.all_eq_true.1 hcs) hrest,
      List.length_cons, Nat.add_comm]
  have hnumber : numberLength (c :: (cs ++ rest)) = 0 :=
    numberLength_eq_zero (isDigit_of_isNameStart hc) hpoint _
  rw [List.cons_append, front?, hnumber, if_neg (by omega), hlength, if_pos (by simp)]

/-! ### Operators -/

theorem front?_operator (h : isOperator c = true) (hstar : c = '*' → rest.head? ≠ some '*') :
    front? (c :: rest) = some (.op, 1) := by
  have hcases : c ∈ ['-', '+', '*', '/', '^', '(', ')', ','] := by simpa [isOperator] using h
  have hdigit : isDigit c = false ∧ c ≠ '.' ∧ isNameStart c = false := by
    simp only [List.mem_cons, List.not_mem_nil, or_false] at hcases
    rcases hcases with rfl | rfl | rfl | rfl | rfl | rfl | rfl | rfl <;> decide
  have hlength : operatorLength (c :: rest) = 1 := by
    unfold operatorLength
    split
    · rename_i heq
      cases heq
      exact absurd rfl (hstar rfl)
    · rename_i heq
      cases heq
      rw [if_pos h]
    · rename_i heq
      cases heq
  have hname : nameLength (c :: rest) = 0 := by rw [nameLength, if_neg (by simp [hdigit.2.2])]
  rw [front?, numberLength_eq_zero hdigit.1 hdigit.2.1, hname, hlength]
  rfl

/-! ### What stands beside each other -/

/-- Behind a part of a formula stands nothing, a blank, a closing parenthesis or a comma. -/
def Closed (rest : List Char) : Prop := ∀ c ∈ rest.head?, c = ' ' ∨ c = ')' ∨ c = ','

theorem Closed.endsNumber (h : Closed rest) : EndsNumber rest := by
  intro c hc
  obtain rfl | rfl | rfl := h c hc <;> decide

theorem Closed.endsName (h : Closed rest) : EndsName rest := by
  intro c hc
  obtain rfl | rfl | rfl := h c hc <;> decide

theorem closed_cons (h : c = ' ' ∨ c = ')' ∨ c = ',') : Closed (c :: rest) := by
  rintro _ ⟨⟩
  exact h

theorem spells_name {s : String} (h : isName s = true) : Spells EndsName s.toList fun ts =>
    ∃ t, ts = [t] ∧ t.kind = .name ∧ t.text = s := by
  unfold isName at h
  split at h
  · cases h
  · rename_i c cs hs
    rw [Bool.and_eq_true] at h
    rw [hs]
    refine (spells_word (by simp) ?_ fun rest hrest => front?_name h.1 h.2 hrest).mono
      (fun _ h => h) ?_
    · rintro _ ⟨⟩
      exact isBlank_of_isNameStart h.1
    · rintro ts ⟨t, hts, hkind, htext⟩
      refine ⟨t, hts, hkind, ?_⟩
      rw [htext, tokenText, if_neg (by simp), ← hs, String.ofList_toList]

/-- What stands behind an operator does not make another one of it. -/
def EndsOperator (c : Char) (rest : List Char) : Prop := c = '*' → rest.head? ≠ some '*'

theorem spells_operator (h : isOperator c = true) : Spells (EndsOperator c) [c] fun ts =>
    ∃ t : Token, ts = [t] ∧ t.Is (String.ofList [c]) := by
  have hblank : isBlank c = false := by
    have hcases : c ∈ ['-', '+', '*', '/', '^', '(', ')', ','] := by simpa [isOperator] using h
    simp only [List.mem_cons, List.not_mem_nil, or_false] at hcases
    rcases hcases with rfl | rfl | rfl | rfl | rfl | rfl | rfl | rfl <;> decide
  refine (spells_word (by simp) (by simpa using hblank)
    fun rest hrest => front?_operator h hrest).mono (fun _ h => h) ?_
  rintro ts ⟨t, hts, hkind, htext⟩
  exact ⟨t, hts, hkind, by simpa [tokenText] using htext⟩

/-- An operator other than the star, in front of anything. -/
theorem Spells.behind (hc : isOperator c = true) (hstar : c ≠ '*') (h : Spells F cs P) :
    Spells F (c :: cs) fun ts => ∃ t us, ts = t :: us ∧ Token.Is t (String.ofList [c]) ∧ P us := by
  refine ((spells_operator hc).append h fun _ _ hc => absurd hc hstar).mono (fun _ h => h) ?_
  rintro ts ⟨_, us, ⟨t, rfl, ht⟩, hus, rfl⟩
  exact ⟨t, us, rfl, ht, hus⟩

theorem Spells.blank (h : Spells F cs P) : Spells F (' ' :: cs) P := by
  refine (spells_blank.append h fun _ _ => trivial).mono (fun _ h => h) ?_
  rintro ts ⟨_, us, rfl, hus, rfl⟩
  exact hus

theorem Spells.enclose (h : Spells Closed cs P) : Spells F (enclose cs) fun ts =>
    ∃ p us q, ts = p :: (us ++ [q]) ∧ Token.Is p "(" ∧ P us ∧ Token.Is q ")" := by
  have hclose := h.append (spells_operator (c := ')') rfl) fun _ _ => closed_cons (.inr (.inl rfl))
  refine (Spells.behind (c := '(') rfl (by decide) hclose).mono
    (fun _ _ h => absurd h (by decide)) ?_
  rintro ts ⟨p, _, rfl, hp, us, _, hus, ⟨q, rfl, hq⟩, rfl⟩
  exact ⟨p, us, q, rfl, hp, hus, hq⟩

/-- A comma and a blank between two parts. -/
theorem Spells.comma (hcs : Spells Closed cs P) (hds : Spells F ds Q) :
    Spells F (cs ++ ',' :: ' ' :: ds) fun ts =>
      ∃ us t vs, ts = us ++ t :: vs ∧ P us ∧ Token.Is t "," ∧ Q vs := by
  have hrest := Spells.behind (c := ',') rfl (by decide) hds.blank
  refine (hcs.append hrest fun _ _ => closed_cons (.inr (.inr rfl))).mono (fun _ h => h) ?_
  rintro ts ⟨us, _, hus, ⟨t, vs, rfl, ht, hvs⟩, rfl⟩
  exact ⟨us, t, vs, rfl, hus, ht, hvs⟩

/-- An operator between two parts, with a blank on each side. -/
theorem Spells.between (hcs : Spells Closed cs P) (hc : isOperator c = true) (hds : Spells F ds Q) :
    Spells F (cs ++ ' ' :: c :: ' ' :: ds) fun ts =>
      ∃ us t vs, ts = us ++ t :: vs ∧ P us ∧ Token.Is t (String.ofList [c]) ∧ Q vs := by
  have hrest := ((spells_operator hc).append hds.blank fun _ _ _ => by simp).blank
  refine (hcs.append hrest fun _ _ => closed_cons (.inl rfl)).mono (fun _ h => h) ?_
  rintro ts ⟨us, _, hus, ⟨_, vs, ⟨t, rfl, ht⟩, hvs, rfl⟩, rfl⟩
  exact ⟨us, t, vs, rfl, hus, ht, hvs⟩

theorem Spells.call {f : String} (hf : isName f = true) (h : Spells Closed cs P) :
    Spells F (f.toList ++ Formula.enclose cs) fun ts => ∃ t p us q, ts = t :: p :: (us ++ [q]) ∧
      t.kind = .name ∧ t.text = f ∧ Token.Is p "(" ∧ P us ∧ Token.Is q ")" := by
  have hopen (rest : List Char) : EndsName (Formula.enclose cs ++ rest) := by
    rintro _ ⟨⟩
    rfl
  have hinside := Spells.enclose (F := F) h
  refine ((spells_name hf).append hinside fun rest _ => hopen rest).mono (fun _ h => h) ?_
  rintro ts ⟨_, _, ⟨t, rfl, hkind, htext⟩, ⟨p, us, q, rfl, hp, hus, hq⟩, rfl⟩
  exact ⟨t, p, us, q, rfl, hkind, htext, hp, hus, hq⟩

/-! ### Values of numbers -/

theorem isMark_of_isDigit (h : c.isDigit = true) : (c == '.' || c == 'e' || c == 'E') = false := by
  have hne {d : Char} (hd : d.isDigit = false) : (c == d) = false := by
    rw [beq_eq_false_iff_ne]
    rintro rfl
    exact absurd h (by simp [hd])
  rw [hne rfl, hne rfl, hne rfl]
  rfl

theorem numberValue?_of_mark {n : Numeral}
    (h : n.fraction.isSome = true ∨ n.exponent.isSome = true) :
    numberValue? (String.ofList n.chars) =
      some (.real (Binary64.ofDecimal false n.digits n.scale)) := by
  have hmark : (n.chars.any fun c => c == '.' || c == 'e' || c == 'E') = true := by
    rw [Numeral.chars, List.any_append, List.any_append]
    obtain h | h := h
    · obtain ⟨ds, hds⟩ := Option.isSome_iff_exists.1 h
      simp [hds, fractionChars]
    · obtain ⟨e, he⟩ := Option.isSome_iff_exists.1 h
      simp [he, exponentChars]
  rw [numberValue?, String.toList_ofList, if_pos hmark, n.readReal?_chars, Option.getD_some]

theorem numberValue?_of_plain {n : Numeral} (hf : n.fraction = none) (he : n.exponent = none) :
    numberValue? (String.ofList n.chars) =
      if wholeDigitLimit < n.chars.length then none else some (.int (digitsValue n.chars)) := by
  have hwhole : n.chars = n.whole := by simp [Numeral.chars, hf, he, fractionChars, exponentChars]
  have hmark : ¬(n.chars.any fun c => c == '.' || c == 'e' || c == 'E') = true := by
    rw [hwhole, Bool.not_eq_true, List.any_eq_false]
    exact fun c hc => by simp [isMark_of_isDigit (n.whole_digits c hc)]
  rw [numberValue?, String.toList_ofList, if_neg hmark, String.length_ofList]

end Gantry.Formula
