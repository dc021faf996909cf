import Gantry.Proofs.Formula.Admission
import Gantry.Proofs.Formula.Failure

/-!
The words of formula text. A token stands for the longest word that begins at its place, and what
no token stands for is blank, so that nothing of a text is lost but its blanks. A word is the same
word wherever a blank follows it; text put together from words and blanks is therefore split into
these words again.
-/

namespace Gantry.Formula

open Text Decimal

/-- The words of each kind. -/
inductive IsLexeme : TokenKind → List Char → Prop
  | number {w : List Char} : IsNumberText w → IsLexeme .number w
  | name {w : List Char} : isName (String.ofList w) = true → IsLexeme .name w
  | operator {c : Char} : isOperator c = true → IsLexeme .op [c]
  | doubleStar : IsLexeme .op ['*', '*']

variable {cs ds w m x rest : List Char} {c : Char} {kind : TokenKind} {n p : Nat} {t : Token}
  {ts us vs : List Token} {sep : List Char}

/-! ### Words are split off whole -/

theorem runLength_append (hds : ∀ c ∈ ds, isDigit c = true)
    (hrest : ∀ c ∈ rest.head?, isDigit c = false) : runLength (ds ++ rest) = ds.length := by
  rw [runLength, takeWhile_append_of_head hds hrest]

theorem IsExponent.pointLength (h : IsExponent x) : pointLength x = 0 := by
  cases h with
  | none => rfl
  | some c sign ds hc => obtain rfl | rfl := hc <;> rfl

theorem mantissaLength_of_isMantissa (hm : IsMantissa m) (hx : IsExponent x) :
    mantissaLength (m ++ x) = m.length := by
  have hend : ∀ c ∈ x.head?, isDigit c = false := fun c hc => (hx.endsRun c hc).1
  cases hm with
  | whole _ hne hds =>
      have hpos : 0 < m.length := List.length_pos_iff.2 hne
      rw [mantissaLength_eq, runLength_append hds hend, List.drop_left, hx.pointLength,
        if_neg (by omega), Nat.add_zero]
  | point ds fs hne hds hfs =>
      have hpoint : ∀ c ∈ ('.' :: (fs ++ x)).head?, isDigit c = false := by
        rintro _ ⟨⟩
        decide
      have hfraction : Formula.pointLength ('.' :: (fs ++ x)) = 1 + fs.length := by
        rw [← runLength_append hfs hend]
        rfl
      have hpos : 0 < ds.length ∨ 0 < fs.length :=
        hne.imp List.length_pos_iff.2 List.length_pos_iff.2
      rw [List.append_assoc, List.cons_append, mantissaLength_eq, runLength_append hds hpoint,
        List.drop_left, hfraction, if_neg (by omega), List.length_append, List.length_cons,
        Nat.add_comm 1]

theorem exponentLength_of_isExponent (h : IsExponent x) : exponentLength x = x.length := by
  cases h with
  | none => rfl
  | some c sign ds hc hsign hne hds =>
      have hrun : runLength ds = ds.length := by
        have hempty : ∀ c ∈ ([] : List Char).head?, isDigit c = false := by simp
        simpa using runLength_append hds hempty
      have hlength : signLength (sign ++ ds) = sign.length := by
        obtain ⟨d, ds, rfl⟩ := List.exists_cons_of_ne_nil hne
        obtain rfl | rfl | rfl := hsign
        · refine if_neg ?_
          rintro (hd | hd)
          all_goals
            cases hd
            exact absurd (hds _ List.mem_cons_self) (by decide)
        · rfl
        · rfl
      rw [exponentLength_cons, hlength, List.drop_left, hrun,
        if_pos ⟨hc, List.length_pos_iff.2 hne⟩, List.length_cons, List.length_append]
      omega

theorem numberLength_of_isNumberText (h : IsNumberText w) :
    0 < numberLength w ∧ numberLength w = w.length := by
  obtain ⟨m, x, rfl, hm, hx⟩ := h
  obtain ⟨c, cs, rfl, -⟩ := hm.head
  rw [numberLength, mantissaLength_of_isMantissa hm hx, List.length_cons]
  dsimp only
  rw [← List.length_cons, List.drop_left, exponentLength_of_isExponent hx, List.length_append,
    List.length_cons]
  omega

theorem front?_of_isLexeme (h : IsLexeme kind w) : front? w = some (kind, w.length) := by
  cases h with
  | number h =>
      obtain ⟨hpos, hlength⟩ := numberLength_of_isNumberText h
      rw [front?, if_pos hpos, hlength]
  | name h =>
      rw [isName, String.toList_ofList] at h
      split at h
      · cases h
      · rw [Bool.and_eq_true] at h
        have hend : EndsName [] := by simp [EndsName]
        simpa using front?_name h.1 h.2 hend
  | operator h => exact front?_operator h (by simp)
  | doubleStar => decide

theorem isLexeme_of_front? (h : front? cs = some (kind, n)) : IsLexeme kind (cs.take n) := by
  unfold front? at h
  split at h
  · next hnumber =>
    cases h
    exact .number (isNumberText_take hnumber)
  · split at h
    · next hname =>
      cases h
      exact .name (isName_take_nameLength hname)
    · split at h
      · next hoperator =>
        cases h
        cases cs with
        | nil => cases hoperator
        | cons c rest =>
            rw [operatorLength_cons] at hoperator ⊢
            by_cases hdouble : c = '*' ∧ rest.head? = some '*'
            · rw [if_pos hdouble]
              obtain ⟨rfl, hstar⟩ := hdouble
              obtain ⟨rest, rfl⟩ := List.head?_eq_some_iff.1 hstar
              exact .doubleStar
            · rw [if_neg hdouble] at hoperator ⊢
              by_cases hc : isOperator c = true
              · rw [if_pos hc]
                exact .operator hc
              · rw [if_neg hc] at hoperator
                cases hoperator
      · cases h

theorem length_of_front? (h : front? cs = some (kind, n)) : (cs.take n).length = n := by
  have hword := front?_of_isLexeme (isLexeme_of_front? h)
  rw [front?_take h (Nat.le_refl n), Option.some.injEq, Prod.mk.injEq] at hword
  exact hword.2.symm

/-- A text begins with a word of a kind and length just if no longer one stands there. -/
theorem front?_eq_some_iff : front? cs = some (kind, n) ↔ n ≤ cs.length ∧
    IsLexeme kind (cs.take n) ∧ ∀ k v, IsLexeme k v → v <+: cs → v.length ≤ n := by
  constructor
  · intro h
    have hlength : (cs.take n).length = n := length_of_front? h
    rw [List.length_take] at hlength
    refine ⟨by omega, isLexeme_of_front? h, fun k v hv hprefix => ?_⟩
    -- The text that is cut behind a longer word would begin with both.
    by_contra hlonger
    have hcut := front?_take h (Nat.le_of_not_le hlonger)
    rw [← List.prefix_iff_eq_take.1 hprefix, front?_of_isLexeme hv] at hcut
    cases hcut
    exact hlonger (Nat.le_refl _)
  · rintro ⟨hn, hlexeme, hlongest⟩
    have hword := front?_of_isLexeme hlexeme
    rw [List.length_take, Nat.min_eq_left hn] at hword
    cases hfront : front? cs with
    | none => cases (front?_take_of_none hfront n).symm.trans hword
    | some found =>
        obtain ⟨k, l⟩ := found
        have hle : l ≤ n := by
          rw [← length_of_front? hfront]
          exact hlongest k _ (isLexeme_of_front? hfront) (List.take_prefix l cs)
        rw [← front?_take hfront hle, hword]

/-! ### Words and blanks -/

theorem isBlank_of_isNamePart (h : isNamePart c = true) : isBlank c = false := by
  rw [isNamePart, Char.isAlphanum, Bool.or_eq_true, Bool.or_eq_true] at h
  obtain (halpha | hdigit) | hline := h
  · exact isBlank_of_isNameStart (by rw [isNameStart, halpha, Bool.true_or])
  · exact isBlank_of_isDigit (isDigit_of_isDigit hdigit)
  · exact isBlank_of_isNameStart (by rw [isNameStart, hline, Bool.or_true])

theorem isBlank_of_isOperator (h : isOperator c = true) : isBlank c = false := by
  have hplain : "-+*/^(),".toList.all (fun d => !isBlank d) = true := by decide
  rw [isOperator, List.contains_iff_mem] at h
  simpa using List.all_eq_true.1 hplain c h

theorem IsLexeme.ne_nil (h : IsLexeme kind w) : w ≠ [] := by
  rintro rfl
  cases front?_of_isLexeme h

theorem IsLexeme.isBlank (h : IsLexeme kind w) : ∀ c ∈ w, isBlank c = false := by
  cases h with
  | number h => exact h.isBlank
  | name h =>
      rw [isName, String.toList_ofList] at h
      split at h
      · cases h
      · rw [Bool.and_eq_true, List.all_eq_true] at h
        exact List.forall_mem_cons.2 ⟨isBlank_of_isNameStart h.1, fun c hc =>
          isBlank_of_isNamePart (h.2 c hc)⟩
  | operator h => simpa using isBlank_of_isOperator h
  | doubleStar => exact List.forall_mem_cons.2 ⟨rfl, List.forall_mem_singleton.2 rfl⟩

/-- What follows a word is nothing or a blank. -/
def EndsWord (rest : List Char) : Prop := ∀ c ∈ rest.head?, isBlank c = true

theorem front?_append (h : IsLexeme kind w) (hrest : EndsWord rest) :
    front? (w ++ rest) = some (kind, w.length) := by
  have hword := front?_of_isLexeme h
  cases rest with
  | nil => rwa [List.append_nil]
  | cons c rest =>
      cases hfront : front? (w ++ c :: rest) with
      | none =>
          have hcut := front?_take_of_none hfront w.length
          rw [List.take_left, hword] at hcut
          cases hcut
      | some found =>
          obtain ⟨k, l⟩ := found
          have hle : l ≤ w.length := by
            by_contra hlonger
            obtain ⟨d, hd⟩ := Nat.exists_eq_add_of_lt (Nat.lt_of_not_le hlonger)
            have hc : c ∈ (w ++ c :: rest).take l := by
              rw [hd, Nat.add_assoc, List.take_length_add_append, List.take_succ_cons]
              simp
            have hnot := (isLexeme_of_front? hfront).isBlank c hc
            rw [hrest c rfl] at hnot
            cases hnot
          rw [← front?_take hfront hle, List.take_left, hword]

theorem IsLexeme.spells (h : IsLexeme kind w) : Spells EndsWord w fun ts =>
    ∃ t, ts = [t] ∧ t.kind = kind ∧ t.text = tokenText kind w :=
  spells_word h.ne_nil (fun c hc => h.isBlank c (List.mem_of_mem_head? hc))
    fun _ hrest => front?_append h hrest

/-- The text a word is known by is a word too, and known by itself. -/
theorem IsLexeme.tokenText (h : IsLexeme kind w) : IsLexeme kind (tokenText kind w).toList ∧
    Formula.tokenText kind (Formula.tokenText kind w).toList = Formula.tokenText kind w := by
  by_cases hdouble : kind = .op ∧ w = ['*', '*']
  · rw [Formula.tokenText, if_pos hdouble, hdouble.1]
    exact ⟨.operator (c := '^') rfl, rfl⟩
  · rw [Formula.tokenText, if_neg hdouble, String.toList_ofList, Formula.tokenText, if_neg hdouble]
    exact ⟨h, rfl⟩

/-! ### Where words stand -/

/-- A token stands for the `n` characters at its place: they are a word of its kind, no word that
begins there is longer, and the token is known by them. -/
structure Token.Spans (cs : List Char) (t : Token) (n : Nat) : Prop where
  inside : t.position + n ≤ cs.length
  lexeme : IsLexeme t.kind ((cs.drop t.position).take n)
  longest : ∀ kind v, IsLexeme kind v → v <+: cs.drop t.position → v.length ≤ n
  text : t.text = tokenText t.kind ((cs.drop t.position).take n)

theorem Token.spans_iff : t.Spans cs n ↔ front? (cs.drop t.position) = some (t.kind, n) ∧
    t.text = tokenText t.kind ((cs.drop t.position).take n) := by
  constructor
  · intro h
    refine ⟨front?_eq_some_iff.2 ⟨?_, h.lexeme, h.longest⟩, h.text⟩
    have := h.inside
    rw [List.length_drop]
    omega
  · rintro ⟨hfront, htext⟩
    have hpos := length_pos_of_front? hfront
    obtain ⟨hn, hlexeme, hlongest⟩ := front?_eq_some_iff.1 hfront
    rw [List.length_drop] at hn
    exact ⟨by omega, hlexeme, hlongest, htext⟩

theorem Token.Spans.pos (h : t.Spans cs n) : 0 < n := length_pos_of_front? (spans_iff.1 h).1

theorem Token.Spans.unique {k : Nat} (hn : t.Spans cs n) (hk : t.Spans cs k) : n = k := by
  have hfront := (spans_iff.1 hn).1.symm.trans (spans_iff.1 hk).1
  cases hfront
  rfl

theorem Token.At.exists_spans (h : t.At cs) : ∃ n, t.Spans cs n := by
  obtain ⟨n, h⟩ := h
  exact ⟨n, spans_iff.2 h⟩

/-- Every character is blank or belongs to a token. -/
theorem covered_of_tokensFrom (h : tokensFrom p cs = .ok ts) {k : Nat} (hc : cs[k]? = some c) :
    isBlank c = true ∨ ∃ t ∈ ts, ∃ j n, t.position = p + j ∧
      front? (cs.drop j) = some (t.kind, n) ∧ j ≤ k ∧ k < j + n := by
  fun_induction tokensFrom p cs generalizing ts k with
  | case1 p => cases hc
  | case2 p d rest hblank ih =>
      cases k with
      | zero =>
          cases hc
          exact .inl hblank
      | succ k =>
          refine (ih h hc).imp_right ?_
          rintro ⟨t, ht, j, n, hj, hfront, hle, hlt⟩
          exact ⟨t, ht, j + 1, n, by omega, hfront, by omega, by omega⟩
  | case3 => cases h
  | case4 p d rest hblank kind n hfront ih =>
      cases htail : tokensFrom (p + n) ((d :: rest).drop n) with
      | error q =>
          rw [htail] at h
          cases h
      | ok tail =>
          rw [htail] at h
          cases h
          by_cases hk : k < n
          · exact .inr ⟨_, List.mem_cons_self, 0, n, rfl, hfront, Nat.zero_le k, by omega⟩
          · obtain ⟨k, rfl⟩ := Nat.exists_eq_add_of_le (Nat.le_of_not_lt hk)
            rw [← List.getElem?_drop] at hc
            refine (ih htail hc).imp_right ?_
            rintro ⟨t, ht, j, m, hj, hrest, hle, hlt⟩
            rw [List.drop_drop] at hrest
            exact ⟨t, List.mem_cons_of_mem _ ht, n + j, m, by omega, hrest, by omega, by omega⟩

/-- A token ends before the next one begins. -/
theorem pairwise_of_tokensFrom {whole : List Char} (hcs : whole.drop p = cs)
    (h : tokensFrom p cs = .ok ts) :
    ts.Pairwise fun t u => ∀ n, t.Spans whole n → t.position + n ≤ u.position := by
  fun_induction tokensFrom p cs generalizing ts with
  | case1 p =>
      cases h
      exact .nil
  | case2 p d rest hblank ih =>
      exact ih (by rw [← List.drop_drop, hcs, List.drop_one, List.tail_cons]) h
  | case3 => cases h
  | case4 p d rest hblank kind n hfront ih =>
      cases htail : tokensFrom (p + n) ((d :: rest).drop n) with
      | error q =>
          rw [htail] at h
          cases h
      | ok tail =>
          rw [htail] at h
          cases h
          refine .cons (fun u hu k hk => ?_) (ih (by rw [← List.drop_drop, hcs]) htail)
          have hkind := (Token.spans_iff.1 hk).1
          dsimp only at hkind
          rw [hcs, hfront] at hkind
          cases hkind
          obtain ⟨j, -, hj, -⟩ := exists_front?_of_tokensFrom htail hu
          rw [hj]
          exact Nat.le_add_right _ _

/-! ### The end of a text -/

theorem lt_length_rdropWhile {k : Nat} (hc : cs[k]? = some c) (hblank : isBlank c = false) :
    k < (cs.rdropWhile isBlank).length := by
  by_contra hle
  rw [← List.rdropWhile_append_rtakeWhile (p := isBlank) (l := cs),
    List.getElem?_append_right (Nat.le_of_not_lt hle)] at hc
  have := List.mem_rtakeWhile_imp (List.mem_of_getElem? hc)
  rw [hblank] at this
  cases this

/-- The end of the last token is the end of the text, but for blanks. -/
theorem Token.Spans.le_end (h : t.Spans cs n) :
    t.position + n ≤ (cs.rdropWhile isBlank).length := by
  have hpos := h.pos
  have hinside := h.inside
  have hlt : t.position + (n - 1) < cs.length := by omega
  have hlast : cs[t.position + (n - 1)]? = some cs[t.position + (n - 1)] :=
    List.getElem?_eq_getElem hlt
  have hmem : cs[t.position + (n - 1)] ∈ (cs.drop t.position).take n := by
    refine List.mem_of_getElem? (i := n - 1) ?_
    rw [List.getElem?_take_of_lt (by omega), List.getElem?_drop, hlast]
  have := lt_length_rdropWhile hlast (h.lexeme.isBlank _ hmem)
  omega

/-! ### Words with blanks between them -/

/-- What a token is without its place. -/
def Token.word (t : Token) : TokenKind × String := (t.kind, t.text)

/-- The text of a token is a word, which reads as this token. -/
def Token.Readable (t : Token) : Prop :=
  IsLexeme t.kind t.text.toList ∧ tokenText t.kind t.text.toList = t.text

theorem Token.Spans.readable (h : t.Spans cs n) : t.Readable := by
  rw [Token.Readable, h.text]
  exact h.lexeme.tokenText

theorem spells_blanks {F : List Char → Prop} (h : ∀ c ∈ sep, isBlank c = true) :
    Spells F sep (· = []) := by
  induction sep with
  | nil => exact spells_nil
  | cons c sep ih =>
      rw [List.forall_mem_cons] at h
      intro rest hrest p
      obtain ⟨_, rfl, htokens⟩ := ih h.2 rest hrest (p + 1)
      refine ⟨[], rfl, ?_⟩
      rw [List.cons_append, tokensFrom_of_isBlank h.1, htokens, List.length_cons, Nat.add_assoc,
        Nat.add_comm 1]

theorem Token.Readable.spells (h : t.Readable) :
    Spells EndsWord t.text.toList fun us => us.map Token.word = [t.word] := by
  refine h.1.spells.mono (fun _ hrest => hrest) ?_
  rintro _ ⟨u, rfl, hkind, htext⟩
  rw [List.map_singleton, Token.word, Token.word, hkind, htext, h.2]

theorem spells_intercalate (hne : sep ≠ []) (hblank : ∀ c ∈ sep, isBlank c = true)
    (hts : ∀ t ∈ ts, t.Readable) : Spells EndsWord (sep.intercalate (ts.map (·.text.toList)))
      fun us => us.map Token.word = ts.map Token.word := by
  induction ts with
  | nil =>
      refine spells_nil.mono (fun _ hrest => hrest) ?_
      rintro _ rfl
      rfl
  | cons t ts ih =>
      rw [List.forall_mem_cons] at hts
      cases ts with
      | nil =>
          rw [List.map_singleton, List.map_singleton, List.intercalate_singleton]
          exact hts.1.spells
      | cons u ts =>
          have hends (rest : List Char) : EndsWord (sep ++ rest) := by
            obtain ⟨c, sep, rfl⟩ := List.exists_cons_of_ne_nil hne
            rintro _ ⟨⟩
            exact hblank c List.mem_cons_self
          have hfirst := hts.1.spells.append (spells_blanks (F := fun _ => True) hblank)
            fun rest _ => hends rest
          rw [List.map_cons, List.map_cons, List.intercalate_cons_cons]
          refine (hfirst.append (ih hts.2) fun _ _ => trivial).mono (fun _ hrest => hrest) ?_
          rintro _ ⟨_, vs, ⟨us, _, hus, rfl, rfl⟩, hvs, rfl⟩
          rw [List.map_append, List.map_append, hus, hvs]
          rfl

/-- An empty word at the end is a separator at the end. -/
theorem intercalate_concat_nil (ws : List (List Char)) : ∃ rest, (rest = [] ∨ rest = sep) ∧
    sep.intercalate (ws ++ [[]]) = sep.intercalate ws ++ rest := by
  induction ws with
  | nil => exact ⟨[], .inl rfl, rfl⟩
  | cons w ws ih =>
      cases ws with
      | nil => exact ⟨sep, .inr rfl, by simp [List.intercalate_cons_cons]⟩
      | cons v ws =>
          obtain ⟨rest, hrest, heq⟩ := ih
          rw [List.cons_append] at heq
          refine ⟨rest, hrest, ?_⟩
          rw [List.cons_append, List.cons_append, List.intercalate_cons_cons, heq,
            List.intercalate_cons_cons, List.append_assoc (w ++ sep)]

/-- Text put together from the words of a text is split into these words. -/
theorem tokenize_intercalate {blank : String} (h : tokenize cs = .ok ts) (hne : blank ≠ "")
    (hblank : ∀ c ∈ blank.toList, isBlank c = true) (hus : us = ts ∨ us = ts.dropLast) :
    ∃ vs, tokenize (blank.intercalate (us.map (·.text))).toList = .ok vs ∧
      vs.map Token.word = ts.map Token.word := by
  obtain ⟨ts, htokens, rfl⟩ := tokenize_eq_ok_iff.1 h
  rw [List.dropLast_concat] at hus
  have hreadable : ∀ t ∈ ts, t.Readable := fun t ht => by
    obtain ⟨n, hn⟩ := (at_of_tokensFrom htokens ht).exists_spans
    exact hn.readable
  have hspells := spells_intercalate (by simpa using hne) hblank hreadable
  have htext : ∃ rest, (rest = [] ∨ rest = blank.toList) ∧
      (blank.intercalate (us.map (·.text))).toList =
        blank.toList.intercalate (ts.map (·.text.toList)) ++ rest := by
    rw [String.toList_intercalate, List.map_map]
    obtain rfl | rfl := hus
    · rw [List.map_append]
      exact intercalate_concat_nil _
    · exact ⟨[], .inl rfl, (List.append_nil _).symm⟩
  obtain ⟨rest, hrest, htext⟩ := htext
  have hall : ∀ c ∈ rest, isBlank c = true := by
    obtain rfl | rfl := hrest
    · simp
    · exact hblank
  obtain ⟨vs, hvs, hwhole⟩ := hspells rest (fun c hc => hall c (List.mem_of_mem_head? hc)) 0
  rw [tokensFrom_eq_nil_iff.2 hall] at hwhole
  refine ⟨_, tokenize_eq_ok_iff.2 ⟨vs ++ [], by rw [htext, hwhole]; rfl, rfl⟩, ?_⟩
  rw [List.append_nil, List.map_append, List.map_append, hvs]
  rfl

end Gantry.Formula
