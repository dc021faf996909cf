import Gantry.Proofs.Formula.Reading

/-!
Reading follows the grammar. What a rule reads from the front of some tokens is
a phrase of the rule, and every phrase is read whole wherever the token after it
cannot continue it. The tree of a text is therefore the tree of its derivation,
and a text has no other.
-/

namespace Gantry.Formula

variable {σ : Signature} {ts : List Token} {e : Formula}

/-! ### What is read is a phrase -/

-- A rule hands its tokens on to the rule below it, or has read one first: the second
-- number counts the rules that are still below.
mutual

theorem isSum_of_reads {ts rest : List Token} {e : Formula} (h : Reads (parseSum σ ts) e rest) :
    ∃ used, ts = used ++ rest ∧ IsSum σ used e := by
  obtain ⟨a, mid, hproduct, hterms⟩ := reads_sum_iff.1 h
  have hlt := hproduct.length_lt
  obtain ⟨used, hused, ha⟩ := isProduct_of_reads hproduct
  obtain ⟨more, hmore, he⟩ := isSum_of_reads_terms (.product ha) hterms
  exact ⟨used ++ more, by rw [hused, hmore, List.append_assoc], he⟩
termination_by (ts.length, 5)

theorem isSum_of_reads_terms {ts rest used : List Token} {l e : Formula} (hl : IsSum σ used l)
    (h : Reads (parseTerms σ l ts) e rest) :
    ∃ more, ts = more ++ rest ∧ IsSum σ (used ++ more) e := by
  by_cases hts : Without ["+", "-"] ts
  · obtain ⟨rfl, rfl⟩ := (reads_terms_iff hts).1 h
    exact ⟨[], rfl, by rwa [List.append_nil]⟩
  · obtain ⟨t, us, rfl, ht⟩ := exists_of_not_without_two hts
    obtain ⟨b, mid, hproduct, hterms⟩ := (reads_terms_cons_iff ht).1 h
    have hlt := hproduct.length_lt
    obtain ⟨next, hnext, hb⟩ := isProduct_of_reads hproduct
    obtain ⟨more, hmore, he⟩ := isSum_of_reads_terms (.term hl ht hb) hterms
    exact ⟨t :: (next ++ more), by simp [hnext, hmore], by simpa using he⟩
termination_by (ts.length, 0)

theorem isProduct_of_reads {ts rest : List Token} {e : Formula}
    (h : Reads (parseProduct σ ts) e rest) : ∃ used, ts = used ++ rest ∧ IsProduct σ used e := by
  obtain ⟨a, mid, hsigned, hfactors⟩ := reads_product_iff.1 h
  have hlt := hsigned.length_lt
  obtain ⟨used, hused, ha⟩ := isSigned_of_reads hsigned
  obtain ⟨more, hmore, he⟩ := isProduct_of_reads_factors (.signed ha) hfactors
  exact ⟨used ++ more, by rw [hused, hmore, List.append_assoc], he⟩
termination_by (ts.length, 4)

theorem isProduct_of_reads_factors {ts rest used : List Token} {l e : Formula}
    (hl : IsProduct σ used l) (h : Reads (parseFactors σ l ts) e rest) :
    ∃ more, ts = more ++ rest ∧ IsProduct σ (used ++ more) e := by
  by_cases hts : Without ["*", "/"] ts
  · obtain ⟨rfl, rfl⟩ := (reads_factors_iff hts).1 h
    exact ⟨[], rfl, by rwa [List.append_nil]⟩
  · obtain ⟨t, us, rfl, ht⟩ := exists_of_not_without_two hts
    obtain ⟨b, mid, hsigned, hfactors⟩ := (reads_factors_cons_iff ht).1 h
    have hlt := hsigned.length_lt
    obtain ⟨next, hnext, hb⟩ := isSigned_of_reads hsigned
    obtain ⟨more, hmore, he⟩ := isProduct_of_reads_factors (.factor hl ht hb) hfactors
    exact ⟨t :: (next ++ more), by simp [hnext, hmore], by simpa using he⟩
termination_by (ts.length, 0)

theorem isSigned_of_reads {ts rest : List Token} {e : Formula}
    (h : Reads (parseSigned σ ts) e rest) : ∃ used, ts = used ++ rest ∧ IsSigned σ used e := by
  by_cases hts : Without ["-", "+"] ts
  · obtain ⟨used, hused, he⟩ := isPower_of_reads ((reads_signed_iff hts).1 h)
    exact ⟨used, hused, .power he⟩
  · obtain ⟨t, us, rfl, ht⟩ := exists_of_not_without_two hts
    obtain ⟨a, hsigned, rfl⟩ := (reads_signed_cons_iff ht).1 h
    obtain ⟨used, hused, ha⟩ := isSigned_of_reads hsigned
    exact ⟨t :: used, by rw [hused, List.cons_append], .sign ht ha⟩
termination_by (ts.length, 3)

theorem isPower_of_reads {ts rest : List Token} {e : Formula}
    (h : Reads (parsePower σ ts) e rest) : ∃ used, ts = used ++ rest ∧ IsPower σ used e := by
  obtain ⟨a, mid, hatom, hrest⟩ := reads_power_iff.1 h
  have hlt := hatom.length_lt
  obtain ⟨used, hused, ha⟩ := isAtom_of_reads hatom
  obtain ⟨rfl, rfl, -⟩ | ⟨p, us, b, rfl, hp, hsigned, rfl⟩ := hrest
  · exact ⟨used, hused, .atom ha⟩
  · rw [List.length_cons] at hlt
    obtain ⟨more, hmore, hb⟩ := isSigned_of_reads hsigned
    exact ⟨used ++ p :: more, by simp [hused, hmore], .power ha hp hb⟩
termination_by (ts.length, 2)

theorem isAtom_of_reads {ts rest : List Token} {e : Formula} (h : Reads (parseAtom σ ts) e rest) :
    ∃ used, ts = used ++ rest ∧ IsAtom σ used e := by
  obtain ⟨t, us, rfl, hkind | hkind | hopen⟩ := atom_cases h
  · obtain ⟨n, hn, rfl, rfl⟩ := (reads_number_iff hkind).1 h
    exact ⟨[t], rfl, .number hkind hn⟩
  · by_cases hus : Without ["("] us
    · obtain ⟨rfl, rfl⟩ := (reads_name_iff hkind hus).1 h
      exact ⟨[t], rfl, isAtom_name hkind⟩
    · obtain ⟨p, inside, rfl, s, hs, hp⟩ := exists_of_not_without hus
      rw [List.mem_singleton.1 hs] at hp
      obtain ⟨args, hargs, haccepts, rfl⟩ := (reads_call_iff hkind hp).1 h
      obtain ⟨used, q, hused, hq, hargs⟩ := areArguments_of_reads hargs
      exact ⟨t :: p :: (used ++ [q]), by simp [hused], .call hkind hp hargs hq haccepts⟩
  · obtain ⟨a, q, hsum, hq, rfl⟩ := (reads_group_iff hopen).1 h
    obtain ⟨used, hused, ha⟩ := isSum_of_reads hsum
    exact ⟨t :: (used ++ [q]), by simp [hused], .group hopen ha hq⟩
termination_by (ts.length, 1)

theorem areArguments_of_reads {ts rest : List Token} {args : List Formula}
    (h : Reads (parseArguments σ ts) args rest) :
    ∃ used q, ts = used ++ q :: rest ∧ q.Is ")" ∧ AreArguments σ used args := by
  obtain ⟨q, rfl, hq, rfl⟩ | ⟨-, hlist⟩ := reads_arguments_iff.1 h
  · exact ⟨[], q, rfl, hq, .none⟩
  · obtain ⟨used, q, hused, hq, hargs, -⟩ := areArguments_of_reads_list hlist
    exact ⟨used, q, hused, hq, hargs⟩
termination_by (ts.length, 7)

theorem areArguments_of_reads_list {ts rest : List Token} {args : List Formula}
    (h : Reads (parseArgumentList σ ts) args rest) :
    ∃ used q, ts = used ++ q :: rest ∧ q.Is ")" ∧ AreArguments σ used args ∧ args ≠ [] := by
  obtain ⟨a, t, us, hsum, hrest⟩ := reads_argumentList_iff.1 h
  have hlt := hsum.length_lt
  rw [List.length_cons] at hlt
  obtain ⟨used, hused, ha⟩ := isSum_of_reads hsum
  obtain ⟨ht, rfl, rfl⟩ | ⟨ht, es, hlist, rfl⟩ := hrest
  · exact ⟨used, t, hused, ht, .last ha, by simp⟩
  · obtain ⟨more, q, hmore, hq, hes, hne⟩ := areArguments_of_reads_list hlist
    obtain ⟨b, es, rfl⟩ := List.exists_cons_of_ne_nil hne
    exact ⟨used ++ t :: more, q, by simp [hused, hmore], hq, .more ha ht hes, by simp⟩
termination_by (ts.length, 6)

end

/-! ### Every phrase is read -/

-- Sums and products grow at their right end in the grammar, but the rules loop from the
-- left. What the loop makes of the tokens after a phrase is therefore a hypothesis.
mutual

theorem reads_of_isSum {ts rest rest' : List Token} {e e' : Formula} :
    IsSum σ ts e → Without ["(", "^", "*", "/"] rest → Reads (parseTerms σ e rest) e' rest' →
      Reads (parseSum σ (ts ++ rest)) e' rest'
  | .product h, hrest, hterms => by
      have hfactors : Reads (parseFactors σ e rest) e rest :=
        (reads_factors_iff (hrest.mono (by decide))).2 ⟨rfl, rfl⟩
      exact reads_sum_iff.2
        ⟨e, rest, reads_of_isProduct h (hrest.mono (by decide)) hfactors, hterms⟩
  | @IsSum.term _ ts us t _ b ha ht hb, hrest, hterms => by
      have hright : Reads (parseProduct σ (us ++ rest)) b rest :=
        reads_of_isProduct hb (hrest.mono (by decide))
          ((reads_factors_iff (hrest.mono (by decide))).2 ⟨rfl, rfl⟩)
      rw [List.append_assoc, List.cons_append]
      exact reads_of_isSum ha (without_cons_of_or ht (by decide) (by decide))
        ((reads_terms_cons_iff ht).2 ⟨b, rest, hright, hterms⟩)

theorem reads_of_isProduct {ts rest rest' : List Token} {e e' : Formula} :
    IsProduct σ ts e → Without ["(", "^"] rest → Reads (parseFactors σ e rest) e' rest' →
      Reads (parseProduct σ (ts ++ rest)) e' rest'
  | .signed h, hrest, hfactors =>
      reads_product_iff.2 ⟨e, rest, reads_of_isSigned h hrest, hfactors⟩
  | @IsProduct.factor _ _ us _ _ b ha ht hb, hrest, hfactors => by
      have hright : Reads (parseSigned σ (us ++ rest)) b rest := reads_of_isSigned hb hrest
      rw [List.append_assoc, List.cons_append]
      exact reads_of_isProduct ha (without_cons_of_or ht (by decide) (by decide))
        ((reads_factors_cons_iff ht).2 ⟨b, rest, hright, hfactors⟩)

theorem reads_of_isSigned {ts rest : List Token} {e : Formula} :
    IsSigned σ ts e → Without ["(", "^"] rest → Reads (parseSigned σ (ts ++ rest)) e rest
  | .power h, hrest => by
      -- A power begins with an atom, so the rule sees no sign in front of it.
      have hpower : Reads (parsePower σ (ts ++ rest)) e rest := reads_of_isPower h hrest
      exact (reads_signed_iff (without_sign_of_reads_power hpower)).2 hpower
  | .sign ht h, hrest => (reads_signed_cons_iff ht).2 ⟨_, reads_of_isSigned h hrest, rfl⟩

theorem reads_of_isPower {ts rest : List Token} {e : Formula} :
    IsPower σ ts e → Without ["(", "^"] rest → Reads (parsePower σ (ts ++ rest)) e rest
  | .atom h, hrest =>
      reads_power_iff.2 ⟨e, rest, reads_of_isAtom h (hrest.mono (by decide)),
        .inl ⟨rfl, rfl, hrest.mono (by decide)⟩⟩
  | @IsPower.power _ ts us t a b ha ht hb, hrest => by
      have hbase : Reads (parseAtom σ (ts ++ t :: (us ++ rest))) a (t :: (us ++ rest)) :=
        reads_of_isAtom ha (without_cons ht (by decide))
      rw [List.append_assoc, List.cons_append]
      exact reads_power_iff.2 ⟨a, _, hbase,
        .inr ⟨t, us ++ rest, b, rfl, ht, reads_of_isSigned hb hrest, rfl⟩⟩

theorem reads_of_isAtom {ts rest : List Token} {e : Formula} :
    IsAtom σ ts e → Without ["("] rest → Reads (parseAtom σ (ts ++ rest)) e rest
  | .number hkind hn, _ => (reads_number_iff hkind).2 ⟨_, hn, rfl, rfl⟩
  | .constant hkind hconstant, hrest =>
      (reads_name_iff hkind hrest).2 ⟨(nameValue_of_isSome hconstant).symm, rfl⟩
  | .var hkind hconstant, hrest =>
      (reads_name_iff hkind hrest).2 ⟨(nameValue_of_none hconstant).symm, rfl⟩
  | @IsAtom.group _ ts _ q e hp hsum hq, _ => by
      have hinner : Reads (parseSum σ (ts ++ q :: rest)) e (q :: rest) :=
        reads_of_isSum hsum (without_cons hq (by decide))
          ((reads_terms_iff (without_cons hq (by decide))).2 ⟨rfl, rfl⟩)
      rw [List.cons_append, List.append_assoc, List.singleton_append]
      exact (reads_group_iff hp).2 ⟨e, q, hinner, hq, rfl⟩
  | @IsAtom.call _ ts _ _ q args hkind hp hargs hq haccepts, _ => by
      have hinside : Reads (parseArguments σ (ts ++ q :: rest)) args rest :=
        reads_arguments hq hargs fun hne => reads_of_areArguments hargs hne hq
      rw [List.cons_append, List.cons_append, List.append_assoc, List.singleton_append]
      exact (reads_call_iff hkind hp).2 ⟨args, hinside, haccepts, rfl⟩

theorem reads_of_areArguments {ts rest : List Token} {args : List Formula} {q : Token} :
    AreArguments σ ts args → args ≠ [] → q.Is ")" →
      Reads (parseArgumentList σ (ts ++ q :: rest)) args rest
  | .none, hne, _ => absurd rfl hne
  | @AreArguments.last _ _ e h, _, hq => by
      have hsum : Reads (parseSum σ (ts ++ q :: rest)) e (q :: rest) :=
        reads_of_isSum h (without_cons hq (by decide))
          ((reads_terms_iff (without_cons hq (by decide))).2 ⟨rfl, rfl⟩)
      exact reads_argumentList_iff.2 ⟨e, q, rest, hsum, .inl ⟨hq, rfl, rfl⟩⟩
  | @AreArguments.more _ ts us t a b es ha ht hes, _, hq => by
      have hsum : Reads (parseSum σ (ts ++ t :: (us ++ q :: rest))) a (t :: (us ++ q :: rest)) :=
        reads_of_isSum ha (without_cons ht (by decide))
          ((reads_terms_iff (without_cons ht (by decide))).2 ⟨rfl, rfl⟩)
      have hothers : Reads (parseArgumentList σ (us ++ q :: rest)) (b :: es) rest :=
        reads_of_areArguments hes (List.cons_ne_nil b es) hq
      rw [List.append_assoc, List.cons_append]
      exact reads_argumentList_iff.2 ⟨a, t, _, hsum, .inr ⟨ht, _, hothers, rfl⟩⟩

end

/-! ### Whole texts -/

theorem reads_whole_of_isSum {last : List Token} (h : IsSum σ ts e)
    (hlast : Without ["(", "^", "*", "/", "+", "-"] last) :
    Reads (parseSum σ (ts ++ last)) e last :=
  reads_of_isSum h (hlast.mono (by decide)) ((reads_terms_iff (hlast.mono (by decide))).2 ⟨rfl, rfl⟩)

/-- The grammar is unambiguous. -/
theorem IsSum.unique {d : Formula} (hd : IsSum σ ts d) (he : IsSum σ ts e) : d = e := by
  have hend : Without ["(", "^", "*", "/", "+", "-"] [] := by simp [Without]
  obtain ⟨_, hleft⟩ := reads_whole_of_isSum hd hend
  obtain ⟨_, hright⟩ := reads_whole_of_isSum he hend
  cases hleft.symm.trans hright
  rfl

theorem isSum_iff_of_isSum {d : Formula} (hd : IsSum σ ts d) : IsSum σ ts e ↔ e = d :=
  ⟨fun he => he.unique hd, fun he => he ▸ hd⟩

theorem parseTokens_iff_reads : parseTokens σ ts = .ok e ↔ (∀ t ∈ ts.head?, t.kind ≠ .stop) ∧
    ∃ u more, Reads (parseSum σ ts) e (u :: more) ∧ u.kind = .stop := by
  cases ts with
  | nil => simp [parseTokens, parseSum, parseProduct, parseSigned]
  | cons t ts =>
      rw [parseTokens]
      split
      · next hkind => simp [hkind]
      · next hkind =>
        rcases parseSum σ (t :: ts) with f | ⟨a, left, h⟩
        · simp
        · cases left with
          | nil => simp
          | cons u more =>
              dsimp only
              by_cases hu : u.kind = .stop <;> simp [and_assoc, hu, hkind, eq_comm (a := e)]

/-- A list of tokens before the end token is read as the tree of its derivation. -/
theorem parseTokens_eq_ok_iff {last : Token} (hlast : last.kind = .stop)
    (hts : ∀ t ∈ ts, t.kind ≠ .stop) :
    parseTokens σ (ts ++ [last]) = .ok e ↔ IsSum σ ts e := by
  constructor
  · intro h
    obtain ⟨-, u, more, hsum, hu⟩ := parseTokens_iff_reads.1 h
    obtain ⟨used, hused, he⟩ := isSum_of_reads hsum
    -- The only end token is the last one, so all tokens before it are used.
    have hmore : more = [] := by
      obtain hmore | ⟨front, z, rfl⟩ := List.eq_nil_or_concat more
      · exact hmore
      · have hsplit : ts ++ [last] = (used ++ u :: front) ++ [z] := by simpa using hused
        have hfront : ts = used ++ u :: front := (List.append_inj' hsplit rfl).1
        exact absurd hu (hts u (by simp [hfront]))
    subst hmore
    rw [(List.append_inj' hused rfl).1]
    exact he
  · intro h
    have hstop : Without ["(", "^", "*", "/", "+", "-"] [last] := by
      simp [Without, Token.Is, hlast]
    have hsum : Reads (parseSum σ (ts ++ [last])) e [last] := reads_whole_of_isSum h hstop
    refine parseTokens_iff_reads.2 ⟨fun t ht => hts t ?_, last, [], hsum, hlast⟩
    cases ts with
    | nil => exact absurd hsum.length_lt (Nat.lt_irrefl _)
    | cons t' ts =>
        cases ht
        exact List.mem_cons_self

theorem kind_ne_stop_of_front? {cs : List Char} {kind : TokenKind} {n : Nat}
    (h : front? cs = some (kind, n)) : kind ≠ .stop := by
  unfold front? at h
  split at h
  · cases h
    decide
  · split at h
    · cases h
      decide
    · split at h
      · cases h
        decide
      · cases h

theorem kind_ne_stop_of_tokensFrom {position : Nat} {cs : List Char}
    (h : tokensFrom position cs = .ok ts) : ∀ t ∈ ts, t.kind ≠ .stop := by
  fun_induction tokensFrom position cs generalizing ts with
  | case1 position =>
      cases h
      simp
  | case2 position c rest hblank ih => exact ih h
  | case3 => cases h
  | case4 position c rest hblank kind n hfront ih =>
      cases htail : tokensFrom (position + n) ((c :: rest).drop n) with
      | error p =>
          rw [htail] at h
          cases h
      | ok tail =>
          rw [htail] at h
          cases h
          exact List.forall_mem_cons.2 ⟨kind_ne_stop_of_front? hfront, ih htail⟩

/-- A text is read as the tree of the only derivation of its tokens. -/
theorem parseWith_eq_ok_iff {s : String} : parseWith σ s = .ok e ↔
    ∃ ts, tokensFrom 0 s.toList = .ok ts ∧ IsSum σ ts e := by
  rw [parseWith, tokenize]
  cases htokens : tokensFrom 0 s.toList with
  | error position => simp [Except.map]
  | ok ts =>
      have hparse : parseTokens σ (ts ++ [⟨.stop, "", textEnd s.toList⟩]) = .ok e ↔ IsSum σ ts e :=
        parseTokens_eq_ok_iff rfl (kind_ne_stop_of_tokensFrom htokens)
      simp only [Except.map, Except.ok.injEq, exists_eq_left', ← hparse]
      split <;> simp [*]

/-- The tree of a list of tokens is that of its derivation, of which there is
at most one. A sign stands before a whole power, an exponent may have a sign,
and powers associate to the right. -/
theorem parseTokens_iff_derivation {ts : List Token} {last : Token} (hlast : last.kind = .stop)
    (hts : ∀ t ∈ ts, t.kind ≠ .stop) :
    (∀ e, parseTokens .formulas (ts ++ [last]) = .ok e ↔ IsSum .formulas ts e) ∧
      (∀ us d e, IsSum .formulas us d → IsSum .formulas us e → d = e) ∧
      ∀ xs ys zs x y z s p q, s.Is "-" → p.Is "^" → q.Is "^" →
        IsAtom .formulas xs x → IsAtom .formulas ys y → IsAtom .formulas zs z →
          (∀ e, IsSum .formulas (s :: (xs ++ p :: ys)) e ↔ e = .unary "-" (.binary "^" x y)) ∧
          (∀ e, IsSum .formulas (xs ++ p :: s :: (ys ++ q :: zs)) e ↔
            e = .binary "^" x (.unary "-" (.binary "^" y z))) ∧
          ∀ e, IsSum .formulas (xs ++ p :: (ys ++ q :: zs)) e ↔
            e = .binary "^" x (.binary "^" y z) := by
  refine ⟨fun e => parseTokens_eq_ok_iff hlast hts, fun us d e hd he => hd.unique he, ?_⟩
  intro xs ys zs x y z s p q hs hp hq hx hy hz
  exact ⟨fun e => isSum_iff_of_isSum (isSum_sign_power hs hx hp hy),
    fun e => isSum_iff_of_isSum (isSum_power_sign_power hx hp hs hy hq hz),
    fun e => isSum_iff_of_isSum (isSum_power_power hx hp hy hq hz)⟩

/-- The tokens of `x^-abs(y)^2`. -/
def signedExponent : List Token :=
  [⟨.name, "x", 0⟩, ⟨.op, "^", 1⟩, ⟨.op, "-", 2⟩, ⟨.name, "abs", 3⟩, ⟨.op, "(", 6⟩,
    ⟨.name, "y", 7⟩, ⟨.op, ")", 8⟩, ⟨.op, "^", 9⟩, ⟨.number, "2", 10⟩]

theorem isAtom_abs :
    IsAtom .formulas [⟨.name, "abs", 3⟩, ⟨.op, "(", 6⟩, ⟨.name, "y", 7⟩, ⟨.op, ")", 8⟩]
      (.call "abs" [.variable "y"]) := by
  have hy : IsAtom .formulas [⟨.name, "y", 7⟩] (.variable "y") := .var rfl rfl
  have haccepts : Signature.formulas.Accepts "abs" 1 := accepts_formulas_iff.2 ⟨.abs, rfl, rfl⟩
  exact IsAtom.call (p := ⟨.op, "(", 6⟩) (q := ⟨.op, ")", 8⟩) rfl (by decide)
    (.last (IsPower.atom hy).isSum) (by decide) haccepts

theorem parseTokens_iff_derivation_signedExponent :
    (∀ t ∈ signedExponent, t.kind ≠ .stop) ∧
      parseTokens .formulas (signedExponent ++ [⟨.stop, "", 11⟩]) =
        .ok (.binary "^" (.variable "x")
          (.unary "-" (.binary "^" (.call "abs" [.variable "y"]) (.number (.int 2))))) := by
  have hts : ∀ t ∈ signedExponent, t.kind ≠ .stop := by decide
  have hx : IsAtom .formulas [⟨.name, "x", 0⟩] (.variable "x") := .var rfl rfl
  have htwo : IsAtom .formulas [⟨.number, "2", 10⟩] (.number (.int 2)) :=
    .number rfl (by decide +kernel)
  obtain ⟨hparse, -, hgroup⟩ := @parseTokens_iff_derivation signedExponent ⟨.stop, "", 11⟩ rfl hts
  refine ⟨hts, (hparse _).2 ?_⟩
  exact ((hgroup [⟨.name, "x", 0⟩] _ [⟨.number, "2", 10⟩] _ _ _ ⟨.op, "-", 2⟩ ⟨.op, "^", 1⟩
    ⟨.op, "^", 9⟩ (by decide) (by decide) (by decide) hx isAtom_abs htwo).2.1 _).2 rfl

end Gantry.Formula
