import Gantry.Proofs.Formula.Lexemes

/-!
Reading goes by the words of a text. Texts of the same words are read as the same tree or fail for
the same cause, at the same one of their words; where the words stand makes no difference. So the
blanks of a text may be put differently, as long as its words stay apart.
-/

namespace Gantry.Formula

open Text

/-- Tokens of one word at places that are related. -/
inductive Token.Alike (R : Nat → Nat → Prop) : Token → Token → Prop
  | mk (kind : TokenKind) (text : String) {p q : Nat} : R p q →
      Token.Alike R ⟨kind, text, p⟩ ⟨kind, text, q⟩

/-- What comes of a rule on tokens that are alike: the same is read and what is left is alike, or
there are failures for one cause. -/
inductive Alike (R : Nat → Nat → Prop) {α : Type} {P Q : List Token → Prop}
    (x : Except ParseStop (α × Subtype P)) (y : Except ParseStop (α × Subtype Q)) : Prop
  | reads (a : α) (l r : List Token) : Reads x a l → Reads y a r →
      List.Forall₂ (Token.Alike R) l r → Alike R x y
  | fails (f g : ParseStop) : x = .error f → y = .error g → f.cause = g.cause →
      R f.position g.position → Alike R x y

variable {R : Nat → Nat → Prop} {σ : Signature} {ts us : List Token}
  {p q : Nat} {α β : Type} {P Q P' Q' : List Token → Prop}
  {x : Except ParseStop (α × Subtype P)} {y : Except ParseStop (α × Subtype Q)}
  {x' : Except ParseStop (β × Subtype P')} {y' : Except ParseStop (β × Subtype Q')}

theorem Alike.fails_at (cause : ParseCause) (h : R p q) (hx : x = .error ⟨cause, p⟩)
    (hy : y = .error ⟨cause, q⟩) : Alike R x y :=
  .fails _ _ hx hy rfl h

/-- Rules that begin with others fail with them and go on where they leave off. -/
theorem Alike.andThen (h : Alike R x y) (hx : ∀ f, x = .error f → x' = .error f)
    (hy : ∀ f, y = .error f → y' = .error f)
    (hok : ∀ a l r, Reads x a l → Reads y a r → List.Forall₂ (Token.Alike R) l r → Alike R x' y') :
    Alike R x' y' := by
  cases h with
  | reads a l r hl hr hlr => exact hok a l r hl hr hlr
  | fails f g hf hg hcause hp => exact .fails f g (hx f hf) (hy g hg) hcause hp

/-- Rules that end with others leave off with them. -/
theorem Alike.lift (h : Alike R x y) (g : α → β) (hx : ∀ a l, Reads x a l → Reads x' (g a) l)
    (hx' : ∀ f, x = .error f → x' = .error f) (hy : ∀ a r, Reads y a r → Reads y' (g a) r)
    (hy' : ∀ f, y = .error f → y' = .error f) : Alike R x' y' :=
  h.andThen hx' hy' fun a l r hl hr hlr => .reads (g a) l r (hx a l hl) (hy a r hr) hlr

theorem without_of_alike {texts : List String} (h : List.Forall₂ (Token.Alike R) ts us)
    (hts : Without texts ts) : Without texts us := by
  cases h with
  | nil => exact hts
  | cons htu _ =>
      cases htu with
      | @mk kind text p =>
          rintro _ ⟨⟩
          exact hts ⟨kind, text, p⟩ rfl

/-! ### Rules on tokens that are alike -/

theorem alike_group (hzero : R 0 0) (h : Alike R (parseSum σ ts) (parseSum σ us)) :
    Alike R (parseAtom σ (⟨.op, "(", p⟩ :: ts)) (parseAtom σ (⟨.op, "(", q⟩ :: us)) := by
  have hopen {r : Nat} : Token.Is ⟨.op, "(", r⟩ "(" := ⟨rfl, rfl⟩
  refine h.andThen (fun f => group_eq_error_of_sum hopen) (fun f => group_eq_error_of_sum hopen) ?_
  intro a l r hl hr hlr
  cases hlr with
  | nil =>
      refine .fails_at (.expected ")") hzero ?_ ?_
      · obtain ⟨_, hl⟩ := hl
        rw [parseAtom.eq_def]
        simp only [hl, if_true]
      · obtain ⟨_, hr⟩ := hr
        rw [parseAtom.eq_def]
        simp only [hr, if_true]
  | cons htu hrest =>
      cases htu with
      | mk kind text hpq =>
          by_cases hclose : kind = .op ∧ text = ")"
          · exact .reads (.group a) _ _ ((reads_group_iff hopen).2 ⟨a, _, hl, hclose, rfl⟩)
              ((reads_group_iff hopen).2 ⟨a, _, hr, hclose, rfl⟩) hrest
          · exact .fails_at _ hpq (group_eq_error hopen hl hclose) (group_eq_error hopen hr hclose)

theorem alike_call {name : String} {t u : Token} (hpq : R p q) (ht : t.Is "(") (hu : u.Is "(")
    (h : Alike R (parseArguments σ ts) (parseArguments σ us)) :
    Alike R (parseAtom σ (⟨.name, name, p⟩ :: t :: ts))
      (parseAtom σ (⟨.name, name, q⟩ :: u :: us)) := by
  cases hσ : σ name with
  | none => exact .fails_at _ hpq (call_eq_error_of_none rfl ht hσ) (call_eq_error_of_none rfl hu hσ)
  | some arity =>
      refine h.andThen (fun f => call_eq_error_of_arguments rfl ht hσ)
        (fun f => call_eq_error_of_arguments rfl hu hσ) ?_
      intro args l r hl hr hlr
      by_cases harity : arity.all (· == args.length) = true
      · have haccepts : σ.Accepts name args.length := ⟨arity, hσ, harity⟩
        exact .reads (.call name args) l r ((reads_call_iff rfl ht).2 ⟨args, hl, haccepts, rfl⟩)
          ((reads_call_iff rfl hu).2 ⟨args, hr, haccepts, rfl⟩) hlr
      · exact .fails_at _ hpq (call_eq_error rfl ht hσ hl harity) (call_eq_error rfl hu hσ hr harity)

-- Rules that find no token at all fail at place zero. The numbers are those of the rules.
mutual

theorem alike_sum {ts us : List Token} (hzero : R 0 0) (h : List.Forall₂ (Token.Alike R) ts us) :
    Alike R (parseSum σ ts) (parseSum σ us) := by
  refine (alike_product hzero h).andThen (fun f => sum_eq_error) (fun f => sum_eq_error) ?_
  intro a l r hl hr hlr
  have hlt := hl.length_lt
  exact (alike_terms hzero hlr a).lift id (fun e rest he => reads_sum_iff.2 ⟨a, l, hl, he⟩)
    (fun f => sum_eq_error_of_terms hl) (fun e rest he => reads_sum_iff.2 ⟨a, r, hr, he⟩)
    fun f => sum_eq_error_of_terms hr
termination_by (ts.length, 5)

theorem alike_terms {ts us : List Token} (hzero : R 0 0) (h : List.Forall₂ (Token.Alike R) ts us)
    (a : Formula) : Alike R (parseTerms σ a ts) (parseTerms σ a us) := by
  cases h with
  | nil =>
      exact .reads a [] [] ((reads_terms_iff (by simp [Without])).2 ⟨rfl, rfl⟩)
        ((reads_terms_iff (by simp [Without])).2 ⟨rfl, rfl⟩) .nil
  | @cons _ _ ts us htu hrest =>
      cases htu with
      | @mk kind text p q hpq =>
          by_cases hop : kind = .op ∧ (text = "+" ∨ text = "-")
          · have ht (r : Nat) : Token.Is ⟨kind, text, r⟩ "+" ∨ Token.Is ⟨kind, text, r⟩ "-" :=
              is_or_is_iff.2 hop
            refine (alike_product hzero hrest).andThen (fun f => terms_eq_error (ht p))
              (fun f => terms_eq_error (ht q)) ?_
            intro b l r hl hr hlr
            have hlt := hl.length_lt
            exact (alike_terms hzero hlr (.binary text a b)).lift id
              (fun e rest he => (reads_terms_cons_iff (ht p)).2 ⟨b, l, hl, he⟩)
              (fun f => terms_eq_error_of_terms (ht p) hl)
              (fun e rest he => (reads_terms_cons_iff (ht q)).2 ⟨b, r, hr, he⟩)
              fun f => terms_eq_error_of_terms (ht q) hr
          · have hts (r : Nat) (rest : List Token) :
                Without ["+", "-"] (⟨kind, text, r⟩ :: rest) := by
              simpa [Without] using is_or_is_iff.not.2 hop
            exact .reads a _ _ ((reads_terms_iff (hts p ts)).2 ⟨rfl, rfl⟩)
              ((reads_terms_iff (hts q us)).2 ⟨rfl, rfl⟩) (.cons (.mk kind text hpq) hrest)
termination_by (ts.length, 0)

theorem alike_product {ts us : List Token} (hzero : R 0 0)
    (h : List.Forall₂ (Token.Alike R) ts us) :
    Alike R (parseProduct σ ts) (parseProduct σ us) := by
  refine (alike_signed hzero h).andThen (fun f => product_eq_error) (fun f => product_eq_error) ?_
  intro a l r hl hr hlr
  have hlt := hl.length_lt
  exact (alike_factors hzero hlr a).lift id
    (fun e rest he => reads_product_iff.2 ⟨a, l, hl, he⟩)
    (fun f => product_eq_error_of_factors hl)
    (fun e rest he => reads_product_iff.2 ⟨a, r, hr, he⟩)
    fun f => product_eq_error_of_factors hr
termination_by (ts.length, 4)

theorem alike_factors {ts us : List Token} (hzero : R 0 0)
    (h : List.Forall₂ (Token.Alike R) ts us) (a : Formula) :
    Alike R (parseFactors σ a ts) (parseFactors σ a us) := by
  cases h with
  | nil =>
      exact .reads a [] [] ((reads_factors_iff (by simp [Without])).2 ⟨rfl, rfl⟩)
        ((reads_factors_iff (by simp [Without])).2 ⟨rfl, rfl⟩) .nil
  | @cons _ _ ts us htu hrest =>
      cases htu with
      | @mk kind text p q hpq =>
          by_cases hop : kind = .op ∧ (text = "*" ∨ text = "/")
          · have ht (r : Nat) : Token.Is ⟨kind, text, r⟩ "*" ∨ Token.Is ⟨kind, text, r⟩ "/" :=
              is_or_is_iff.2 hop
            refine (alike_signed hzero hrest).andThen (fun f => factors_eq_error (ht p))
              (fun f => factors_eq_error (ht q)) ?_
            intro b l r hl hr hlr
            have hlt := hl.length_lt
            exact (alike_factors hzero hlr (.binary text a b)).lift id
              (fun e rest he => (reads_factors_cons_iff (ht p)).2 ⟨b, l, hl, he⟩)
              (fun f => factors_eq_error_of_factors (ht p) hl)
              (fun e rest he => (reads_factors_cons_iff (ht q)).2 ⟨b, r, hr, he⟩)
              fun f => factors_eq_error_of_factors (ht q) hr
          · have hts (r : Nat) (rest : List Token) :
                Without ["*", "/"] (⟨kind, text, r⟩ :: rest) := by
              simpa [Without] using is_or_is_iff.not.2 hop
            exact .reads a _ _ ((reads_factors_iff (hts p ts)).2 ⟨rfl, rfl⟩)
              ((reads_factors_iff (hts q us)).2 ⟨rfl, rfl⟩) (.cons (.mk kind text hpq) hrest)
termination_by (ts.length, 0)

theorem alike_signed {ts us : List Token} (hzero : R 0 0)
    (h : List.Forall₂ (Token.Alike R) ts us) :
    Alike R (parseSigned σ ts) (parseSigned σ us) := by
  have hpower : Alike R (parsePower σ ts) (parsePower σ us) := alike_power hzero h
  cases h with
  | nil => exact .fails_at _ hzero (by rw [parseSigned]) (by rw [parseSigned])
  | cons htu hrest =>
      cases htu with
      | mk kind text hpq =>
          by_cases ht : kind = .op ∧ (text = "-" ∨ text = "+")
          · have hsign {r : Nat} : Token.Is ⟨kind, text, r⟩ "-" ∨ Token.Is ⟨kind, text, r⟩ "+" :=
              is_or_is_iff.2 ht
            exact (alike_signed hzero hrest).lift (.unary text)
              (fun a l ha => (reads_signed_cons_iff hsign).2 ⟨a, ha, rfl⟩)
              (fun f => signed_eq_error hsign)
              (fun a r ha => (reads_signed_cons_iff hsign).2 ⟨a, ha, rfl⟩)
              fun f => signed_eq_error hsign
          · simpa only [parseSigned, if_neg ht] using hpower
termination_by (ts.length, 3)

theorem alike_power {ts us : List Token} (hzero : R 0 0)
    (h : List.Forall₂ (Token.Alike R) ts us) : Alike R (parsePower σ ts) (parsePower σ us) := by
  refine (alike_atom hzero h).andThen (fun f => power_eq_error) (fun f => power_eq_error) ?_
  intro a l r hl hr hlr
  by_cases hpower : Without ["^"] l
  · exact .reads a l r (reads_power_iff.2 ⟨a, l, hl, .inl ⟨rfl, rfl, hpower⟩⟩)
      (reads_power_iff.2 ⟨a, r, hr, .inl ⟨rfl, rfl, without_of_alike hlr hpower⟩⟩) hlr
  · obtain ⟨t, l, rfl, s, hs, ht⟩ := exists_of_not_without hpower
    rw [List.mem_singleton.1 hs] at ht
    have hlt : l.length < ts.length := Nat.lt_of_succ_lt hl.length_lt
    cases hlr with
    | cons htu hrest =>
        cases htu with
        | mk kind text hpq =>
            exact (alike_signed hzero hrest).lift (.binary "^" a)
              (fun b rest hb => reads_power_iff.2 ⟨a, _, hl, .inr ⟨_, _, b, rfl, ht, hb, rfl⟩⟩)
              (fun f => power_eq_error_of_signed hl ht)
              (fun b rest hb => reads_power_iff.2 ⟨a, _, hr, .inr ⟨_, _, b, rfl, ht, hb, rfl⟩⟩)
              fun f => power_eq_error_of_signed hr ht
termination_by (ts.length, 2)

theorem alike_atom {ts us : List Token} (hzero : R 0 0)
    (h : List.Forall₂ (Token.Alike R) ts us) : Alike R (parseAtom σ ts) (parseAtom σ us) := by
  cases h with
  | nil => exact .fails_at _ hzero (by rw [parseAtom.eq_def]) (by rw [parseAtom.eq_def])
  | @cons _ _ ts us htu hrest =>
      cases htu with
      | mk kind text hpq =>
          cases kind with
          | stop => exact .fails_at _ hpq (by rw [parseAtom.eq_def]) (by rw [parseAtom.eq_def])
          | number =>
              cases hn : numberValue? text with
              | none =>
                  refine .fails_at .numberTooLong hpq ?_ ?_
                  all_goals
                    rw [parseAtom.eq_def]
                    simp only [hn]
              | some n =>
                  exact .reads _ ts us ((reads_number_iff rfl).2 ⟨n, hn, rfl, rfl⟩)
                    ((reads_number_iff rfl).2 ⟨n, hn, rfl, rfl⟩) hrest
          | op =>
              by_cases hopen : text = "("
              · subst hopen
                exact alike_group hzero (alike_sum hzero hrest)
              · refine .fails_at (.unexpected text) hpq ?_ ?_
                all_goals
                  rw [parseAtom.eq_def]
                  exact if_neg hopen
          | name =>
              by_cases hopen : Without ["("] ts
              · exact .reads _ ts us ((reads_name_iff rfl hopen).2 ⟨rfl, rfl⟩)
                  ((reads_name_iff rfl (without_of_alike hrest hopen)).2 ⟨rfl, rfl⟩) hrest
              · obtain ⟨t, inside, rfl, s, hs, ht⟩ := exists_of_not_without hopen
                rw [List.mem_singleton.1 hs] at ht
                cases hrest with
                | cons htu hrest =>
                    cases htu with
                    | mk kind text' hpq' => exact alike_call hpq ht ht (alike_arguments hzero hrest)
termination_by (ts.length, 1)

theorem alike_arguments {ts us : List Token} (hzero : R 0 0)
    (h : List.Forall₂ (Token.Alike R) ts us) :
    Alike R (parseArguments σ ts) (parseArguments σ us) := by
  have hlist : Alike R (parseArgumentList σ ts) (parseArgumentList σ us) :=
    alike_argumentList hzero h
  cases h with
  | nil => exact .fails_at _ hzero (by rw [parseArguments]) (by rw [parseArguments])
  | cons htu hrest =>
      cases htu with
      | mk kind text hpq =>
          by_cases ht : kind = .op ∧ text = ")"
          · exact .reads [] _ _ (reads_arguments_iff.2 (.inl ⟨_, rfl, ht, rfl⟩))
              (reads_arguments_iff.2 (.inl ⟨_, rfl, ht, rfl⟩)) hrest
          · simpa only [parseArguments, if_neg ht] using hlist
termination_by (ts.length, 7)

theorem alike_argumentList {ts us : List Token} (hzero : R 0 0)
    (h : List.Forall₂ (Token.Alike R) ts us) :
    Alike R (parseArgumentList σ ts) (parseArgumentList σ us) := by
  refine (alike_sum hzero h).andThen (fun f => argumentList_eq_error_of_sum)
    (fun f => argumentList_eq_error_of_sum) ?_
  intro a l r hl hr hlr
  cases hlr with
  | nil =>
      refine .fails_at (.expected ")") hzero ?_ ?_
      · obtain ⟨_, hl⟩ := hl
        rw [parseArgumentList, hl]
      · obtain ⟨_, hr⟩ := hr
        rw [parseArgumentList, hr]
  | @cons _ _ l r htu hrest =>
      have hlt : l.length < ts.length := Nat.lt_of_succ_lt hl.length_lt
      cases htu with
      | mk kind text hpq =>
          by_cases hcomma : kind = .op ∧ text = ","
          · exact (alike_argumentList hzero hrest).lift (a :: ·)
              (fun es rest hes => reads_argumentList_iff.2
                ⟨a, _, _, hl, .inr ⟨hcomma, es, hes, rfl⟩⟩)
              (fun f => argumentList_eq_error_of_list hl hcomma)
              (fun es rest hes => reads_argumentList_iff.2
                ⟨a, _, _, hr, .inr ⟨hcomma, es, hes, rfl⟩⟩)
              fun f => argumentList_eq_error_of_list hr hcomma
          · by_cases hclose : kind = .op ∧ text = ")"
            · exact .reads [a] _ _
                (reads_argumentList_iff.2 ⟨a, _, _, hl, .inl ⟨hclose, rfl, rfl⟩⟩)
                (reads_argumentList_iff.2 ⟨a, _, _, hr, .inl ⟨hclose, rfl, rfl⟩⟩) hrest
            · exact .fails_at _ hpq (argumentList_eq_error hl hcomma hclose)
                (argumentList_eq_error hr hcomma hclose)
termination_by (ts.length, 6)

end

theorem parseTokens_alike (hzero : R 0 0) (h : List.Forall₂ (Token.Alike R) ts us) :
    (∃ e, parseTokens σ ts = .ok e ∧ parseTokens σ us = .ok e) ∨
      ∃ f g, parseTokens σ ts = .error f ∧ parseTokens σ us = .error g ∧ f.cause = g.cause ∧
        R f.position g.position := by
  have hsum : Alike R (parseSum σ ts) (parseSum σ us) := alike_sum hzero h
  cases h with
  | nil => exact .inr ⟨_, _, rfl, rfl, rfl, hzero⟩
  | cons htu hrest =>
      cases htu with
      | mk kind text hpq =>
          by_cases hstop : kind = .stop
          · exact .inr ⟨_, _, if_pos hstop, if_pos hstop, rfl, hpq⟩
          · cases hsum with
            | fails f g hf hg hcause hplace =>
                exact .inr ⟨f, g, by rw [parseTokens, if_neg hstop, hf],
                  by rw [parseTokens, if_neg hstop, hg], hcause, hplace⟩
            | reads e l r hl hr hlr =>
                obtain ⟨_, hl⟩ := hl
                obtain ⟨_, hr⟩ := hr
                rw [parseTokens, parseTokens, if_neg hstop, if_neg hstop, hl, hr]
                cases hlr with
                | nil => exact .inr ⟨_, _, rfl, rfl, rfl, hzero⟩
                | cons hlr _ =>
                    cases hlr with
                    | mk kind text hplace =>
                        by_cases hend : kind = .stop
                        · exact .inl ⟨e, if_pos hend, if_pos hend⟩
                        · exact .inr ⟨_, _, if_neg hend, if_neg hend, rfl, hplace⟩

/-! ### Texts of the same words -/

variable {cs : List Char} {s s' : String}

/-- The tokens of a text stand one behind the other, the end token last. -/
theorem pairwise_of_tokenize (h : tokenize cs = .ok ts) : ts.Pairwise fun t u =>
    t.position < u.position ∧ ∀ n, t.Spans cs n → t.position + n ≤ u.position := by
  obtain ⟨us, hus, rfl⟩ := tokenize_eq_ok_iff.1 h
  have hlt {t : Token} (ht : t ∈ us) {q : Nat} (hq : ∀ n, t.Spans cs n → t.position + n ≤ q) :
      t.position < q := by
    obtain ⟨n, hn⟩ := (at_of_tokensFrom hus ht).exists_spans
    have hpos := hn.pos
    have hle := hq n hn
    omega
  refine List.pairwise_append.2 ⟨?_, List.pairwise_singleton _ _, ?_⟩
  · exact (pairwise_of_tokensFrom rfl hus).imp_of_mem fun ht _ hle => ⟨hlt ht hle, hle⟩
  · intro t ht u hu
    rw [List.mem_singleton.1 hu]
    have hle : ∀ n, t.Spans cs n → t.position + n ≤ textEnd cs := fun n hn => by
      rw [textEnd_eq]
      exact hn.le_end
    exact ⟨hlt ht hle, hle⟩

theorem forall₂_alike (h : us.map Token.word = ts.map Token.word)
    (hR : ∀ i : Nat, ∀ t ∈ ts[i]?, ∀ u ∈ us[i]?, R t.position u.position) :
    List.Forall₂ (Token.Alike R) ts us := by
  induction ts generalizing us with
  | nil =>
      rw [List.map_nil, List.map_eq_nil_iff] at h
      rw [h]
      exact .nil
  | cons t ts ih =>
      obtain ⟨u, us, rfl, hword, hrest⟩ := List.map_eq_cons_iff.1 h
      obtain ⟨kind, text, p⟩ := t
      obtain ⟨_, _, q⟩ := u
      cases hword
      exact .cons (.mk kind text (hR 0 _ rfl _ rfl)) (ih hrest fun i => hR (i + 1))

/-- A failure that is not about an empty text is noticed at one of the tokens. -/
theorem exists_mem_of_parseTokens {f : ParseStop} (h : tokenize cs = .ok ts)
    (hf : parseTokens σ ts = .error f) (hne : f.cause ≠ .empty) :
    ∃ t ∈ ts, f.position = t.position := by
  obtain ⟨us, hus, rfl⟩ := tokenize_eq_ok_iff.1 h
  obtain ⟨-, hempty⟩ | ⟨e, he⟩ | ⟨g, ⟨t, ht, -, hplace⟩, hg⟩ :=
    parseTokens_settled (σ := σ) (u := ⟨.stop, "", textEnd cs⟩) (kind_ne_stop_of_tokensFrom hus) rfl
  · cases hf.symm.trans (hempty [])
    exact absurd rfl hne
  · cases hf.symm.trans (he [])
  · cases hf.symm.trans (hg [])
    exact ⟨t, ht, hplace⟩

/-- A token at the very beginning is the first one. -/
theorem head?_position_of_mem {t : Token} (h : tokenize cs = .ok ts) (ht : t ∈ ts)
    (hzero : t.position = 0) : ts[0]?.map Token.position = some 0 := by
  have hpairwise := pairwise_of_tokenize h
  cases ts with
  | nil => cases ht
  | cons u us =>
      obtain rfl | ht := List.mem_cons.1 ht
      · exact congrArg some hzero
      · have hlt := (List.rel_of_pairwise_cons hpairwise ht).1
        omega

/-- Two places that are those of one token, counted from the front, or both the first of all. -/
def SamePlace (ts us : List Token) (p q : Nat) : Prop :=
  (∃ i : Nat, some p = ts[i]?.map Token.position ∧ some q = us[i]?.map Token.position) ∨
    p = 0 ∧ q = 0

/-- Texts of the same words are read alike: as the same tree, or with a failure for the same cause
at the same word. -/
theorem parseWith_alike (h : tokenize s.toList = .ok ts) (h' : tokenize s'.toList = .ok us)
    (hwords : us.map Token.word = ts.map Token.word) :
    (∃ e, parseWith σ s = .ok e ∧ parseWith σ s' = .ok e) ∨
      ∃ f g, parseWith σ s = .error f ∧ parseWith σ s' = .error g ∧ f.cause = g.cause ∧
        ∃ i : Nat, f.position = ts[i]?.map Token.position ∧
          g.position = us[i]?.map Token.position := by
  have halike : List.Forall₂ (Token.Alike (SamePlace ts us)) ts us := by
    refine forall₂_alike hwords fun i t ht u hu => .inl ⟨i, ?_, ?_⟩
    · rw [Option.mem_def.1 ht, Option.map_some]
    · rw [Option.mem_def.1 hu, Option.map_some]
  rw [parseWith, parseWith, h, h']
  dsimp only
  obtain ⟨e, he, he'⟩ | ⟨f, g, hf, hg, hcause, hplace⟩ :=
    parseTokens_alike (σ := σ) (.inr ⟨rfl, rfl⟩) halike
  · rw [he, he']
    exact .inl ⟨e, rfl, rfl⟩
  · rw [hf, hg]
    refine .inr ⟨_, _, rfl, rfl, hcause, ?_⟩
    dsimp only
    by_cases hempty : f.cause = .empty
    · have hlength : us.length = ts.length := by simpa using congrArg List.length hwords
      refine ⟨ts.length, ?_, ?_⟩
      · rw [if_pos hempty, List.getElem?_eq_none (Nat.le_refl _), Option.map_none]
      · rw [if_pos (hcause ▸ hempty), List.getElem?_eq_none (Nat.le_of_eq hlength), Option.map_none]
    · rw [if_neg hempty, if_neg (hcause ▸ hempty)]
      obtain hplace | ⟨hp, hq⟩ := hplace
      · exact hplace
      · obtain ⟨t, ht, hft⟩ := exists_mem_of_parseTokens h hf hempty
        obtain ⟨u, hu, hgu⟩ := exists_mem_of_parseTokens h' hg (hcause ▸ hempty)
        rw [hp] at hft ⊢
        rw [hq] at hgu ⊢
        exact ⟨0, (head?_position_of_mem h ht hft.symm).symm,
          (head?_position_of_mem h' hu hgu.symm).symm⟩

/-- The tokens of a text stand for the longest words at their places, one behind the other, and
what they do not stand for is blank; the end token stands behind all that is not blank. The words
of a text with blanks between them are split into these words again, and texts of the same words
are read alike. -/
theorem tokenize_lossless (h : tokenize s.toList = .ok ts) :
    (∃ us, ts = us ++ [⟨.stop, "", (s.toList.rdropWhile isBlank).length⟩] ∧
      (∀ t ∈ us, ∃ n, t.Spans s.toList n) ∧
      ∀ k c, s.toList[k]? = some c → isBlank c = true ∨
        ∃ t ∈ us, ∃ n, t.Spans s.toList n ∧ t.position ≤ k ∧ k < t.position + n) ∧
    (ts.Pairwise fun t u =>
      t.position < u.position ∧ ∀ n, t.Spans s.toList n → t.position + n ≤ u.position) ∧
    (∀ blank : String, blank ≠ "" → (∀ c ∈ blank.toList, isBlank c = true) →
      ∀ us, us = ts ∨ us = ts.dropLast →
        ∃ vs, tokenize (blank.intercalate (us.map Token.text)).toList = .ok vs ∧
          vs.map Token.word = ts.map Token.word) ∧
    ∀ s' us, tokenize s'.toList = .ok us → us.map Token.word = ts.map Token.word →
      (∃ e, parse s = .ok e ∧ parse s' = .ok e) ∨
        ∃ f g, parse s = .error f ∧ parse s' = .error g ∧ f.cause = g.cause ∧
          ∃ i : Nat, f.position = ts[i]?.map Token.position ∧
            g.position = us[i]?.map Token.position := by
  refine ⟨?_, pairwise_of_tokenize h,
    fun blank hne hblank us hus => tokenize_intercalate h hne hblank hus,
    fun s' us h' hwords => parseWith_alike h h' hwords⟩
  obtain ⟨us, hus, rfl⟩ := tokenize_eq_ok_iff.1 h
  refine ⟨us, by rw [textEnd_eq], fun t ht => (at_of_tokensFrom hus ht).exists_spans, ?_⟩
  intro k c hc
  refine (covered_of_tokensFrom hus hc).imp_right ?_
  rintro ⟨t, ht, j, n, hj, hfront, hle, hlt⟩
  rw [Nat.zero_add] at hj
  subst hj
  obtain ⟨m, hm⟩ := (at_of_tokensFrom hus ht).exists_spans
  have hfront' := (Token.spans_iff.1 hm).1
  rw [hfront] at hfront'
  cases hfront'
  exact ⟨t, ht, n, hm, hle, hlt⟩

/-- The tokens of `x**-2`, with a blank behind it. -/
def inverseSquare : List Token :=
  [⟨.name, "x", 0⟩, ⟨.op, "^", 1⟩, ⟨.op, "-", 3⟩, ⟨.number, "2", 4⟩, ⟨.stop, "", 5⟩]

theorem tokenize_lossless_inverseSquare : tokenize "x**-2 ".toList = .ok inverseSquare ∧
    (∃ n, Token.Spans "x**-2 ".toList ⟨.op, "^", 1⟩ n) ∧
      ∃ vs, tokenize "x ^ - 2".toList = .ok vs ∧
        vs.map Token.word = inverseSquare.map Token.word := by
  have htokens : tokenize "x**-2 ".toList = .ok inverseSquare := by decide +kernel
  obtain ⟨⟨us, hus, hspans, -⟩, -, hjoined, -⟩ := tokenize_lossless htokens
  have hblank : ∀ c ∈ " ".toList, isBlank c = true := List.all_eq_true.1 rfl
  refine ⟨htokens, ?_, hjoined " " (by decide) hblank inverseSquare.dropLast (.inr rfl)⟩
  have hfront : us = inverseSquare.dropLast := by rw [hus, List.dropLast_concat]
  exact hspans _ (by simp [hfront, inverseSquare])

end Gantry.Formula
