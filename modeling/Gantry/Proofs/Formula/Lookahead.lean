import Gantry.Proofs.Formula.Parsing

/-!
No rule looks behind the end token. What a rule makes of tokens closed by an end token is the
same whatever stands behind: it reads some of the tokens and leaves the end token alone, or it
fails, and then there is a token to blame, at whose place the failure is noticed.
-/

namespace Gantry.Formula

/-- The token that a failure is blamed on. -/
inductive Blames (σ : Signature) (t : Token) : ParseCause → Prop
  | unexpected : t.kind ≠ .stop → Blames σ t (.unexpected t.text)
  | unexpectedEnd : t.kind = .stop → Blames σ t .unexpectedEnd
  | expected (text : String) : ¬t.Is text → Blames σ t (.expected text)
  | unknownFunction : t.kind = .name → σ t.text = none → Blames σ t (.unknownFunction t.text)
  | argumentCount (arity given : Nat) : t.kind = .name → σ t.text = some (some arity) →
      given ≠ arity → Blames σ t (.argumentCount t.text arity given)
  | numberTooLong : t.kind = .number → numberValue? t.text = none → Blames σ t .numberTooLong

/-- A failure is noticed at the token that is blamed for it, one of `ts`. -/
def Fails (σ : Signature) (ts : List Token) (f : ParseStop) : Prop :=
  ∃ t ∈ ts, Blames σ t f.cause ∧ f.position = t.position

/-- What comes of a rule on `ts` and an end token `u`, whatever stands behind `u`: `n` tokens or
more are read, all in front of `u`, or there is a failure up to `u`. -/
inductive Settled (σ : Signature) (ts : List Token) (u : Token) (n : Nat) {α : Type}
    {P : List Token → List Token → Prop}
    (r : (more : List Token) → Except ParseStop (α × Subtype (P more))) : Prop
  | reads (a : α) (left : List Token) : left <:+ ts → left.length + n ≤ ts.length →
      (∀ more, Reads (r more) a (left ++ u :: more)) → Settled σ ts u n r
  | fails (f : ParseStop) : Fails σ (ts ++ [u]) f → (∀ more, r more = .error f) →
      Settled σ ts u n r

variable {σ : Signature} {ts us left : List Token} {t u : Token} {f : ParseStop} {m n : Nat}
  {α β : Type} {P Q : List Token → List Token → Prop}
  {r : (more : List Token) → Except ParseStop (α × Subtype (P more))}
  {r' : (more : List Token) → Except ParseStop (β × Subtype (Q more))}

theorem Fails.of_suffix (h : Fails σ (left ++ [u]) f) (hleft : left <:+ ts) :
    Fails σ (ts ++ [u]) f := by
  obtain ⟨t, ht, hf⟩ := h
  obtain ⟨front, rfl⟩ := hleft
  exact ⟨t, by rw [List.append_assoc]; exact List.mem_append_right _ ht, hf⟩

theorem Settled.fails_at {cause : ParseCause} (ht : t ∈ ts ++ [u]) (hcause : Blames σ t cause)
    (h : ∀ more, r more = .error ⟨cause, t.position⟩) : Settled σ ts u n r :=
  .fails _ ⟨t, ht, hcause, rfl⟩ h

/-- A rule that begins with another one fails with it and goes on where it leaves off. -/
theorem Settled.andThen (h : Settled σ us u n r) (hus : us <:+ ts)
    (herror : ∀ more f, r more = .error f → r' more = .error f)
    (hok : ∀ a left, left <:+ ts → left.length + n ≤ us.length →
      (∀ more, Reads (r more) a (left ++ u :: more)) → Settled σ ts u m r') :
    Settled σ ts u m r' := by
  cases h with
  | reads a left hleft hlength hreads => exact hok a left (hleft.trans hus) hlength hreads
  | fails f hf hfails => exact .fails f (hf.of_suffix hus) fun more => herror more f (hfails more)

/-- A rule that ends with another one leaves off with it. -/
theorem Settled.lift (h : Settled σ left u n r) (hleft : left <:+ ts)
    (hlength : left.length + m ≤ ts.length + n) (g : α → β)
    (hok : ∀ more a rest, Reads (r more) a rest → Reads (r' more) (g a) rest)
    (herror : ∀ more f, r more = .error f → r' more = .error f) : Settled σ ts u m r' := by
  cases h with
  | reads a rest hrest hshort hreads =>
      exact .reads (g a) rest (hrest.trans hleft) (by omega)
        fun more => hok more a _ (hreads more)
  | fails f hf hfails => exact .fails f (hf.of_suffix hleft) fun more => herror more f (hfails more)

/-! ### Rules that fail with the rules below them -/

theorem sum_eq_error (h : parseProduct σ ts = .error f) : parseSum σ ts = .error f := by
  rw [parseSum, h]

theorem sum_eq_error_of_terms {a : Formula} {rest : List Token}
    (ha : Reads (parseProduct σ ts) a rest) (h : parseTerms σ a rest = .error f) :
    parseSum σ ts = .error f := by
  obtain ⟨_, ha⟩ := ha
  simp only [parseSum, ha, h]

theorem terms_eq_error {l : Formula} (ht : t.Is "+" ∨ t.Is "-") (h : parseProduct σ ts = .error f) :
    parseTerms σ l (t :: ts) = .error f := by
  rw [parseTerms, if_pos (is_or_is_iff.1 ht), h]

theorem terms_eq_error_of_terms {l b : Formula} {rest : List Token} (ht : t.Is "+" ∨ t.Is "-")
    (hb : Reads (parseProduct σ ts) b rest)
    (h : parseTerms σ (.binary t.text l b) rest = .error f) :
    parseTerms σ l (t :: ts) = .error f := by
  obtain ⟨_, hb⟩ := hb
  simp only [parseTerms, if_pos (is_or_is_iff.1 ht), hb, h]

theorem product_eq_error (h : parseSigned σ ts = .error f) : parseProduct σ ts = .error f := by
  rw [parseProduct, h]

theorem product_eq_error_of_factors {a : Formula} {rest : List Token}
    (ha : Reads (parseSigned σ ts) a rest) (h : parseFactors σ a rest = .error f) :
    parseProduct σ ts = .error f := by
  obtain ⟨_, ha⟩ := ha
  simp only [parseProduct, ha, h]

theorem factors_eq_error {l : Formula} (ht : t.Is "*" ∨ t.Is "/")
    (h : parseSigned σ ts = .error f) : parseFactors σ l (t :: ts) = .error f := by
  rw [parseFactors, if_pos (is_or_is_iff.1 ht), h]

theorem factors_eq_error_of_factors {l b : Formula} {rest : List Token}
    (ht : t.Is "*" ∨ t.Is "/") (hb : Reads (parseSigned σ ts) b rest)
    (h : parseFactors σ (.binary t.text l b) rest = .error f) :
    parseFactors σ l (t :: ts) = .error f := by
  obtain ⟨_, hb⟩ := hb
  simp only [parseFactors, if_pos (is_or_is_iff.1 ht), hb, h]

theorem signed_eq_error (ht : t.Is "-" ∨ t.Is "+") (h : parseSigned σ ts = .error f) :
    parseSigned σ (t :: ts) = .error f := by
  rw [parseSigned, if_pos (is_or_is_iff.1 ht), h]

theorem power_eq_error (h : parseAtom σ ts = .error f) : parsePower σ ts = .error f := by
  rw [parsePower, h]

theorem power_eq_error_of_signed {a : Formula} {rest : List Token}
    (ha : Reads (parseAtom σ ts) a (t :: rest)) (ht : t.Is "^")
    (h : parseSigned σ rest = .error f) : parsePower σ ts = .error f := by
  obtain ⟨_, ha⟩ := ha
  simp only [parsePower, ha, if_pos (Token.is_iff.1 ht), h]

theorem group_eq_error_of_sum {p : Token} (hp : p.Is "(") (h : parseSum σ ts = .error f) :
    parseAtom σ (p :: ts) = .error f := by
  rw [parseAtom.eq_def]
  simp only [hp.1, if_pos hp.2, h]

theorem group_eq_error {p c : Token} {a : Formula} {rest : List Token} (hp : p.Is "(")
    (h : Reads (parseSum σ ts) a (c :: rest)) (hc : ¬c.Is ")") :
    parseAtom σ (p :: ts) = .error ⟨.expected ")", c.position⟩ := by
  obtain ⟨_, hsum⟩ := h
  rw [parseAtom.eq_def]
  simp only [hp.1, if_pos hp.2, hsum]
  exact if_neg hc

theorem call_eq_error_of_none {p : Token} (hkind : t.kind = .name) (hp : p.Is "(")
    (hσ : σ t.text = none) :
    parseAtom σ (t :: p :: ts) = .error ⟨.unknownFunction t.text, t.position⟩ := by
  rw [parseAtom.eq_def]
  simp only [hkind, if_pos (Token.is_iff.1 hp), hσ]

theorem call_eq_error_of_arguments {p : Token} {arity : Option Nat} (hkind : t.kind = .name)
    (hp : p.Is "(") (hσ : σ t.text = some arity) (h : parseArguments σ ts = .error f) :
    parseAtom σ (t :: p :: ts) = .error f := by
  rw [parseAtom.eq_def]
  simp only [hkind, if_pos (Token.is_iff.1 hp), hσ, h]

theorem call_eq_error {p : Token} {arity : Option Nat} {args : List Formula} {rest : List Token}
    (hkind : t.kind = .name) (hp : p.Is "(") (hσ : σ t.text = some arity)
    (hargs : Reads (parseArguments σ ts) args rest)
    (harity : ¬arity.all (· == args.length) = true) : parseAtom σ (t :: p :: ts) =
      .error ⟨.argumentCount t.text (arity.getD 0) args.length, t.position⟩ := by
  obtain ⟨_, hargs⟩ := hargs
  rw [parseAtom.eq_def]
  simp only [hkind, if_pos (Token.is_iff.1 hp), hσ, hargs]
  exact if_neg harity

theorem argumentList_eq_error_of_sum (h : parseSum σ ts = .error f) :
    parseArgumentList σ ts = .error f := by
  rw [parseArgumentList, h]

theorem argumentList_eq_error_of_list {a : Formula} {rest : List Token}
    (ha : Reads (parseSum σ ts) a (t :: rest)) (ht : t.Is ",")
    (h : parseArgumentList σ rest = .error f) : parseArgumentList σ ts = .error f := by
  obtain ⟨_, ha⟩ := ha
  rw [parseArgumentList, ha]
  simp only [if_pos (Token.is_iff.1 ht), h]

theorem argumentList_eq_error {c : Token} {a : Formula} {rest : List Token}
    (h : Reads (parseSum σ ts) a (c :: rest)) (hcomma : ¬c.Is ",") (hclose : ¬c.Is ")") :
    parseArgumentList σ ts = .error ⟨.expected ")", c.position⟩ := by
  obtain ⟨_, hsum⟩ := h
  rw [parseArgumentList, hsum]
  exact (if_neg hcomma).trans (if_neg hclose)

/-! ### Rules in front of an end token -/

theorem not_is_of_stop {s : String} (hu : u.kind = .stop) : ¬u.Is s := by
  rintro ⟨hop, -⟩
  cases hu.symm.trans hop

theorem without_stop {texts : List String} (hu : u.kind = .stop) (more : List Token) :
    Without texts (u :: more) := by
  rintro _ ⟨⟩ s _
  exact not_is_of_stop hu

theorem Without.append_stop {texts : List String} (hleft : Without texts left)
    (hu : u.kind = .stop) (more : List Token) : Without texts (left ++ u :: more) := by
  cases left with
  | nil => exact without_stop hu more
  | cons t left =>
      rintro _ ⟨⟩
      exact hleft t rfl

/-- A call is settled as its arguments are; what is wrong with it is blamed on its name. -/
theorem settled_call {p : Token} {inside : List Token} (hkind : t.kind = .name) (hp : p.Is "(")
    (h : Settled σ inside u 1 fun more => parseArguments σ (inside ++ u :: more)) :
    Settled σ (t :: p :: inside) u 1 fun more => parseAtom σ (t :: p :: inside ++ u :: more) := by
  have hinside : inside <:+ t :: p :: inside :=
    (List.suffix_cons p inside).trans (List.suffix_cons t _)
  have hmem : t ∈ t :: p :: inside ++ [u] := List.mem_cons_self
  cases hσ : σ t.text with
  | none =>
      exact .fails_at hmem (.unknownFunction hkind hσ)
        fun more => call_eq_error_of_none hkind hp hσ
  | some arity =>
      refine h.andThen hinside (fun more f => call_eq_error_of_arguments hkind hp hσ) ?_
      intro args left hleft hlength hargs
      by_cases harity : arity.all (· == args.length) = true
      · refine .reads (.call t.text args) left hleft
          (by simp only [List.length_cons]; omega) fun more => ?_
        exact (reads_call_iff hkind hp).2 ⟨args, hargs more, by simpa [Signature.Accepts, hσ], rfl⟩
      · obtain ⟨k, rfl⟩ : ∃ k, arity = some k :=
          Option.ne_none_iff_exists'.1 fun hnone => harity (by rw [hnone]; rfl)
        exact .fails_at hmem (.argumentCount k args.length hkind hσ fun hk => harity (by simp [hk]))
          fun more => call_eq_error hkind hp hσ (hargs more) harity

-- The numbers are those of the rules: the first one counts the tokens, the second one the rules
-- that are still below.
mutual

theorem settled_sum {ts : List Token} (hts : ∀ t ∈ ts, t.kind ≠ .stop) (hu : u.kind = .stop) :
    Settled σ ts u 1 fun more => parseSum σ (ts ++ u :: more) := by
  refine (settled_product hts hu).andThen (List.suffix_refl _) (fun more f => sum_eq_error) ?_
  intro l left hleft hlength hl
  exact (settled_terms (fun t ht => hts t (hleft.subset ht)) hu l).lift hleft (by omega) id
    (fun more e rest he => reads_sum_iff.2 ⟨l, _, hl more, he⟩)
    fun more f => sum_eq_error_of_terms (hl more)
termination_by (ts.length, 5)

theorem settled_terms {ts : List Token} (hts : ∀ t ∈ ts, t.kind ≠ .stop) (hu : u.kind = .stop)
    (l : Formula) : Settled σ ts u 0 fun more => parseTerms σ l (ts ++ u :: more) := by
  cases ts with
  | nil =>
      exact .reads l [] (List.suffix_refl _) (Nat.le_refl _)
        fun more => (reads_terms_iff (without_stop hu more)).2 ⟨rfl, rfl⟩
  | cons t us =>
      have hall := hts
      rw [List.forall_mem_cons] at hts
      by_cases ht : t.Is "+" ∨ t.Is "-"
      · refine (settled_product hts.2 hu).andThen (List.suffix_cons t us)
          (fun more f => terms_eq_error ht) ?_
        intro b left hleft hlength hb
        have hlt : left.length < (t :: us).length := by rw [List.length_cons]; omega
        exact (settled_terms (fun t ht => hall t (hleft.subset ht)) hu _).lift
          hleft (by rw [List.length_cons]; omega) id
          (fun more e rest he => (reads_terms_cons_iff ht).2 ⟨b, _, hb more, he⟩)
          fun more f => terms_eq_error_of_terms ht (hb more)
      · have hwithout (more : List Token) : Without ["+", "-"] (t :: us ++ u :: more) := by
          simpa [Without] using ht
        exact .reads l (t :: us) (List.suffix_refl _) (Nat.le_refl _)
          fun more => (reads_terms_iff (hwithout more)).2 ⟨rfl, rfl⟩
termination_by (ts.length, 0)

theorem settled_product {ts : List Token} (hts : ∀ t ∈ ts, t.kind ≠ .stop) (hu : u.kind = .stop) :
    Settled σ ts u 1 fun more => parseProduct σ (ts ++ u :: more) := by
  refine (settled_signed hts hu).andThen (List.suffix_refl _) (fun more f => product_eq_error) ?_
  intro l left hleft hlength hl
  exact (settled_factors (fun t ht => hts t (hleft.subset ht)) hu l).lift hleft (by omega) id
    (fun more e rest he => reads_product_iff.2 ⟨l, _, hl more, he⟩)
    fun more f => product_eq_error_of_factors (hl more)
termination_by (ts.length, 4)

theorem settled_factors {ts : List Token} (hts : ∀ t ∈ ts, t.kind ≠ .stop) (hu : u.kind = .stop)
    (l : Formula) : Settled σ ts u 0 fun more => parseFactors σ l (ts ++ u :: more) := by
  cases ts with
  | nil =>
      exact .reads l [] (List.suffix_refl _) (Nat.le_refl _)
        fun more => (reads_factors_iff (without_stop hu more)).2 ⟨rfl, rfl⟩
  | cons t us =>
      have hall := hts
      rw [List.forall_mem_cons] at hts
      by_cases ht : t.Is "*" ∨ t.Is "/"
      · refine (settled_signed hts.2 hu).andThen (List.suffix_cons t us)
          (fun more f => factors_eq_error ht) ?_
        intro b left hleft hlength hb
        have hlt : left.length < (t :: us).length := by rw [List.length_cons]; omega
        exact (settled_factors (fun t ht => hall t (hleft.subset ht)) hu _).lift
          hleft (by rw [List.length_cons]; omega) id
          (fun more e rest he => (reads_factors_cons_iff ht).2 ⟨b, _, hb more, he⟩)
          fun more f => factors_eq_error_of_factors ht (hb more)
      · have hwithout (more : List Token) : Without ["*", "/"] (t :: us ++ u :: more) := by
          simpa [Without] using ht
        exact .reads l (t :: us) (List.suffix_refl _) (Nat.le_refl _)
          fun more => (reads_factors_iff (hwithout more)).2 ⟨rfl, rfl⟩
termination_by (ts.length, 0)

theorem settled_signed {ts : List Token} (hts : ∀ t ∈ ts, t.kind ≠ .stop) (hu : u.kind = .stop) :
    Settled σ ts u 1 fun more => parseSigned σ (ts ++ u :: more) := by
  have hpower := settled_power hts hu
  cases ts with
  | nil =>
      have hop : ¬(u.kind = .op ∧ (u.text = "-" ∨ u.text = "+")) := by simp [hu]
      simpa only [List.nil_append, parseSigned, if_neg hop] using hpower
  | cons t us =>
      by_cases ht : t.kind = .op ∧ (t.text = "-" ∨ t.text = "+")
      · rw [List.forall_mem_cons] at hts
        exact (settled_signed hts.2 hu).lift (List.suffix_cons t us)
          (Nat.le_succ _) (.unary t.text)
          (fun more a rest ha => (reads_signed_cons_iff (is_or_is_iff.2 ht)).2 ⟨a, ha, rfl⟩)
          fun more f => signed_eq_error (is_or_is_iff.2 ht)
      · simpa only [List.cons_append, parseSigned, if_neg ht] using hpower
termination_by (ts.length, 3)

theorem settled_power {ts : List Token} (hts : ∀ t ∈ ts, t.kind ≠ .stop) (hu : u.kind = .stop) :
    Settled σ ts u 1 fun more => parsePower σ (ts ++ u :: more) := by
  refine (settled_atom hts hu).andThen (List.suffix_refl _) (fun more f => power_eq_error) ?_
  intro a left hleft hlength ha
  by_cases hpower : Without ["^"] left
  · exact .reads a left hleft hlength fun more => reads_power_iff.2
      ⟨a, _, ha more, .inl ⟨rfl, rfl, hpower.append_stop hu more⟩⟩
  · obtain ⟨p, us, rfl, s, hs, hp⟩ := exists_of_not_without hpower
    rw [List.mem_singleton.1 hs] at hp
    have hus : us <:+ ts := (List.suffix_cons p us).trans hleft
    have hlt : us.length < ts.length := by rw [List.length_cons] at hlength; omega
    exact (settled_signed (fun t ht => hts t (hus.subset ht)) hu).lift hus (by omega)
      (.binary "^" a)
      (fun more b rest hb => reads_power_iff.2
        ⟨a, _, ha more, .inr ⟨p, _, b, rfl, hp, hb, rfl⟩⟩)
      fun more f => power_eq_error_of_signed (ha more) hp
termination_by (ts.length, 2)

theorem settled_atom {ts : List Token} (hts : ∀ t ∈ ts, t.kind ≠ .stop) (hu : u.kind = .stop) :
    Settled σ ts u 1 fun more => parseAtom σ (ts ++ u :: more) := by
  cases ts with
  | nil =>
      refine .fails_at (t := u) List.mem_cons_self (.unexpectedEnd hu) fun more => ?_
      rw [List.nil_append, parseAtom.eq_def]
      simp only [hu]
  | cons t us =>
      have hmem : t ∈ t :: us ++ [u] := List.mem_cons_self
      rw [List.forall_mem_cons] at hts
      obtain ⟨hstop, hus⟩ := hts
      cases hkind : t.kind with
      | stop => exact absurd hkind hstop
      | number =>
          cases hn : numberValue? t.text with
          | none =>
              refine .fails_at hmem (.numberTooLong hkind hn) fun more => ?_
              rw [List.cons_append, parseAtom.eq_def]
              simp only [hkind, hn]
          | some n =>
              exact .reads _ us (List.suffix_cons t us) (Nat.le_refl _)
                fun more => (reads_number_iff hkind).2 ⟨n, hn, rfl, rfl⟩
      | op =>
          by_cases hopen : t.text = "("
          · have hp : t.Is "(" := ⟨hkind, hopen⟩
            refine (settled_sum hus hu).andThen (List.suffix_cons t us)
              (fun more f => group_eq_error_of_sum hp) ?_
            intro a left hleft hlength ha
            rcases left with _ | ⟨c, left⟩
            · exact .fails_at (List.mem_append_right _ List.mem_cons_self)
                (.expected ")" (not_is_of_stop hu)) fun more =>
                  group_eq_error hp (ha more) (not_is_of_stop hu)
            · by_cases hc : c.Is ")"
              · exact .reads _ left ((List.suffix_cons c left).trans hleft)
                  (by simp only [List.length_cons] at hlength ⊢; omega)
                  fun more => (reads_group_iff hp).2 ⟨a, c, ha more, hc, rfl⟩
              · exact .fails_at (List.mem_append_left _ (hleft.subset List.mem_cons_self))
                  (.expected ")" hc) fun more => group_eq_error hp (ha more) hc
          · refine .fails_at hmem (.unexpected hstop) fun more => ?_
            rw [List.cons_append, parseAtom.eq_def]
            simp only [hkind, if_neg hopen]
      | name =>
          by_cases hopen : Without ["("] us
          · exact .reads _ us (List.suffix_cons t us) (Nat.le_refl _) fun more =>
              (reads_name_iff hkind (hopen.append_stop hu more)).2 ⟨rfl, rfl⟩
          · obtain ⟨p, inside, rfl, s, hs, hp⟩ := exists_of_not_without hopen
            rw [List.mem_singleton.1 hs] at hp
            exact settled_call hkind hp
              (settled_arguments (fun a ha => hus a (List.mem_cons_of_mem p ha)) hu)
termination_by (ts.length, 1)

theorem settled_arguments {ts : List Token} (hts : ∀ t ∈ ts, t.kind ≠ .stop)
    (hu : u.kind = .stop) : Settled σ ts u 1 fun more => parseArguments σ (ts ++ u :: more) := by
  have hlist := settled_argumentList hts hu
  cases ts with
  | nil =>
      have hclose : ¬(u.kind = .op ∧ u.text = ")") := by simp [hu]
      simpa only [List.nil_append, parseArguments, if_neg hclose] using hlist
  | cons t us =>
      by_cases ht : t.Is ")"
      · exact .reads [] us (List.suffix_cons t us) (Nat.le_refl _)
          fun more => reads_arguments_iff.2 (.inl ⟨t, rfl, ht, rfl⟩)
      · simpa only [List.cons_append, parseArguments, if_neg (Token.is_iff.not.1 ht)] using hlist
termination_by (ts.length, 7)

theorem settled_argumentList {ts : List Token} (hts : ∀ t ∈ ts, t.kind ≠ .stop)
    (hu : u.kind = .stop) :
    Settled σ ts u 1 fun more => parseArgumentList σ (ts ++ u :: more) := by
  refine (settled_sum hts hu).andThen (List.suffix_refl _)
    (fun more f => argumentList_eq_error_of_sum) ?_
  intro a left hleft hlength ha
  rcases left with _ | ⟨c, left⟩
  · exact .fails_at (List.mem_append_right _ List.mem_cons_self)
      (.expected ")" (not_is_of_stop hu)) fun more =>
        argumentList_eq_error (ha more) (not_is_of_stop hu) (not_is_of_stop hu)
  · have hrest : left <:+ ts := (List.suffix_cons c left).trans hleft
    have hlt : left.length + 1 < ts.length := by rwa [List.length_cons] at hlength
    by_cases hclose : c.Is ")"
    · exact .reads [a] left hrest (Nat.le_of_lt hlt)
        fun more => reads_argumentList_iff.2 ⟨a, c, _, ha more, .inl ⟨hclose, rfl, rfl⟩⟩
    · by_cases hcomma : c.Is ","
      · exact (settled_argumentList (fun t ht => hts t (hrest.subset ht)) hu).lift hrest
          (by omega) (a :: ·)
          (fun more es rest hes => reads_argumentList_iff.2
            ⟨a, c, _, ha more, .inr ⟨hcomma, es, hes, rfl⟩⟩)
          fun more f => argumentList_eq_error_of_list (ha more) hcomma
      · exact .fails_at (List.mem_append_left _ (hleft.subset List.mem_cons_self))
          (.expected ")" hclose) fun more => argumentList_eq_error (ha more) hcomma hclose
termination_by (ts.length, 6)

end

/-- What comes of tokens closed by an end token: they are none, they are read whole, or there is
a failure at one of them or at the end token. -/
theorem parseTokens_settled (hts : ∀ t ∈ ts, t.kind ≠ .stop) (hu : u.kind = .stop) :
    (ts = [] ∧ ∀ more, parseTokens σ (ts ++ u :: more) = .error ⟨.empty, u.position⟩) ∨
      (∃ e, ∀ more, parseTokens σ (ts ++ u :: more) = .ok e) ∨
      ∃ f, Fails σ (ts ++ [u]) f ∧ ∀ more, parseTokens σ (ts ++ u :: more) = .error f := by
  cases ts with
  | nil => exact .inl ⟨rfl, fun more => by rw [List.nil_append, parseTokens, if_pos hu]⟩
  | cons t us =>
      have hfirst : t.kind ≠ .stop := hts t List.mem_cons_self
      have hsum : Settled σ (t :: us) u 1 fun more => parseSum σ (t :: us ++ u :: more) :=
        settled_sum hts hu
      right
      cases hsum with
      | fails f hf hfails =>
          refine .inr ⟨f, hf, fun more => ?_⟩
          rw [List.cons_append, parseTokens, if_neg hfirst, ← List.cons_append, hfails more]
      | reads e left hleft _ hreads =>
          cases left with
          | nil =>
              refine .inl ⟨e, fun more => parseTokens_iff_reads.2 ⟨?_, u, more, hreads more, hu⟩⟩
              rintro _ ⟨⟩
              exact hfirst
          | cons c left =>
              have hc : c.kind ≠ .stop := hts c (hleft.subset List.mem_cons_self)
              refine .inr ⟨⟨.unexpected c.text, c.position⟩, ⟨c, ?_, .unexpected hc, rfl⟩, ?_⟩
              · exact List.mem_append_left _ (hleft.subset List.mem_cons_self)
              · intro more
                obtain ⟨_, h⟩ := hreads more
                rw [List.cons_append, parseTokens, if_neg hfirst, ← List.cons_append, h]
                exact if_neg hc

end Gantry.Formula
