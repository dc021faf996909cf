import Gantry.Proofs.Formula.Derivation
import Gantry.Formula.Reader
import Mathlib.Data.List.Basic

/-!
What each rule reads, in terms of the rules below it. A rule is known by the
tree it returns and the tokens it leaves, and goes on as long as the token in
front continues it.
-/

namespace Gantry.Formula

/-- What a rule reads, without the bound on the tokens it leaves. -/
def Reads {α : Type} {P : List Token → Prop} (r : Except ParseStop (α × Subtype P)) (a : α)
    (rest : List Token) : Prop :=
  ∃ h, r = .ok (a, ⟨rest, h⟩)

/-- Whether tokens begin with none of some operators. -/
def Without (texts : List String) (ts : List Token) : Prop :=
  ∀ t ∈ ts.head?, ∀ s ∈ texts, ¬t.Is s

variable {σ : Signature} {ts rest : List Token} {t : Token} {e l : Formula} {args : List Formula}

theorem Reads.length_lt {α : Type} {r : Except ParseStop (α × Shorter ts)} {a : α}
    (h : Reads r a rest) : rest.length < ts.length := h.1

@[simp] theorem reads_ok_iff {α : Type} {P : List Token → Prop} {a b : α} {left : Subtype P} :
    Reads (.ok (b, left)) a rest ↔ a = b ∧ rest = left.1 := by
  constructor
  · rintro ⟨_, heq⟩
    cases heq
    exact ⟨rfl, rfl⟩
  · rintro ⟨rfl, rfl⟩
    exact ⟨left.2, rfl⟩

@[simp] theorem not_reads_error {α : Type} {P : List Token → Prop} {a : α} {f : ParseStop} :
    ¬Reads (.error f : Except ParseStop (α × Subtype P)) a rest := by
  rintro ⟨_, heq⟩
  cases heq

/-! ### The token in front -/

theorem exists_of_not_without {texts : List String} (h : ¬Without texts ts) :
    ∃ t us, ts = t :: us ∧ ∃ s ∈ texts, t.Is s := by
  simp only [Without, not_forall, not_not] at h
  obtain ⟨t, ht, s, hs, his⟩ := h
  cases ts with
  | nil => cases ht
  | cons u us =>
      cases ht
      exact ⟨t, us, rfl, s, hs, his⟩

theorem exists_of_not_without_two {a b : String} (h : ¬Without [a, b] ts) :
    ∃ t us, ts = t :: us ∧ (t.Is a ∨ t.Is b) := by
  obtain ⟨t, us, hts, s, hs, his⟩ := exists_of_not_without h
  obtain rfl | rfl := List.mem_pair.1 hs
  · exact ⟨t, us, hts, .inl his⟩
  · exact ⟨t, us, hts, .inr his⟩

theorem Without.mono {texts more : List String} (h : Without more ts) (hsub : texts ⊆ more) :
    Without texts ts := fun t ht s hs => h t ht s (hsub hs)

theorem without_cons {texts : List String} {s : String} (h : t.Is s) (hs : s ∉ texts) :
    Without texts (t :: ts) := by
  rintro u hu a ha his
  cases hu
  exact hs (h.2.symm.trans his.2 ▸ ha)

theorem without_cons_of_or {texts : List String} {a b : String} (h : t.Is a ∨ t.Is b)
    (ha : a ∉ texts) (hb : b ∉ texts) : Without texts (t :: ts) :=
  h.elim (fun h => without_cons h ha) fun h => without_cons h hb

/-! ### One rule -/

theorem Token.is_iff {s : String} : t.Is s ↔ t.kind = .op ∧ t.text = s := .rfl

theorem is_or_is_iff {a b : String} :
    t.Is a ∨ t.Is b ↔ t.kind = .op ∧ (t.text = a ∨ t.text = b) := by
  simp only [Token.Is, and_or_left]

theorem reads_sum_iff : Reads (parseSum σ ts) e rest ↔
    ∃ l mid, Reads (parseProduct σ ts) l mid ∧ Reads (parseTerms σ l mid) e rest := by
  rw [parseSum]
  rcases parseProduct σ ts with f | ⟨l, mid, h⟩
  · simp
  · dsimp only
    rcases hsum : parseTerms σ l mid with f | ⟨sum, left⟩ <;> simp [and_assoc, hsum]

theorem reads_product_iff : Reads (parseProduct σ ts) e rest ↔
    ∃ l mid, Reads (parseSigned σ ts) l mid ∧ Reads (parseFactors σ l mid) e rest := by
  rw [parseProduct]
  rcases parseSigned σ ts with f | ⟨l, mid, h⟩
  · simp
  · dsimp only
    rcases hproduct : parseFactors σ l mid with f | ⟨product, left⟩ <;>
      simp [and_assoc, hproduct]

theorem reads_terms_iff (h : Without ["+", "-"] ts) :
    Reads (parseTerms σ l ts) e rest ↔ e = l ∧ rest = ts := by
  cases ts with
  | nil => rw [parseTerms, reads_ok_iff]
  | cons t ts =>
      have ht : ¬(t.kind = .op ∧ (t.text = "+" ∨ t.text = "-")) := by
        simpa [Without, ← is_or_is_iff] using h
      rw [parseTerms, if_neg ht, reads_ok_iff]

theorem reads_terms_cons_iff (h : t.Is "+" ∨ t.Is "-") :
    Reads (parseTerms σ l (t :: ts)) e rest ↔ ∃ r mid, Reads (parseProduct σ ts) r mid ∧
      Reads (parseTerms σ (.binary t.text l r) mid) e rest := by
  rw [parseTerms, if_pos (is_or_is_iff.1 h)]
  rcases parseProduct σ ts with f | ⟨r, mid, h⟩
  · simp
  · dsimp only
    rcases hsum : parseTerms σ (.binary t.text l r) mid with f | ⟨sum, left⟩ <;>
      simp [and_assoc, hsum]

theorem reads_factors_iff (h : Without ["*", "/"] ts) :
    Reads (parseFactors σ l ts) e rest ↔ e = l ∧ rest = ts := by
  cases ts with
  | nil => rw [parseFactors, reads_ok_iff]
  | cons t ts =>
      have ht : ¬(t.kind = .op ∧ (t.text = "*" ∨ t.text = "/")) := by
        simpa [Without, ← is_or_is_iff] using h
      rw [parseFactors, if_neg ht, reads_ok_iff]

theorem reads_factors_cons_iff (h : t.Is "*" ∨ t.Is "/") :
    Reads (parseFactors σ l (t :: ts)) e rest ↔ ∃ r mid, Reads (parseSigned σ ts) r mid ∧
      Reads (parseFactors σ (.binary t.text l r) mid) e rest := by
  rw [parseFactors, if_pos (is_or_is_iff.1 h)]
  rcases parseSigned σ ts with f | ⟨r, mid, h⟩
  · simp
  · dsimp only
    rcases hproduct : parseFactors σ (.binary t.text l r) mid with f | ⟨product, left⟩ <;>
      simp [and_assoc, hproduct]

theorem reads_signed_cons_iff (h : t.Is "-" ∨ t.Is "+") :
    Reads (parseSigned σ (t :: ts)) e rest ↔
      ∃ a, Reads (parseSigned σ ts) a rest ∧ e = .unary t.text a := by
  rw [parseSigned, if_pos (is_or_is_iff.1 h)]
  rcases parseSigned σ ts with f | ⟨a, mid, h⟩ <;> simp [and_assoc, and_comm]

theorem reads_signed_iff (h : Without ["-", "+"] ts) :
    Reads (parseSigned σ ts) e rest ↔ Reads (parsePower σ ts) e rest := by
  cases ts with
  | nil => simp [parseSigned, parsePower, parseAtom]
  | cons t ts =>
      have ht : ¬(t.kind = .op ∧ (t.text = "-" ∨ t.text = "+")) := by
        simpa [Without, ← is_or_is_iff] using h
      rw [parseSigned, if_neg ht]

theorem reads_power_iff : Reads (parsePower σ ts) e rest ↔
    ∃ a mid, Reads (parseAtom σ ts) a mid ∧
      ((e = a ∧ rest = mid ∧ Without ["^"] mid) ∨
        ∃ p us b, mid = p :: us ∧ p.Is "^" ∧ Reads (parseSigned σ us) b rest ∧
          e = .binary "^" a b) := by
  rw [parsePower]
  rcases parseAtom σ ts with f | ⟨a, mid, h⟩
  · simp
  · cases mid with
    | nil => simp [and_assoc, Without]
    | cons p us =>
        simp only [← Token.is_iff]
        by_cases hp : p.Is "^"
        · rw [if_pos hp]
          rcases hb : parseSigned σ us with f | ⟨b, left⟩ <;>
            simp [and_assoc, and_comm, hb, hp, Without]
        · simp [and_assoc, hp, Without]

theorem reads_arguments_iff : Reads (parseArguments σ ts) args rest ↔
    (∃ q, ts = q :: rest ∧ q.Is ")" ∧ args = []) ∨
      Without [")"] ts ∧ Reads (parseArgumentList σ ts) args rest := by
  cases ts with
  | nil => simp [parseArguments, parseArgumentList, parseSum, parseProduct, parseSigned]
  | cons t ts =>
      rw [parseArguments]
      simp only [← Token.is_iff]
      by_cases ht : t.Is ")"
      · simp [and_assoc, and_comm, ht, Without, eq_comm]
      · simp [ht, Without]

theorem reads_argumentList_iff : Reads (parseArgumentList σ ts) args rest ↔
    ∃ a t us, Reads (parseSum σ ts) a (t :: us) ∧
      ((t.Is ")" ∧ args = [a] ∧ rest = us) ∨
        (t.Is "," ∧ ∃ es, Reads (parseArgumentList σ us) es rest ∧ args = a :: es)) := by
  rw [parseArgumentList]
  rcases parseSum σ ts with f | ⟨a, mid, h⟩
  · simp
  · cases mid with
    | nil => simp
    | cons t us =>
        simp only [← Token.is_iff]
        -- The comma is looked for first; what is no comma has to close the list.
        by_cases hcomma : t.Is ","
        · have hclose : ¬t.Is ")" := fun h => absurd (h.2.symm.trans hcomma.2) (by decide)
          rw [if_pos hcomma]
          rcases hes : parseArgumentList σ us with f | ⟨es, left⟩ <;>
            simp [and_assoc, and_comm, hes, hcomma, hclose]
        · by_cases hclose : t.Is ")" <;> simp [and_assoc, and_comm, hclose, hcomma]

theorem reads_number_iff (h : t.kind = .number) : Reads (parseAtom σ (t :: ts)) e rest ↔
    ∃ n, numberValue? t.text = some n ∧ e = .number n ∧ rest = ts := by
  rw [parseAtom.eq_def]
  simp only [h]
  cases numberValue? t.text <;> simp

theorem reads_name_iff (h : t.kind = .name) (hts : Without ["("] ts) :
    Reads (parseAtom σ (t :: ts)) e rest ↔ e = nameValue t.text ∧ rest = ts := by
  rw [parseAtom.eq_def]
  simp only [h]
  cases ts with
  | nil => simp
  | cons p us =>
      have hp : ¬(p.kind = .op ∧ p.text = "(") := hts p rfl "(" List.mem_cons_self
      simp only [if_neg hp, reads_ok_iff]

theorem reads_call_iff {f p : Token} (h : f.kind = .name) (hp : p.Is "(") :
    Reads (parseAtom σ (f :: p :: ts)) e rest ↔ ∃ args, Reads (parseArguments σ ts) args rest ∧
      σ.Accepts f.text args.length ∧ e = .call f.text args := by
  rw [parseAtom.eq_def]
  simp only [h, ← Token.is_iff]
  rw [if_pos hp]
  cases harity : σ f.text with
  | none => simp [harity, Signature.Accepts]
  | some arity =>
      rcases parseArguments σ ts with g | ⟨args, left⟩
      · simp
      · dsimp only
        split <;> simp [*, Signature.Accepts, and_assoc, and_comm]

theorem reads_group_iff {p : Token} (hp : p.Is "(") : Reads (parseAtom σ (p :: ts)) e rest ↔
    ∃ a q, Reads (parseSum σ ts) a (q :: rest) ∧ q.Is ")" ∧ e = .group a := by
  rw [parseAtom.eq_def]
  simp only [hp.1, ← Token.is_iff]
  rw [if_pos hp.2]
  rcases parseSum σ ts with f | ⟨a, left, h⟩
  · simp
  · cases left with
    | nil => simp
    | cons q us => by_cases hq : q.Is ")" <;> simp [and_assoc, and_comm, hq]

/-- An atom is a number, begins with a name or is a group. -/
theorem atom_cases (h : Reads (parseAtom σ ts) e rest) :
    ∃ t us, ts = t :: us ∧ (t.kind = .number ∨ t.kind = .name ∨ t.Is "(") := by
  rw [parseAtom.eq_def] at h
  split at h
  · simp at h
  · next t us =>
    refine ⟨t, us, rfl, ?_⟩
    split at h
    · next hkind => exact .inl hkind
    · next hkind => exact .inr (.inl hkind)
    · next hkind =>
      split at h
      · next htext => exact .inr (.inr ⟨hkind, htext⟩)
      · simp at h
    · simp at h

theorem without_sign_of_reads_power (h : Reads (parsePower σ ts) e rest) :
    Without ["-", "+"] ts := by
  obtain ⟨a, mid, hatom, -⟩ := reads_power_iff.1 h
  obtain ⟨t, us, rfl, hkind | hkind | hopen⟩ := atom_cases hatom
  · simp [Without, Token.Is, hkind]
  · simp [Without, Token.Is, hkind]
  · exact without_cons hopen (by decide)

/-- A sum does not begin with a closing parenthesis. -/
theorem without_close_of_reads_sum (h : Reads (parseSum σ ts) e rest) : Without [")"] ts := by
  obtain ⟨a, mid, hproduct, -⟩ := reads_sum_iff.1 h
  obtain ⟨b, mid, hsigned, -⟩ := reads_product_iff.1 hproduct
  by_cases hts : Without ["-", "+"] ts
  · obtain ⟨c, mid, hatom, -⟩ := reads_power_iff.1 ((reads_signed_iff hts).1 hsigned)
    obtain ⟨t, us, rfl, hkind | hkind | hopen⟩ := atom_cases hatom
    · simp [Without, Token.Is, hkind]
    · simp [Without, Token.Is, hkind]
    · exact without_cons hopen (by decide)
  · obtain ⟨t, us, rfl, ht | ht⟩ := exists_of_not_without_two hts
    · exact without_cons ht (by decide)
    · exact without_cons ht (by decide)

/-- Arguments are none, or a list of them. -/
theorem reads_arguments {q : Token} (hq : q.Is ")") (hargs : AreArguments σ ts args)
    (hlist : args ≠ [] → Reads (parseArgumentList σ (ts ++ q :: rest)) args rest) :
    Reads (parseArguments σ (ts ++ q :: rest)) args rest := by
  by_cases hne : args = []
  · subst hne
    cases hargs
    exact reads_arguments_iff.2 (.inl ⟨q, rfl, hq, rfl⟩)
  · obtain ⟨a, t, us, hsum, -⟩ := reads_argumentList_iff.1 (hlist hne)
    exact reads_arguments_iff.2 (.inr ⟨without_close_of_reads_sum hsum, hlist hne⟩)

end Gantry.Formula
