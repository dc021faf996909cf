import Gantry.Proofs.Algebra.Phrase
import Gantry.Proofs.Formula.Admission

/-!
Texts that are read as formulas with any functions. Such a text is put together
by operators, parentheses and calls, and with each goes what has to hold for
its calls to be those of formulas. Numerals that are too long count as read.
-/

namespace Gantry.Formula

variable {K L : Prop} {cs ds : List Char} {level m n : Nat} {f g : Formula} {ts us : List Token}
  {t : Token} {σ : Signature} {N : String → Prop} {s : String}

/-! ### Numerals that are too long -/

/-- A number token, with a zero in the place of a numeral that is too long. -/
def Token.shortened (t : Token) : Token :=
  if t.kind = .number ∧ (numberValue? t.text).isNone then { t with text := "0" } else t

theorem Token.Is.shortened (h : t.Is s) : t.shortened = t := if_neg (by simp [h.1])

theorem shortened_of_name (h : t.kind = .name) : t.shortened = t := if_neg (by simp [h])

theorem exists_isAtom_shortened (h : t.kind = .number) : ∃ n, IsAtom σ [t.shortened] (.number n) := by
  unfold Token.shortened
  split
  · have hzero : numberValue? "0" = some (.int 0) := by decide
    exact ⟨_, .number h hzero⟩
  · next hlong =>
    have hsome : (numberValue? t.text).isSome = true := by
      rw [← Option.not_isNone, Bool.not_eq_true', Bool.eq_false_iff]
      exact fun hnone => hlong ⟨h, hnone⟩
    obtain ⟨n, hn⟩ := Option.isSome_iff_exists.1 hsome
    exact ⟨n, .number h hn⟩

theorem map_shortened (h : Numbers HasNumber ts) : ts.map Token.shortened = ts := by
  refine (List.map_congr_left fun t ht => if_neg ?_).trans (List.map_id ts)
  rintro ⟨hkind, hnone⟩
  have hsome := h t ht hkind
  rw [HasNumber] at hsome
  simp_all

/-- No numeral of a text is too long to be read. -/
def Short (s : String) : Prop := ∀ ts, tokensFrom 0 s.toList = .ok ts → Numbers HasNumber ts

instance (s : String) : Decidable (Short s) :=
  decidable_of_iff
    (∀ ts ∈ (tokensFrom 0 s.toList).toOption, ∀ t ∈ ts, t.kind = .number → (numberValue? t.text).isSome)
    (by
      unfold Short
      cases tokensFrom 0 s.toList <;> simp [Except.toOption, Numbers, HasNumber])

/-! ### Readings -/

/-- All calls of a formula are calls of functions of formulas. -/
abbrev Accepted (f : Formula) : Prop := f.Everywhere (Admitted .formulas fun _ => True)

/-- A text that is read, at a level of the grammar, as a formula with any
functions, whose calls are those of formulas just if `K` holds. -/
def Reading (level : Nat) (K : Prop) (cs : List Char) : Prop :=
  Spells Stops cs fun ts => ∃ f, HasLevel .any level (ts.map Token.shortened) f ∧ (f.Accepted ↔ K)

theorem Reading.mono (h : Reading m K cs) (hle : n ≤ m) : Reading n K cs :=
  Spells.mono h (fun _ h => h) fun _ ⟨f, hf, hK⟩ => ⟨f, hf.mono hle, hK⟩

theorem Reading.congr (h : Reading m K cs) (hKL : K ↔ L) : Reading m L cs :=
  Spells.mono h (fun _ h => h) fun _ ⟨f, hf, hK⟩ => ⟨f, hf, hK.trans hKL⟩

theorem reading_name {x : String} (h : isName x = true) : Reading atomLevel True x.toList := by
  refine (spells_name h).mono (fun _ h => h.endsName) ?_
  rintro ts ⟨t, rfl, hkind, rfl⟩
  refine ⟨_, hasLevel_of_isAtom (by simpa [shortened_of_name hkind] using isAtom_name hkind) _, ?_⟩
  unfold nameValue
  split <;> simp [Accepted]

theorem reading_numeral (n : Decimal.Numeral) : Reading atomLevel True n.chars := by
  refine (spells_number n).mono (fun _ h => h.endsNumber) ?_
  rintro ts ⟨t, rfl, hkind, -⟩
  obtain ⟨k, hk⟩ := exists_isAtom_shortened (σ := .any) hkind
  exact ⟨_, hasLevel_of_isAtom hk _, by simp [Accepted]⟩

theorem reading_group (h : Reading sumLevel K cs) : Reading atomLevel K (enclose cs) := by
  refine (Spells.enclose (F := Stops) (Spells.mono h (fun _ h => h.stops) fun _ h => h)).mono
    (fun _ h => h) ?_
  rintro ts ⟨p, us, q, rfl, hp, ⟨f, hf, hK⟩, hq⟩
  have hgroup : IsAtom .any (p :: (us.map Token.shortened ++ [q])) (.group f) :=
    .group hp hf.isSum hq
  refine ⟨.group f, hasLevel_of_isAtom ?_ _, by simpa [Accepted] using hK⟩
  simpa [hp.shortened, hq.shortened] using hgroup

/-- Two readings with an operator between them. -/
theorem reading_binary {outer l r : Nat} {op : String} {os : List Char}
    (hcs : Reading l K cs) (hds : Reading r L ds)
    (hop : Spells (fun rest => ∃ rest', rest = ds ++ rest') os fun ts => ∃ t : Token, ts = [t] ∧ t.Is op)
    (hstops : ∀ rest, Stops (os ++ rest))
    (hlevel : ∀ {ts us t f g}, HasLevel .any l ts f → t.Is op → HasLevel .any r us g →
      ∃ h, HasLevel .any outer (ts ++ t :: us) h ∧ (h.Accepted ↔ f.Accepted ∧ g.Accepted)) :
    Reading outer (K ∧ L) (cs ++ (os ++ ds)) := by
  have hrest := hop.append hds fun rest _ => ⟨rest, rfl⟩
  refine (Spells.append hcs hrest fun rest _ => List.append_assoc os ds rest ▸ hstops _).mono
    (fun _ h => h) ?_
  rintro _ ⟨ts, _, ⟨f, hf, hK⟩, ⟨_, us, ⟨t, rfl, ht⟩, ⟨g, hg, hL⟩, rfl⟩, rfl⟩
  obtain ⟨h, hh, haccepted⟩ := hlevel hf ht hg
  refine ⟨h, ?_, haccepted.trans (and_congr hK hL)⟩
  simpa [ht.shortened] using hh

theorem accepted_binary {op : String} : (binary op f g).Accepted ↔ f.Accepted ∧ g.Accepted :=
  everywhere_admitted_binary

theorem reading_add (hcs : Reading sumLevel K cs) (hds : Reading productLevel L ds) :
    Reading sumLevel (K ∧ L) (cs ++ ([' ', '+', ' '] ++ ds)) :=
  reading_binary hcs hds (spells_apart rfl) (fun _ => stops_cons (.inl rfl))
    fun hf ht hg => ⟨_, hasLevel_binary (rfl : operatorLevel? "+" = _) hf ht hg, accepted_binary⟩

theorem reading_sub (hcs : Reading sumLevel K cs) (hds : Reading productLevel L ds) :
    Reading sumLevel (K ∧ L) (cs ++ ([' ', '-', ' '] ++ ds)) :=
  reading_binary hcs hds (spells_apart rfl) (fun _ => stops_cons (.inl rfl))
    fun hf ht hg => ⟨_, hasLevel_binary (rfl : operatorLevel? "-" = _) hf ht hg, accepted_binary⟩

/-- The factors of a second product go on with the first. -/
theorem exists_product_append (hts : IsProduct σ ts f) (ht : t.Is "*" ∨ t.Is "/")
    (hus : IsProduct σ us g) :
    ∃ h, IsProduct σ (ts ++ t :: us) h ∧ (h.Accepted ↔ f.Accepted ∧ g.Accepted) := by
  induction hus using IsProduct.induction with
  | signed hg => exact ⟨_, hts.factor ht hg, accepted_binary⟩
  | factor ha hop hb ih =>
      obtain ⟨h, hh, haccepted⟩ := ih
      refine ⟨_, by simpa using hh.factor hop hb, ?_⟩
      rw [accepted_binary, haccepted, accepted_binary, and_assoc]

theorem reading_mul (hcs : Reading productLevel K cs) (hds : Reading productLevel L ds)
    (hstar : ∀ rest, (ds ++ rest).head? ≠ some '*') :
    Reading productLevel (K ∧ L) (cs ++ (['*'] ++ ds)) := by
  refine reading_binary hcs hds ?_ (fun _ => stops_cons (.inr (.inr (.inr (.inl rfl)))))
    fun hf ht hg => exists_product_append hf (.inl ht) hg
  refine (spells_operator (c := '*') rfl).mono ?_ fun _ h => h
  rintro _ ⟨rest, rfl⟩ -
  exact hstar rest

theorem reading_div (hcs : Reading productLevel K cs) (hds : Reading productLevel L ds) :
    Reading productLevel (K ∧ L) (cs ++ (['/'] ++ ds)) :=
  reading_binary hcs hds
    ((spells_operator (c := '/') rfl).mono (fun _ _ h => absurd h (by decide)) fun _ h => h)
    (fun _ => stops_cons (.inr (.inr (.inr (.inr rfl)))))
    fun hf ht hg => exists_product_append hf (.inr ht) hg

theorem reading_pow (hcs : Reading atomLevel K cs) (hds : Reading signLevel L ds) :
    Reading powerLevel (K ∧ L) (cs ++ (['*', '*'] ++ ds)) :=
  reading_binary hcs hds spells_doubleStar (fun _ => stops_cons (.inr (.inr (.inr (.inl rfl)))))
    fun hf ht hg => ⟨_, IsPower.power hf ht hg, accepted_binary⟩

/-- The sign stands before the first factor only. -/
theorem exists_product_negated (ht : t.Is "-") (hts : IsProduct σ ts f) :
    ∃ g, IsProduct σ (t :: ts) g ∧ (g.Accepted ↔ f.Accepted) := by
  induction hts using IsProduct.induction with
  | signed h => exact ⟨_, .signed (.sign (.inl ht) h), everywhere_admitted_unary⟩
  | factor ha hop hb ih =>
      obtain ⟨g, hg, haccepted⟩ := ih
      exact ⟨_, hg.factor hop hb, by rw [accepted_binary, haccepted, accepted_binary]⟩

theorem reading_minus {level : Nat} (hlevel : level = signLevel ∨ level = productLevel)
    (h : Reading level K cs) : Reading level K ('-' :: cs) := by
  refine (Spells.behind (c := '-') rfl (by decide) h).mono (fun _ h => h) ?_
  rintro _ ⟨t, ts, rfl, ht, f, hf, hK⟩
  have hnegated : ∃ g, HasLevel .any level (t :: ts.map Token.shortened) g ∧ (g.Accepted ↔ f.Accepted) := by
    obtain rfl | rfl := hlevel
    · exact ⟨_, IsSigned.sign (.inl ht) hf, everywhere_admitted_unary⟩
    · exact exists_product_negated ht hf
  obtain ⟨g, hg, haccepted⟩ := hnegated
  exact ⟨g, by simpa [Token.Is.shortened ht] using hg, haccepted.trans hK⟩

/-! ### Calls -/

/-- Readings with commas between them are read as so many arguments. -/
theorem spells_arguments {Ks : List Prop} {xs : List String}
    (h : List.Forall₂ (fun K x => Reading sumLevel K x.toList) Ks xs) :
    Spells Closed (", ".intercalate xs).toList fun ts => ∃ args,
      AreArguments .any (ts.map Token.shortened) args ∧ args.length = xs.length ∧
        ((∀ a ∈ args, a.Accepted) ↔ ∀ K ∈ Ks, K) := by
  induction h with
  | nil =>
      refine Spells.mono spells_nil (fun _ _ => trivial) ?_
      rintro _ rfl
      exact ⟨[], .none, rfl, by simp⟩
  | @cons K x Ks xs hx hxs ih =>
      have hfirst := Spells.mono hx (fun _ h => Closed.stops h) fun _ h => h
      cases hxs with
      | nil =>
          refine Spells.mono hfirst (fun _ h => h) ?_
          rintro ts ⟨f, hf, hK⟩
          exact ⟨[f], .last hf.isSum, rfl, by rwa [List.forall_mem_singleton, List.forall_mem_singleton]⟩
      | @cons L y Ls ys hy hys =>
          rw [String.intercalate_cons_cons, String.append_assoc, String.toList_append,
            String.toList_append]
          refine Spells.mono (Spells.comma hfirst ih) (fun _ h => h) ?_
          rintro _ ⟨us, t, vs, rfl, ⟨f, hf, hK⟩, ht, args, hargs, hlength, hKs⟩
          obtain ⟨g, gs, rfl⟩ : ∃ g gs, args = g :: gs :=
            List.exists_cons_of_length_pos (by simp [hlength])
          refine ⟨f :: g :: gs, ?_, by simp [hlength], ?_⟩
          · simpa [ht.shortened] using AreArguments.more hf.isSum ht hargs
          · rw [List.forall_mem_cons, hKs, hK, List.forall_mem_cons (a := K)]

theorem reading_call {name : String} {Ks : List Prop} {xs : List String}
    (hname : isName name = true) (h : List.Forall₂ (fun K x => Reading sumLevel K x.toList) Ks xs) :
    Reading atomLevel (Signature.formulas.Accepts name xs.length ∧ ∀ K ∈ Ks, K)
      (name.toList ++ enclose (", ".intercalate xs).toList) := by
  refine (Spells.call hname (spells_arguments h)).mono (fun _ h => h) ?_
  rintro ts ⟨t, p, us, q, rfl, hkind, rfl, hp, ⟨args, hargs, hlength, hKs⟩, hq⟩
  have hcall : IsAtom .any (t :: p :: (us.map Token.shortened ++ [q])) (.call t.text args) :=
    .call hkind hp hargs hq ⟨none, rfl, rfl⟩
  refine ⟨.call t.text args, hasLevel_of_isAtom ?_ _, ?_⟩
  · simpa [shortened_of_name hkind, hp.shortened, hq.shortened] using hcall
  · rw [Accepted, everywhere_admitted_call, hlength, hKs]

end Gantry.Formula
