import Gantry.Proofs.Formula.Derivation
import Gantry.Proofs.Formula.Spelling
import Gantry.Proofs.Formula.Structure

/-!
The text of a formula spells the formula. Reading adds groups where the text
has parentheses, so what is spelled is the formula with those groups, and the
parentheses are enough: an operand is at least as tight as its place in the
grammar demands.
-/

namespace Gantry.Formula

/-! ### Groups for parentheses -/

/-- An operand in its place: a group if its text is put in parentheses there. -/
def place (outer : Nat) (tight : Bool) (e : Formula) : Formula :=
  if e.level?.getD atomLevel < outer ∨ (tight = true ∧ e.level?.getD atomLevel = outer) then
    .group e
  else e

mutual

/-- The formula with a group wherever its text has parentheses. -/
def grouped : Formula → Formula
  | .number n => .number n
  | .constant c => .constant c
  | .variable x => .variable x
  | .group e => .group e.grouped
  | .unary op e => .unary op (place signLevel false e.grouped)
  | .binary op l r =>
    let outer := (operatorLevel? op).getD sumLevel
    let toRight := op == "^"
    .binary op (place outer toRight l.grouped) (place outer (!toRight) r.grouped)
  | .call f args => .call f (groupedAll args)

def groupedAll : List Formula → List Formula
  | [] => []
  | e :: es => e.grouped :: groupedAll es

end

@[simp] theorem groupedAll_eq (es : List Formula) : groupedAll es = es.map grouped := by
  induction es with
  | nil => rfl
  | cons e es ih => rw [groupedAll, ih, List.map_cons]

@[simp] theorem key_place (outer : Nat) (tight : Bool) (e : Formula) :
    (place outer tight e).key = e.key := by
  unfold place
  split <;> simp [key]

/-- Groups are all that is added. -/
theorem key_grouped (e : Formula) : e.grouped.key = e.key := by
  induction e with
  | number n => rfl
  | constant c => rfl
  | var x => rfl
  | group e ih => simp [grouped, key, ih]
  | unary op e ih => simp [grouped, key, ih]
  | binary op l r ihl ihr => simp [grouped, key, ihl, ihr]
  | call f args ih => simpa [grouped, key] using ih

@[simp] theorem level?_grouped (e : Formula) : e.grouped.level? = e.level? := by
  cases e <;> rfl

/-! ### Levels of the grammar -/

/-- Phrases that hold together at least as tightly as a level says. -/
def HasLevel (σ : Signature) (level : Nat) (ts : List Token) (e : Formula) : Prop :=
  if level ≤ sumLevel then IsSum σ ts e
  else if level ≤ productLevel then IsProduct σ ts e
  else if level ≤ signLevel then IsSigned σ ts e
  else if level ≤ powerLevel then IsPower σ ts e
  else IsAtom σ ts e

variable {σ : Signature} {ts us vs : List Token} {t : Token} {e a b l r : Formula}
  {m n inner outer : Nat} {cs ds ls rs : List Char} {op : String} {tight : Bool}

theorem HasLevel.mono (h : HasLevel σ m ts e) (hle : n ≤ m) : HasLevel σ n ts e := by
  have hpower (h : IsAtom σ ts e) : IsPower σ ts e := .atom h
  have hsigned (h : IsPower σ ts e) : IsSigned σ ts e := .power h
  have hproduct (h : IsSigned σ ts e) : IsProduct σ ts e := .signed h
  have hsum (h : IsProduct σ ts e) : IsSum σ ts e := .product h
  unfold HasLevel sumLevel productLevel signLevel powerLevel at *
  grind

theorem HasLevel.isSum (h : HasLevel σ m ts e) : IsSum σ ts e := h.mono (Nat.zero_le m)

theorem hasLevel_of_isAtom (h : IsAtom σ ts e) (n : Nat) : HasLevel σ n ts e := by
  have hlarge : ¬max n atomLevel ≤ powerLevel := by
    rw [Nat.max_le, atomLevel, powerLevel]
    omega
  have htop : HasLevel σ (max n atomLevel) ts e := by
    unfold HasLevel
    simp only [sumLevel, productLevel, signLevel, powerLevel, atomLevel] at *
    grind
  exact htop.mono (Nat.le_max_left n atomLevel)

theorem operatorLevel?_cases (h : operatorLevel? op = some outer) :
    (op = "+" ∨ op = "-") ∧ outer = sumLevel ∨ (op = "*" ∨ op = "/") ∧ outer = productLevel ∨
      op = "^" ∧ outer = powerLevel := by
  unfold operatorLevel? at h
  split at h <;> cases h <;> simp

theorem hasLevel_binary (hop : operatorLevel? op = some outer)
    (ha : HasLevel σ (if op == "^" then outer + 1 else outer) us a) (ht : t.Is op)
    (hb : HasLevel σ (if !(op == "^") then outer + 1 else outer) vs b) :
    HasLevel σ outer (us ++ t :: vs) (.binary op a b) := by
  obtain ⟨rfl | rfl, rfl⟩ | ⟨rfl | rfl, rfl⟩ | ⟨rfl, rfl⟩ := operatorLevel?_cases hop
  · exact ht.2 ▸ IsSum.term ha (.inl ht) hb
  · exact ht.2 ▸ IsSum.term ha (.inr ht) hb
  · exact ht.2 ▸ IsProduct.factor ha (.inl ht) hb
  · exact ht.2 ▸ IsProduct.factor ha (.inr ht) hb
  · exact IsPower.power ha ht (.power hb)

/-! ### What is written -/

theorem chars_unary (h : e.chars = .ok cs) (hlevel : e.level? = some n) :
    (Formula.unary op e).chars = .ok (op.toList ++ operandText signLevel false n cs) := by
  rw [chars, h, hlevel]
  rfl

theorem chars_binary (hop : operatorLevel? op = some outer) (hl : l.chars = .ok ls)
    (hm : l.level? = some m) (hr : r.chars = .ok rs) (hn : r.level? = some n) :
    (Formula.binary op l r).chars = .ok (operandText outer (op == "^") m ls ++
      ' ' :: op.toList ++ ' ' :: operandText outer (!(op == "^")) n rs) := by
  rw [chars, hl, hm, hop, hr, hn]
  rfl

theorem chars_call {f : String} {args : List Formula} (h : argsChars args = .ok cs) :
    (Formula.call f args).chars = .ok (f.toList ++ enclose cs) := by
  rw [chars, h]
  rfl

theorem argsChars_cons {es : List Formula} (h : e.chars = .ok cs) (hl : argsChars (l :: es) = .ok ls) :
    argsChars (e :: l :: es) = .ok (cs ++ ',' :: ' ' :: ls) := by
  rw [argsChars, h, hl]
  · rfl
  · simp

/-! ### What is written is read -/

/-- The text of a formula, how tightly it holds together, and that it spells the grouped formula,
whose text is the same. -/
structure Rendered (e : Formula) (cs : List Char) (n : Nat) : Prop where
  chars : e.chars = .ok cs
  level : e.level? = some n
  again : e.grouped.chars = .ok cs
  spells : Spells Closed cs fun ts => HasLevel .formulas n ts e.grouped

theorem spells_group (h : Rendered e cs inner) {F : List Char → Prop} :
    Spells F (enclose cs) fun ts => IsAtom .formulas ts (.group e.grouped) := by
  refine (Spells.enclose h.spells).mono (fun _ h => h) ?_
  rintro ts ⟨p, us, q, rfl, hp, hus, hq⟩
  exact .group hp hus.isSum hq

/-- An operand is read as it is placed. -/
theorem Rendered.spells_operand (h : Rendered e cs inner) (outer : Nat) (tight : Bool) :
    Spells Closed (operandText outer tight inner cs) fun ts =>
      HasLevel .formulas (if tight then outer + 1 else outer) ts (place outer tight e.grouped) := by
  unfold operandText place
  rw [level?_grouped, h.level, Option.getD_some]
  split
  · exact (spells_group h).mono (fun _ h => h) fun ts hts => hasLevel_of_isAtom hts _
  · rename_i hbare
    refine h.spells.mono (fun _ h => h) fun ts hts => hts.mono ?_
    cases tight <;> simp at hbare ⊢ <;> omega

/-- A group needs no parentheses, so the text of an operand that is placed stays what it is. -/
theorem Rendered.again_operand (h : Rendered e cs inner) (houter : outer < atomLevel)
    (tight : Bool) : ∃ cs' inner', (place outer tight e.grouped).chars = .ok cs' ∧
      (place outer tight e.grouped).level? = some inner' ∧
      operandText outer tight inner' cs' = operandText outer tight inner cs := by
  by_cases hclosed : inner < outer ∨ (tight = true ∧ inner = outer)
  · have hplace : place outer tight e.grouped = .group e.grouped := by
      rw [place, level?_grouped, h.level, Option.getD_some, if_pos hclosed]
    refine ⟨enclose cs, atomLevel, by rw [hplace, Formula.chars, h.again]; rfl, by rw [hplace]; rfl, ?_⟩
    rw [operandText, operandText, if_pos hclosed, if_neg (by omega)]
  · have hplace : place outer tight e.grouped = e.grouped := by
      rw [place, level?_grouped, h.level, Option.getD_some, if_neg hclosed]
    exact ⟨cs, inner, by rw [hplace, h.again], by rw [hplace, level?_grouped, h.level], rfl⟩

theorem rendered_group (h : Rendered e cs inner) : Rendered (.group e) (enclose cs) atomLevel where
  chars := by rw [chars, h.chars]; rfl
  level := rfl
  again := by rw [grouped, chars, h.again]; rfl
  spells := (spells_group h).mono (fun _ h => h) fun _ hts => hasLevel_of_isAtom hts _

/-- A sign in front of what is at least as tight. -/
theorem spells_sign (hop : op = "-" ∨ op = "+")
    (h : Spells Closed cs fun ts => IsSigned .formulas ts a) :
    Spells Closed (op.toList ++ cs) fun ts => IsSigned .formulas ts (.unary op a) := by
  obtain ⟨c, hlist, hc, hstar⟩ : ∃ c, op.toList = [c] ∧ isOperator c = true ∧ c ≠ '*' := by
    obtain rfl | rfl := hop
    · exact ⟨'-', rfl, rfl, by decide⟩
    · exact ⟨'+', rfl, rfl, by decide⟩
  rw [hlist]
  refine (h.behind hc hstar).mono (fun _ h => h) ?_
  rintro ts ⟨t, us, rfl, ht, hus⟩
  rw [← hlist, String.ofList_toList] at ht
  have hsign : t.Is "-" ∨ t.Is "+" := by
    obtain rfl | rfl := hop
    · exact .inl ht
    · exact .inr ht
  exact ht.2 ▸ IsSigned.sign hsign hus

theorem rendered_unary (hop : op = "-" ∨ op = "+") (h : Rendered e cs inner) :
    Rendered (.unary op e) (op.toList ++ operandText signLevel false inner cs) signLevel where
  chars := chars_unary h.chars h.level
  level := rfl
  again := by
    have houter : signLevel < atomLevel := by decide
    obtain ⟨cs', inner', hchars, hlevel, htext⟩ := h.again_operand houter false
    rw [grouped, chars_unary hchars hlevel, htext]
  spells := spells_sign hop (h.spells_operand signLevel false)

theorem operatorLevel?_lt (h : operatorLevel? op = some outer) : outer < atomLevel := by
  obtain ⟨-, rfl⟩ | ⟨-, rfl⟩ | ⟨-, rfl⟩ := operatorLevel?_cases h <;> decide

theorem exists_operator (h : operatorLevel? op = some outer) :
    ∃ c, op.toList = [c] ∧ isOperator c = true := by
  obtain ⟨rfl | rfl, -⟩ | ⟨rfl | rfl, -⟩ | ⟨rfl, -⟩ := operatorLevel?_cases h
  all_goals exact ⟨_, rfl, rfl⟩

theorem rendered_binary (hop : operatorLevel? op = some outer) (hl : Rendered l ls m)
    (hr : Rendered r rs n) : Rendered (.binary op l r)
      (operandText outer (op == "^") m ls ++ ' ' :: op.toList ++
        ' ' :: operandText outer (!(op == "^")) n rs) outer where
  chars := chars_binary hop hl.chars hl.level hr.chars hr.level
  level := hop
  again := by
    obtain ⟨ls', m', hls, hm, hleft⟩ := hl.again_operand (operatorLevel?_lt hop) (op == "^")
    obtain ⟨rs', n', hrs, hn, hright⟩ := hr.again_operand (operatorLevel?_lt hop) (!(op == "^"))
    rw [grouped, hop]
    exact (chars_binary hop hls hm hrs hn).trans (by rw [hleft, hright])
  spells := by
    obtain ⟨c, hlist, hc⟩ := exists_operator hop
    have hbetween := (hl.spells_operand outer (op == "^")).between hc
      (hr.spells_operand outer (!(op == "^")))
    rw [hlist, List.append_assoc]
    refine hbetween.mono (fun _ h => h) ?_
    rintro ts ⟨us, t, vs, rfl, hus, ht, hvs⟩
    rw [← hlist, String.ofList_toList] at ht
    have hbinary := hasLevel_binary hop hus ht hvs
    rw [grouped, hop]
    exact hbinary

theorem rendered_arguments {args : List Formula} (h : ∀ a ∈ args, ∃ cs n, Rendered a cs n) :
    ∃ cs, argsChars args = .ok cs ∧ argsChars (args.map grouped) = .ok cs ∧
      Spells Closed cs fun ts => AreArguments .formulas ts (args.map grouped) := by
  induction args with
  | nil =>
      refine ⟨[], rfl, rfl, spells_nil.mono (fun _ h => h) ?_⟩
      rintro ts rfl
      exact .none
  | cons e es ih =>
      rw [List.forall_mem_cons] at h
      obtain ⟨⟨cs, n, he⟩, hes⟩ := h
      obtain ⟨ds, hds, hagain, hspells⟩ := ih hes
      cases es with
      | nil =>
          exact ⟨cs, he.chars, he.again,
            he.spells.mono (fun _ h => h) fun ts hts => .last hts.isSum⟩
      | cons e' es =>
          refine ⟨cs ++ ',' :: ' ' :: ds, ?_, ?_, ?_⟩
          · exact argsChars_cons he.chars hds
          · rw [List.map_cons] at hagain
            exact argsChars_cons he.again hagain
          · refine (he.spells.comma hspells).mono (fun _ h => h) ?_
            rintro ts ⟨us, t, vs, rfl, hus, ht, hvs⟩
            exact .more hus.isSum ht hvs

end Gantry.Formula
