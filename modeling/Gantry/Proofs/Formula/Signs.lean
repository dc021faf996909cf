import Gantry.Proofs.Formula.RoundTrip
import Gantry.Proofs.Number.Sign

/-!
How text with signs in its literals is read. There are no signed literals in a text: the sign in
front of one is read as a sign of the formula. A sign binds less tightly than a literal does, so
literals below zero are put in parentheses where that matters; negative zero, which is not below
zero, is not. Literals without digits are read as names.
-/

namespace Gantry.Formula

open Text Decimal

/-! ### What a text is read as -/

/-- What the text of an unsigned double is read as. -/
def sizeReading (x : Binary64) : Formula :=
  if x.isInfinite then .variable "inf" else .number (.real x)

/-- What the text of a literal is read as. -/
def literalReading : Number → Formula
  | .int k => if k < 0 then .unary "-" (.number (.int (-k))) else .number (.int k)
  | .real x =>
    if x.isNaN then .variable "nan"
    else if x.signBit then .unary "-" (sizeReading x.neg) else sizeReading x

/-- Whether a formula is the literal negative zero. -/
def isNegativeZero : Formula → Bool
  | .number (.real x) => x.signBit && x.isZero
  | _ => false

mutual

/-- What the text of a formula is read as, up to groups. The sign of negative zero as a base is
taken for a sign of the power. -/
def reading : Formula → Formula
  | .number n => literalReading n
  | .constant c => .constant c
  | .variable x => .variable x
  | .group e => .group e.reading
  | .unary op e => .unary op e.reading
  | .binary op l r =>
    if op = "^" ∧ l.isNegativeZero = true then
      .unary "-" (.binary op (.number (.real .zero)) r.reading)
    else .binary op l.reading r.reading
  | .call f args => .call f (readingAll args)

def readingAll : List Formula → List Formula
  | [] => []
  | e :: es => e.reading :: readingAll es

end

@[simp] theorem readingAll_eq (es : List Formula) : readingAll es = es.map reading := by
  induction es with
  | nil => rfl
  | cons e es ih => rw [readingAll, ih, List.map_cons]

variable {x : Binary64} {e l r a b d : Formula} {op : String} {cs : List Char}
  {m n outer : Nat} {tight : Bool}

/-! ### Texts and levels of signed literals -/

theorem search_neg (x : Binary64) (p : Int) (fuel k : Nat) :
    search x.neg p fuel k = search x p fuel k := by
  induction fuel generalizing k with
  | zero => rw [search, search, Binary64.significand_neg]
  | succ fuel ih =>
      simp only [search, interval, Binary64.significand_neg, Binary64.exponent_neg, ih]

/-- The text of a double with a sign is that sign and the text of its size. -/
theorem literalText_of_signBit (hnan : x.isNaN = false) (hs : x.signBit = true) :
    literalText x = "-" ++ literalText x.neg := by
  have hshortest : shortest x.neg = shortest x := by
    simp only [shortest, search_neg, ratioOf, Binary64.significand_neg, Binary64.exponent_neg]
  simp only [literalText, Binary64.isNaN_neg, Binary64.signBit_neg, Binary64.isInfinite_neg,
    Binary64.isZero_neg, hnan, hs, hshortest]
  rfl

theorem isNegative_real_iff :
    (Number.real x).isNegative = true ↔
      x.isNaN = false ∧ x.signBit = true ∧ x.isZero = false := by
  rw [Number.isNegative, Number.lt_zero, Binary64.lt_iff, Binary64.isZero, Binary64.rank]
  have hzero : Binary64.zero.isNaN = false ∧ Binary64.zero.rank = 0 := by decide
  simp only [hzero, true_and, beq_eq_false_iff_ne]
  refine and_congr_right fun _ => ?_
  split
  · next hs => simp [hs, Nat.pos_iff_ne_zero]
  · next hs =>
    simp only [hs, Bool.false_eq_true, false_and, iff_false]
    omega

theorem level?_of_not_isNegative {n : Number} (h : ¬n.isNegative = true) :
    (Formula.number n).level? = some atomLevel := by
  rw [level?, if_neg h]

theorem level?_of_isNegative {n : Number} (h : n.isNegative = true) :
    (Formula.number n).level? = some signLevel := by
  rw [level?, if_pos h]

/-- Negative zero is not below zero, and its text is that of zero behind a sign. -/
theorem eq_of_isNegativeZero (h : e.isNegativeZero = true) : ∃ x : Binary64,
    e = .number (.real x) ∧ e.level? = some atomLevel ∧
      literalText x = "-" ++ literalText .zero := by
  unfold isNegativeZero at h
  split at h
  · next x =>
    rw [Bool.and_eq_true] at h
    obtain ⟨hs, hzero⟩ := h
    have hmagnitude : x.magnitude = 0 := beq_iff_eq.1 hzero
    have hnan : x.isNaN = false := by simp [Binary64.isNaN, hmagnitude]
    have hneg : x.neg = .zero := Binary64.eq_of_signBit_of_magnitude
      (by rw [Binary64.signBit_neg, hs]; rfl) ((Binary64.magnitude_neg x).trans hmagnitude)
    have hlevel := level?_of_not_isNegative (n := .real x) (by simp [isNegative_real_iff, hzero])
    exact ⟨x, rfl, hlevel, by rw [literalText_of_signBit hnan hs, hneg]⟩
  · cases h

/-! ### Spelling, with how tight it is -/

/-- The text of a formula, the level the text is taken to have, the level it has, and what it
spells. The two levels may differ above those of signs: the text of negative zero and that of its
powers hold together less tightly than they are taken to. -/
structure Spelled (e : Formula) (cs : List Char) (n m : Nat) (d : Formula) : Prop where
  chars : e.chars = .ok cs
  level : e.level? = some n
  sign : min n signLevel ≤ m
  atom : powerLevel < n → e.isNegativeZero = false → atomLevel ≤ m
  spells : Spells Closed cs fun ts => HasLevel .formulas m ts d

/-- The text of a formula is read as another one, up to groups. -/
def SpelledAs (e d : Formula) : Prop := ∃ cs n m d', Spelled e cs n m d' ∧ d'.key = d.key

theorem Rendered.spelledAs (h : Rendered e cs n) : SpelledAs e e.grouped :=
  ⟨cs, n, n, e.grouped, ⟨h.chars, h.level, Nat.min_le_left _ _, fun hn _ => hn, h.spells⟩, rfl⟩

/-- What is spelled at the level it is taken to have. -/
theorem SpelledAs.of_spells (hchars : e.chars = .ok cs) (hlevel : e.level? = some n)
    (h : Spells Closed cs fun ts => HasLevel .formulas n ts d) : SpelledAs e d :=
  ⟨cs, n, n, d, ⟨hchars, hlevel, Nat.min_le_left _ _, fun hn _ => hn, h⟩, rfl⟩

theorem SpelledAs.congr (h : SpelledAs e a) (hkey : a.key = b.key) : SpelledAs e b := by
  obtain ⟨cs, n, m, d, hd, hda⟩ := h
  exact ⟨cs, n, m, d, hd, hda.trans hkey⟩

theorem Spelled.enclose (h : Spelled e cs n m d) {F : List Char → Prop} :
    Spells F (enclose cs) fun ts => IsAtom .formulas ts (.group d) := by
  refine (Spells.enclose h.spells).mono (fun _ h => h) ?_
  rintro ts ⟨p, us, q, rfl, hp, hus, hq⟩
  exact .group hp hus.isSum hq

/-- An operand is read as tightly as its place demands, as far as signs are concerned. -/
theorem Spelled.operand (h : Spelled e cs n m d) (outer : Nat) (tight : Bool) :
    ∃ d', d'.key = d.key ∧ Spells Closed (operandText outer tight n cs) fun ts =>
      HasLevel .formulas (min (if tight then outer + 1 else outer) signLevel) ts d' := by
  unfold operandText
  split
  · exact ⟨.group d, rfl, h.enclose.mono (fun _ h => h) fun ts hts => hasLevel_of_isAtom hts _⟩
  · next hbare =>
    have hsign := h.sign
    refine ⟨d, rfl, h.spells.mono (fun _ h => h) fun ts hts => hts.mono ?_⟩
    cases tight <;> simp at hbare ⊢ <;> omega

/-- A base is an atom, unless it is negative zero. -/
theorem Spelled.base (h : Spelled e cs n m d) (hzero : e.isNegativeZero = false) :
    ∃ d', d'.key = d.key ∧ Spells Closed (operandText powerLevel true n cs) fun ts =>
      IsAtom .formulas ts d' := by
  unfold operandText
  split
  · exact ⟨.group d, rfl, h.enclose⟩
  · next hbare =>
    have hatom : powerLevel < n := by
      simp only [true_and, not_or] at hbare
      omega
    exact ⟨d, rfl, h.spells.mono (fun _ h => h) fun ts hts => hts.mono (h.atom hatom hzero)⟩

theorem spelledAs_group (h : SpelledAs e d) : SpelledAs (.group e) (.group d) := by
  obtain ⟨cs, n, m, d', hd, hkey⟩ := h
  refine SpelledAs.congr (a := .group d') (.of_spells (n := atomLevel) ?_ rfl
    (hd.enclose.mono (fun _ h => h) fun ts hts => hasLevel_of_isAtom hts _)) hkey
  rw [chars, hd.chars]
  rfl

theorem spelledAs_unary (hop : op = "-" ∨ op = "+") (h : SpelledAs e d) :
    SpelledAs (.unary op e) (.unary op d) := by
  obtain ⟨cs, n, m, d', hd, hkey⟩ := h
  obtain ⟨a, ha, hspells⟩ := hd.operand signLevel false
  refine SpelledAs.congr (a := .unary op a) (.of_spells (n := signLevel) ?_ rfl
    (spells_sign hop hspells)) (by rw [key, key, ha, hkey])
  exact chars_unary hd.chars hd.level

theorem spelledAs_binary (hop : operatorLevel? op = some outer) (hl : SpelledAs l a)
    (hr : SpelledAs r b) (hbase : op = "^" → l.isNegativeZero = false) :
    SpelledAs (.binary op l r) (.binary op a b) := by
  obtain ⟨ls, m, _, c, hc, hca⟩ := hl
  obtain ⟨rs, n, _, d, hd, hdb⟩ := hr
  have hchars := chars_binary hop hc.chars hc.level hd.chars hd.level
  obtain ⟨s, hlist, hs⟩ := exists_operator hop
  obtain ⟨b', hb', hright⟩ := hd.operand outer (!(op == "^"))
  suffices h : ∃ a', a'.key = c.key ∧ Spells Closed (operandText outer (op == "^") m ls ++
      ' ' :: s :: ' ' :: operandText outer (!(op == "^")) n rs) fun ts =>
        HasLevel .formulas outer ts (.binary op a' b') by
    obtain ⟨a', ha', hspells⟩ := h
    refine SpelledAs.congr (a := .binary op a' b') (.of_spells hchars hop ?_)
      (by rw [key, key, ha', hca, hb', hdb])
    rw [hlist, List.append_assoc]
    exact hspells
  by_cases hpower : op = "^"
  · subst hpower
    cases hop
    obtain ⟨a', ha', hleft⟩ := hc.base (hbase rfl)
    refine ⟨a', ha', (hleft.between hs hright).mono (fun _ h => h) ?_⟩
    rintro ts ⟨us, t, vs, rfl, hus, ht, hvs⟩
    rw [← hlist, String.ofList_toList] at ht
    exact IsPower.power hus ht hvs
  · obtain ⟨a', ha', hleft⟩ := hc.operand outer (op == "^")
    refine ⟨a', ha', (hleft.between hs hright).mono (fun _ h => h) ?_⟩
    rintro ts ⟨us, t, vs, rfl, hus, ht, hvs⟩
    rw [← hlist, String.ofList_toList] at ht
    -- Places of sums and products demand no more than a sign.
    have houter : outer + 1 ≤ signLevel := by
      obtain ⟨-, rfl⟩ | ⟨-, rfl⟩ | ⟨rfl, -⟩ := operatorLevel?_cases hop
      · decide
      · decide
      · exact absurd rfl hpower
    have hne : (op == "^") = false := beq_eq_false_iff_ne.2 hpower
    refine hasLevel_binary hop (hus.mono ?_) ht (hvs.mono ?_) <;> rw [hne] <;> simp <;> omega

/-- Negative zero as a base is read as a sign in front of the power. -/
theorem spelledAs_power_of_isNegativeZero (hl : l.isNegativeZero = true) (hr : SpelledAs r b) :
    SpelledAs (.binary "^" l r) (.unary "-" (.binary "^" (.number (.real .zero)) b)) := by
  obtain ⟨rs, n, _, d, hd, hdb⟩ := hr
  obtain ⟨x, rfl, hlevel, htext⟩ := eq_of_isNegativeZero hl
  have hbase := rendered_real (x := .zero) (by decide) (by decide)
  obtain ⟨b', hb', hright⟩ := hd.operand powerLevel false
  have hpower : Spells Closed ((literalText .zero).toList ++
      ' ' :: '^' :: ' ' :: operandText powerLevel false n rs) fun ts =>
        IsSigned .formulas ts (.binary "^" (.number (.real .zero)) b') := by
    refine (hbase.spells.between (c := '^') rfl hright).mono (fun _ h => h) ?_
    rintro ts ⟨us, t, vs, rfl, hus, ht, hvs⟩
    exact .power (IsPower.power hus ht hvs)
  refine ⟨_, powerLevel, signLevel, _, ⟨?_, rfl, by decide, fun h => absurd h (Nat.lt_irrefl _),
    spells_sign (.inl rfl) hpower⟩, by simp only [key, hb', hdb]⟩
  have hbare (cs : List Char) : operandText powerLevel true atomLevel cs = cs :=
    if_neg (by decide)
  have hzero : (Formula.number (.real x)).chars = .ok ('-' :: (literalText .zero).toList) := by
    rw [chars, literal, Number.text?, htext, Except.map, String.toList_append]
    rfl
  refine (chars_binary rfl hzero hlevel hd.chars hd.level).trans ?_
  simp [hbare]

/-! ### Literals -/

theorem toString_of_neg {k : Int} (h : k < 0) : toString k = "-" ++ toString (-k) := by
  cases k with
  | ofNat n => cases h
  | negSucc n => rfl

theorem spelledAs_int {k : Int} (hk : k.natAbs < 10 ^ wholeDigitLimit) :
    SpelledAs (.number (.int k)) (literalReading (.int k)) := by
  have hlimit : (k.natAbs : Int) < 10 ^ wholeDigitLimit := by exact_mod_cast hk
  rw [literalReading]
  split
  · next hneg =>
    have hsize := rendered_int (k := -k) (by omega) (by omega)
    have hnegative : (Number.int k).isNegative = true := by
      simpa [Number.isNegative, Number.lt] using hneg
    refine .of_spells (n := signLevel) (chars_int hk) (level?_of_isNegative hnegative) ?_
    rw [toString_of_neg hneg, String.toList_append]
    exact spells_sign (.inl rfl) (hsize.spells.mono (fun _ h => h)
      fun ts hts => hts.mono (n := signLevel) (by decide))
  · exact (rendered_int (by omega) (by omega)).spelledAs

/-- An unsigned double is spelled by its digits, or by its name. -/
theorem spells_size (hnan : x.isNaN = false) (hs : x.signBit = false) :
    Spells Closed (literalText x).toList fun ts =>
      HasLevel .formulas atomLevel ts (sizeReading x) := by
  rw [sizeReading]
  split
  · next hinfinite =>
    have htext : literalText x = "inf" := by
      simp only [literalText, hnan, hinfinite, hs]
      rfl
    rw [htext]
    exact (rendered_variable (by decide) (by decide)).spells
  · next hfinite =>
    exact (rendered_real ((Binary64.isInfinite_or_isFinite hnan).resolve_left hfinite) hs).spells

theorem spelledAs_real (x : Binary64) :
    SpelledAs (.number (.real x)) (literalReading (.real x)) := by
  rw [literalReading]
  split
  · next hnan =>
    refine .of_spells rfl (level?_of_not_isNegative (by simp [isNegative_real_iff, hnan])) ?_
    rw [literalText, if_pos hnan]
    exact (rendered_variable (by decide) (by decide)).spells
  · next hnan =>
    rw [Bool.not_eq_true] at hnan
    split
    · next hs =>
      have hneg : x.neg.signBit = false := by rw [Binary64.signBit_neg, hs]; rfl
      have hspells : Spells Closed (literalText x).toList fun ts =>
          HasLevel .formulas signLevel ts (.unary "-" (sizeReading x.neg)) := by
        rw [literalText_of_signBit hnan hs, String.toList_append]
        exact spells_sign (.inl rfl) ((spells_size ((Binary64.isNaN_neg x).trans hnan) hneg).mono
          (fun _ h => h) fun ts hts => hts.mono (n := signLevel) (by decide))
      -- The text of negative zero is not taken for one with a sign.
      by_cases hzero : x.isZero = true
      · refine ⟨_, atomLevel, signLevel, _, ⟨rfl, level?_of_not_isNegative
          (by simp [isNegative_real_iff, hzero]), by decide, fun _ h => ?_, hspells⟩, rfl⟩
        simp [isNegativeZero, hs, hzero] at h
      · exact .of_spells rfl (level?_of_isNegative
          (by simp [isNegative_real_iff, hnan, hs, hzero])) hspells
    · next hs =>
      exact .of_spells rfl (level?_of_not_isNegative (by simp [isNegative_real_iff, hs]))
        (spells_size hnan (by simpa using hs))

theorem spelledAs_literal {n : Number}
    (h : ∀ k : Int, n = .int k → k.natAbs < 10 ^ wholeDigitLimit) :
    SpelledAs (.number n) (literalReading n) := by
  cases n with
  | int k => exact spelledAs_int (h k rfl)
  | real x => exact spelledAs_real x

/-! ### Calls -/

theorem spelledAs_arguments {args : List Formula} (h : ∀ a ∈ args, SpelledAs a a.reading) :
    ∃ cs ds, argsChars args = .ok cs ∧ ds.map key = args.map (fun a => a.reading.key) ∧
      Spells Closed cs fun ts => AreArguments .formulas ts ds := by
  induction args with
  | nil =>
      refine ⟨[], [], rfl, rfl, spells_nil.mono (fun _ h => h) ?_⟩
      rintro ts rfl
      exact .none
  | cons e es ih =>
      obtain ⟨⟨cs, _, _, d, hd, hkey⟩, hes⟩ := List.forall_mem_cons.1 h
      obtain ⟨rest, ds, hrest, hkeys, hspells⟩ := ih hes
      have hall : (d :: ds).map key = (e :: es).map fun a => a.reading.key := by
        rw [List.map_cons, List.map_cons, hkey, hkeys]
      cases es with
      | nil =>
          obtain rfl := List.map_eq_nil_iff.1 hkeys
          exact ⟨cs, [d], hd.chars, hall,
            hd.spells.mono (fun _ h => h) fun ts hts => .last hts.isSum⟩
      | cons e' es =>
          obtain ⟨d', ds, rfl, -⟩ := List.map_eq_cons_iff.1 hkeys
          refine ⟨cs ++ ',' :: ' ' :: rest, d :: d' :: ds, argsChars_cons hd.chars hrest,
            hall, ?_⟩
          refine (hd.spells.comma hspells).mono (fun _ h => h) ?_
          rintro ts ⟨us, t, vs, rfl, hus, ht, hvs⟩
          exact .more hus.isSum ht hvs

theorem spelledAs_call {f : String} {g : Function} {args : List Formula}
    (hf : Function.ofName? f = some g) (hlength : args.length = g.arity)
    (h : ∀ a ∈ args, SpelledAs a a.reading) :
    SpelledAs (.call f args) (.call f (args.map reading)) := by
  obtain ⟨cs, ds, hcs, hkeys, hspells⟩ := spelledAs_arguments h
  have hds : ds.length = args.length := by simpa using congrArg List.length hkeys
  refine SpelledAs.congr (a := .call f ds) (.of_spells (n := atomLevel) (chars_call hcs) rfl ?_)
    (by simp [key, hkeys])
  refine (Spells.call (isName_of_ofName? hf) hspells).mono (fun _ h => h) ?_
  rintro ts ⟨t, p, us, q, rfl, hkind, rfl, hp, hus, hq⟩
  have haccepts : Signature.formulas.Accepts t.text ds.length :=
    accepts_formulas_iff.2 ⟨g, hf, (hds.trans hlength).symm⟩
  exact hasLevel_of_isAtom (.call hkind hp hus hq haccepts) _

/-! ### Reading what is written -/

/-- What the nodes of a formula are for its text to be readable at all: as for a formula that is
read as itself, but with any literals. -/
def Legible : Formula → Prop
  | .number _ => True
  | e => Spellable e

instance : DecidablePred Legible
  | .number _ => inferInstanceAs (Decidable True)
  | .constant c => inferInstanceAs (Decidable (Spellable (.constant c)))
  | .variable x => inferInstanceAs (Decidable (Spellable (.variable x)))
  | .group e => inferInstanceAs (Decidable (Spellable (.group e)))
  | .unary op e => inferInstanceAs (Decidable (Spellable (.unary op e)))
  | .binary op l r => inferInstanceAs (Decidable (Spellable (.binary op l r)))
  | .call f args => inferInstanceAs (Decidable (Spellable (.call f args)))

theorem spelledAs_reading (he : e.Everywhere Legible)
    (hwhole : ∀ k : Int, .int k ∈ e.literals → k.natAbs < 10 ^ wholeDigitLimit) :
    SpelledAs e e.reading := by
  induction e with
  | number n =>
      exact spelledAs_literal fun k hk => hwhole k (by simp [literals, hk])
  | constant c => exact (rendered_constant ((everywhere_iff _ _).1 he).1).spelledAs
  | var x =>
      obtain ⟨hname, hx⟩ := ((everywhere_iff _ _).1 he).1
      exact (rendered_variable hname hx).spelledAs
  | group e ih =>
      exact spelledAs_group (ih (((everywhere_iff _ _).1 he).2 e (by simp [children])) hwhole)
  | unary op e ih =>
      obtain ⟨hop, hpart⟩ := (everywhere_iff _ _).1 he
      exact spelledAs_unary (unarySymbol_cases hop) (ih (hpart e (by simp [children])) hwhole)
  | binary op l r ihl ihr =>
      obtain ⟨hop, hparts⟩ := (everywhere_iff _ _).1 he
      obtain ⟨outer, houter⟩ := exists_operatorLevel hop
      have hl := ihl (hparts l (by simp [children]))
        fun k hk => hwhole k (List.mem_append_left _ hk)
      have hr := ihr (hparts r (by simp [children]))
        fun k hk => hwhole k (List.mem_append_right _ hk)
      rw [reading]
      split
      · next h =>
        obtain ⟨rfl, hzero⟩ := h
        exact spelledAs_power_of_isNegativeZero hzero hr
      · next h =>
        exact spelledAs_binary houter hl hr fun hpower => by simpa [hpower] using h
  | call f args ih =>
      obtain ⟨hf, hargs⟩ := (everywhere_iff _ _).1 he
      obtain ⟨g, hg, harity⟩ := Option.map_eq_some_iff.1 hf
      rw [reading, readingAll_eq]
      refine spelledAs_call hg harity.symm fun a ha => ih a ha (hargs a ha) fun k hk => hwhole k ?_
      rw [literals, literalsAll_eq]
      exact List.mem_flatMap.2 ⟨a, ha, hk⟩

/-- A formula is read back as another one. -/
def ReadBack (e d : Formula) : Prop := ∃ s, e.write = .ok s ∧ parse s = .ok d

theorem ReadBack.unique (h : e.ReadBack a) (h' : e.ReadBack b) : a = b := by
  obtain ⟨s, hs, ha⟩ := h
  obtain ⟨t, ht, hb⟩ := h'
  obtain rfl : s = t := Except.ok.inj (hs.symm.trans ht)
  exact Except.ok.inj (ha.symm.trans hb)

/-- The text of a formula is read, up to groups, as the formula that its signs make of it. -/
theorem exists_readBack (he : e.Everywhere Legible)
    (hwhole : ∀ k : Int, .int k ∈ e.literals → k.natAbs < 10 ^ wholeDigitLimit) :
    ∃ d, e.ReadBack d ∧ d.key = e.reading.key := by
  obtain ⟨cs, n, m, d, hd, hkey⟩ := spelledAs_reading he hwhole
  exact ⟨d, ⟨String.ofList cs, by rw [write, hd.chars, Except.map], parse_of_spells hd.spells⟩,
    hkey⟩

end Gantry.Formula
