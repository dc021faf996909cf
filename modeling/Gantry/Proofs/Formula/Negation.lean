import Gantry.Proofs.Formula.Holding
import Gantry.Proofs.Formula.Signs

/-!
The values of formulas that are written and read again. A literal below zero comes back as the
negation of its size. For doubles that is the literal; for whole numbers it is the literal in a
signed word, unless the size takes an unsigned word, in which negation wraps. A power of negative
zero comes back as the negation of a power.
-/

namespace Gantry

/-- Literals that are read as what they are: finite ones, unless they are whole and the negation
of their size wraps. -/
def Number.Mirrors : Number → Prop
  | .int k => ¬(-Whole.unsignedEnd < k ∧ k ≤ -Whole.signedEnd)
  | .real x => x.isFinite = true

instance : DecidablePred Number.Mirrors
  | .int _ => inferInstanceAs (Decidable ¬(_ ∧ _))
  | .real _ => inferInstanceAs (Decidable (_ = _))

/-- Whole numbers that fit an unsigned word and no signed one. -/
def Number.isUnsigned : Number → Bool
  | .int k => Whole.isUnsigned k
  | .real _ => false

theorem Number.Mirrors.settled {n : Number} (h : n.Mirrors) (hn : n.isUnsigned = false) :
    n.Settled := by
  cases n with
  | real x => trivial
  | int k =>
      have hends : Whole.signedEnd = 2 ^ 63 ∧ Whole.unsignedEnd = 2 ^ 64 := ⟨rfl, rfl⟩
      simp only [Mirrors, isUnsigned, Settled, Whole.isUnsigned, Whole.isSigned,
        Bool.and_eq_true, Bool.and_eq_false_iff, decide_eq_true_eq, decide_eq_false_iff_not] at *
      omega

namespace Formula

variable {e : Formula} {s : Scope} {n : Number} {x y : Except EvalFailure Operand}

/-! ### Literals -/

/-- A whole literal below zero, in parentheses or not. -/
def isNegativeWhole : Formula → Bool
  | .number (.int k) => decide (k < 0)
  | .group e => e.isNegativeWhole
  | _ => false

theorem evaluate_minus_number : (unary "-" (number n)).evaluate s =
    .ok (some (UnaryOp.neg.onQuantity (.given n))) := rfl

/-- A whole number below zero, as the negation of its size. -/
theorem recast_neg {k : Int} (hk : k < 0) (h : (Number.int k).Mirrors) :
    Recast (some (.given (.int k))) (some (UnaryOp.neg.onQuantity (.given (.int (-k))))) := by
  have hends : Whole.signedEnd = 2 ^ 63 ∧ Whole.unsignedEnd = 2 ^ 64 := ⟨rfl, rfl⟩
  rw [UnaryOp.onQuantity, Quantity.map]
  by_cases hsigned : Whole.isSigned (-k) = true
  · refine .inr ⟨k, ?_, rfl, ?_⟩
    · simp only [Whole.isSigned, Bool.and_eq_true, decide_eq_true_eq, Number.Mirrors] at *
      omega
    · rw [if_pos hsigned, Int64.ofInt_neg, Int64.neg_neg]
  · have hunsigned : ¬Whole.isUnsigned (-k) = true := by
      simp only [Whole.isSigned, Whole.isUnsigned, Bool.and_eq_true, decide_eq_true_eq,
        Number.Mirrors] at *
      omega
    rw [if_neg hsigned, if_neg hunsigned, Int.neg_neg]
    exact .refl _

/-- What the text of a literal is read as has the value of the literal. -/
theorem exists_recast_literalReading (h : n.Mirrors) : ∃ b,
    (literalReading n).evaluate s = .ok b ∧ Recast (some (.given n)) b ∧
      ((number n).isNegativeWhole = false → b = some (.given n)) := by
  cases n with
  | int k =>
      rw [literalReading]
      split
      · next hneg =>
        refine ⟨_, evaluate_minus_number, recast_neg hneg h, fun hnot => ?_⟩
        simp [isNegativeWhole, hneg] at hnot
      · exact ⟨_, rfl, .refl _, fun _ => rfl⟩
  | real x =>
      have hx : x.isFinite = true := h
      have hsize (y : Binary64) (hy : y.isFinite = true) : sizeReading y = number (.real y) := by
        simp [sizeReading, Binary64.isInfinite_eq_false_of_isFinite hy]
      rw [literalReading, Binary64.isNaN_eq_false_of_isFinite hx, if_neg Bool.false_ne_true]
      split
      · have hback : UnaryOp.neg.onQuantity (.given (.real x.neg)) = .real x := by
          rw [UnaryOp.onQuantity, Quantity.map, Binary64.neg_neg]
        rw [hsize _ ((Binary64.isFinite_neg x).trans hx), evaluate_minus_number, hback]
        exact ⟨_, rfl, .refl _, fun _ => rfl⟩
      · rw [hsize x hx]
        exact ⟨_, rfl, .refl _, fun _ => rfl⟩

/-! ### Formulas -/

/-- No power of the literal negative zero. -/
def PlainBase : Formula → Prop
  | .binary op l _ => op = "^" → l.isNegativeZero = false
  | _ => True

instance : DecidablePred PlainBase
  | .number _ => inferInstanceAs (Decidable True)
  | .constant _ => inferInstanceAs (Decidable True)
  | .variable _ => inferInstanceAs (Decidable True)
  | .group _ => inferInstanceAs (Decidable True)
  | .unary _ _ => inferInstanceAs (Decidable True)
  | .binary _ _ _ => inferInstanceAs (Decidable (_ → _))
  | .call _ _ => inferInstanceAs (Decidable True)

/-- Sums, differences, products and extrema, which are computed in words. -/
def joinsWords : Formula → Bool
  | .binary op _ _ => (BinaryOp.ofSymbol? op).any BinaryOp.joinsWords
  | .call f _ => (Function.ofName? f).any Function.joinsWords
  | _ => false

/-- No whole literal below zero is joined to a part with a literal that takes an unsigned word. -/
def Apart (e : Formula) : Prop :=
  e.joinsWords = true → (∃ a ∈ e.children, a.isNegativeWhole = true) →
    ∀ n ∈ e.literals, n.isUnsigned = false

instance : DecidablePred Apart := fun _ => inferInstanceAs (Decidable (_ → _ → _))

/-- Outcomes that are the same but for words. -/
def RecastOutcome (x y : Except EvalFailure Operand) : Prop :=
  (∃ a b, x = .ok a ∧ y = .ok b ∧ Recast a b) ∨ ∃ f, x = .error f ∧ y = .error f

theorem RecastOutcome.of_eq (h : x = y) : RecastOutcome x y := by
  subst h
  cases x with
  | error f => exact .inr ⟨f, rfl, rfl⟩
  | ok a => exact .inl ⟨a, a, rfl, rfl, .refl a⟩

theorem RecastOutcome.value_eq (h : RecastOutcome x y) :
    x.map Operand.value = y.map Operand.value := by
  obtain ⟨a, b, rfl, rfl, hab⟩ | ⟨f, rfl, rfl⟩ := h
  · exact congrArg Except.ok hab.value_eq
  · rfl

theorem notUnsigned_of_recast {a b : Operand} (h : Recast a b) (ha : a.NotUnsigned) :
    b.NotUnsigned := by
  obtain rfl | ⟨k, -, -, rfl⟩ := h
  · exact ha
  · rintro w ⟨⟩

/-- The lists of values that outcomes come to. -/
theorem evaluateAllIn_cases {M : Meaning} {as : List Formula} {f : Formula → Formula}
    (h : ∀ a ∈ as, RecastOutcome (a.evaluateIn M s) ((f a).evaluateIn M s)) :
    (∃ g, evaluateAllIn M s as = .error g ∧ evaluateAllIn M s (as.map f) = .error g) ∨
      ∃ vs ws, evaluateAllIn M s as = .ok vs ∧ evaluateAllIn M s (as.map f) = .ok ws ∧
        List.Forall₂ Recast vs ws := by
  induction as with
  | nil => exact .inr ⟨[], [], rfl, rfl, .nil⟩
  | cons a as ih =>
      obtain ⟨ha, has⟩ := List.forall_mem_cons.1 h
      rw [List.map_cons, evaluateAllIn, evaluateAllIn]
      obtain ⟨v, w, hv, hw, hvw⟩ | ⟨g, hv, hw⟩ := ha
      · rw [hv, hw]
        obtain ⟨g, hvs, hws⟩ | ⟨vs, ws, hvs, hws, hall⟩ := ih has
        · rw [hvs, hws]
          exact .inl ⟨g, rfl, rfl⟩
        · rw [hvs, hws]
          exact .inr ⟨v :: vs, w :: ws, rfl, rfl, .cons hvw hall⟩
      · rw [hv, hw]
        exact .inl ⟨g, rfl, rfl⟩

/-- What a formula needs in a scope to keep its values when it is written and read again. -/
structure Mild (s : Scope) (e : Formula) : Prop where
  literals : ∀ n ∈ e.literals, n.Mirrors
  bases : e.Everywhere PlainBase
  apart : e.Everywhere Apart
  scope : ∀ x ∈ e.occurrences, ∀ v, s[x]? = some v → Operand.Settled v

theorem isTrivial_of_mem_children {a : Formula} (ha : a ∈ e.children) : e.isTrivial = false := by
  cases e <;> simp_all [children, isTrivial]

namespace Mild

variable {a : Formula} (h : Mild s e) (ha : a ∈ e.children)

include h ha

theorem child : Mild s a where
  literals n hn :=
    h.literals n ((mem_literals_iff_children (isTrivial_of_mem_children ha) n).2 ⟨a, ha, hn⟩)
  bases := ((everywhere_iff _ _).1 h.bases).2 a ha
  apart := ((everywhere_iff _ _).1 h.apart).2 a ha
  scope x hx :=
    h.scope x ((mem_occurrences_iff_children (isTrivial_of_mem_children ha) x).2 ⟨a, ha, hx⟩)

/-- Next to a whole literal below zero nothing is in an unsigned word. -/
theorem notUnsigned (hjoins : e.joinsWords = true)
    (hnegative : ∃ b ∈ e.children, b.isNegativeWhole = true) {v : Operand}
    (hv : a.evaluate s = .ok v) : v.NotUnsigned := by
  have hunsigned := ((everywhere_iff _ _).1 h.apart).1 hjoins hnegative
  have hliterals : ∀ n ∈ a.literals, n.Settled := fun n hn =>
    ((h.child ha).literals n hn).settled (hunsigned n
      ((mem_literals_iff_children (isTrivial_of_mem_children ha) n).2 ⟨a, ha, hn⟩))
  exact (settled_of_evaluate hliterals (h.child ha).scope hv).notUnsigned

end Mild

/-- The text of a formula is read as one of the same value, and in the same words unless it is a
literal. -/
structure Recasts (s : Scope) (e : Formula) : Prop where
  outcome : RecastOutcome (e.evaluate s) (e.reading.evaluate s)
  same : e.isNegativeWhole = false → e.evaluate s = e.reading.evaluate s

theorem Recasts.of_eq (h : e.evaluate s = e.reading.evaluate s) : Recasts s e :=
  ⟨.of_eq h, fun _ => h⟩

theorem recasts_number (h : n.Mirrors) : Recasts s (number n) := by
  obtain ⟨b, hb, hrecast, hplain⟩ := exists_recast_literalReading (s := s) h
  exact ⟨.inl ⟨_, b, rfl, hb, hrecast⟩, fun hnot => by rw [reading, hb, hplain hnot]; rfl⟩

theorem Recasts.unary (he : Recasts s e) (op : String) : Recasts s (unary op e) := by
  obtain ⟨he, -⟩ := he
  refine .of_eq ?_
  rw [evaluate, evaluate, reading, evaluateIn, evaluateIn]
  cases UnaryOp.ofSymbol? op with
  | none => rfl
  | some o =>
      unfold evaluate at he
      obtain ⟨a, b, ha, hb, hab⟩ | ⟨f, ha, hb⟩ := he
      · simp only [ha, hb, bind, Except.bind, o.apply_recast hab]
      · simp only [ha, hb, bind, Except.bind]

section Joins

variable {op f : String} {l r : Formula} {args : List Formula}

/-- Operands that are recast are combined to the same value, as they are the same or in no
unsigned word. -/
theorem Mild.apply_eq (h : Mild s (binary op l r)) (hl : Recasts s l) (hr : Recasts s r)
    {o : BinaryOp} (hop : BinaryOp.ofSymbol? op = some o) {a a' b b' : Operand}
    (ha : l.evaluate s = .ok a) (ha' : l.reading.evaluate s = .ok a') (haa : Recast a a')
    (hb : r.evaluate s = .ok b) (hb' : r.reading.evaluate s = .ok b') (hbb : Recast b b') :
    o.apply a b = o.apply a' b' := by
  refine o.apply_recast haa hbb fun hjoins => ?_
  by_cases hneg : l.isNegativeWhole = true ∨ r.isNegativeWhole = true
  · have hclear {c : Formula} (hc : c ∈ (binary op l r).children) {v : Operand}
        (hv : c.evaluate s = .ok v) : v.NotUnsigned :=
      h.notUnsigned hc (by simpa [joinsWords, hop] using hjoins) (by simpa [children] using hneg) hv
    exact .inr ⟨notUnsigned_of_recast haa (hclear (by simp [children]) ha),
      hclear (by simp [children]) hb⟩
  · simp only [not_or, Bool.not_eq_true] at hneg
    exact .inl ⟨Except.ok.inj (ha.symm.trans ((hl.same hneg.1).trans ha')),
      Except.ok.inj (hb.symm.trans ((hr.same hneg.2).trans hb'))⟩

theorem Mild.binary (h : Mild s (binary op l r)) (hl : Recasts s l) (hr : Recasts s r) :
    Recasts s (binary op l r) := by
  have hplain : ¬(op = "^" ∧ l.isNegativeZero = true) := fun hpower =>
    Bool.false_ne_true ((((everywhere_iff _ _).1 h.bases).1 hpower.1).symm.trans hpower.2)
  have hvalue (c : Formula) : c.evaluateIn Meaning.direct s = c.evaluate s := rfl
  refine .of_eq ?_
  rw [reading, if_neg hplain, evaluate, evaluate, evaluateIn, evaluateIn]
  simp only [hvalue]
  cases hop : BinaryOp.ofSymbol? op with
  | none => rfl
  | some o =>
      obtain ⟨a, a', ha, ha', haa⟩ | ⟨f, ha, ha'⟩ := hl.outcome
      · obtain ⟨b, b', hb, hb', hbb⟩ | ⟨f, hb, hb'⟩ := hr.outcome
        · have happly := h.apply_eq hl hr hop ha ha' haa hb hb' hbb
          simp only [ha, ha', hb, hb', bind, Except.bind, happly]
        · simp only [ha, ha', hb, hb', bind, Except.bind]
      · simp only [ha, ha', bind, Except.bind]

/-- The same for arguments. -/
theorem Mild.applyAll_eq (h : Mild s (call f args)) (hargs : ∀ a ∈ args, Recasts s a)
    {g : Function} (hf : Function.ofName? f = some g) {vs ws : List Operand}
    (hvs : evaluateAllIn Meaning.direct s args = .ok vs)
    (hws : evaluateAllIn Meaning.direct s (args.map reading) = .ok ws)
    (hall : List.Forall₂ Recast vs ws) : g.apply vs = g.apply ws := by
  refine g.apply_recast hall fun hjoins => ?_
  by_cases hneg : ∃ a ∈ args, a.isNegativeWhole = true
  · have hv : ∀ v ∈ vs, Operand.NotUnsigned v := fun v hv => by
      obtain ⟨i, hi, rfl⟩ := List.getElem_of_mem hv
      have hvalues := evaluateAllIn_eq_ok_iff.1 hvs
      have hi' : i < args.length := hvalues.length_eq ▸ hi
      exact h.notUnsigned (List.getElem_mem hi') (by simpa [joinsWords, hf] using hjoins) hneg
        (hvalues.get hi' hi)
    refine .inr ⟨hv, fun w hw => ?_⟩
    obtain ⟨i, hi, rfl⟩ := List.getElem_of_mem hw
    have hi' : i < vs.length := hall.length_eq ▸ hi
    exact notUnsigned_of_recast (hall.get hi' hi) (hv _ (List.getElem_mem hi'))
  · simp only [not_exists, not_and, Bool.not_eq_true] at hneg
    have heq : evaluateAllIn Meaning.direct s args =
        evaluateAllIn Meaning.direct s (args.map reading) :=
      evaluateAllIn_congr (List.forall₂_map_right_iff.2 (List.forall₂_same.2
        fun a ha => (hargs a ha).same (hneg a ha)))
    exact .inl (Except.ok.inj (hvs.symm.trans (heq.trans hws)))

theorem Mild.call (h : Mild s (call f args)) (hargs : ∀ a ∈ args, Recasts s a) :
    Recasts s (call f args) := by
  refine .of_eq ?_
  simp only [reading, readingAll_eq, evaluate, evaluateIn]
  cases hf : Function.ofName? f with
  | none => simp only [Meaning.direct, hf, bind, Except.bind]
  | some g =>
      have hfunction : Meaning.direct.function f = .ok g := by simp [Meaning.direct, hf]
      obtain ⟨e, hvs, hws⟩ | ⟨vs, ws, hvs, hws, hall⟩ :=
        evaluateAllIn_cases fun a ha => (hargs a ha).outcome
      · simp only [hfunction, hvs, hws, bind, Except.bind]
      · simp only [hfunction, hvs, hws, bind, Except.bind, h.applyAll_eq hargs hf hvs hws hall]

end Joins

theorem Mild.recasts (h : Mild s e) : Recasts s e := by
  induction e with
  | number n => exact recasts_number (h.literals n (by simp [Formula.literals]))
  | constant c => exact .of_eq rfl
  | var x => exact .of_eq rfl
  | group e ih =>
      have he := ih (h.child (by simp [children]))
      exact ⟨he.outcome, he.same⟩
  | unary op e ih => exact (ih (h.child (by simp [children]))).unary op
  | binary op l r ihl ihr =>
      exact h.binary (ihl (h.child (by simp [children]))) (ihr (h.child (by simp [children])))
  | call f args ih => exact h.call fun a ha => ih a ha (h.child ha)

/-- A formula with literals of either sign keeps its values when it is written and read again, and
where it has none it fails alike, in every scope of doubles and of whole numbers that take no
unsigned word. -/
theorem evaluate_readBack (he : e.Everywhere Legible)
    (hwhole : ∀ k : Int, .int k ∈ e.literals → k.natAbs < 10 ^ wholeDigitLimit)
    (hliterals : ∀ n ∈ e.literals, n.Mirrors) (hbases : e.Everywhere PlainBase)
    (hapart : e.Everywhere Apart) :
    ∃ d, e.ReadBack d ∧ ∀ s : Scope,
      (∀ x ∈ e.occurrences, ∀ v, s[x]? = some v → Operand.Settled v) →
        (d.evaluate s).map Operand.value = (e.evaluate s).map Operand.value := by
  obtain ⟨d, hd, hkey⟩ := exists_readBack he hwhole
  refine ⟨d, hd, fun s hs => ?_⟩
  rw [evaluate_eq_of_key_eq hkey]
  exact (Mild.recasts ⟨hliterals, hbases, hapart, hs⟩).outcome.value_eq.symm

/-- A base below zero, and negative zero as a factor. -/
def recoil : Formula :=
  .binary "-" (.binary "^" (.number (.int (-2))) (.variable "x"))
    (.binary "*" (.number (.real Binary64.zero.neg)) (.number (.real ⟨0xbff8000000000000⟩)))

def recoilScope : Scope := ({} : Scope).insert "x" (some (.real Binary64.half))

theorem evaluate_readBack_recoil : recoil.Everywhere Legible ∧
    (∀ k : Int, .int k ∈ recoil.literals → k.natAbs < 10 ^ wholeDigitLimit) ∧
      (∀ n ∈ recoil.literals, n.Mirrors) ∧ recoil.Everywhere PlainBase ∧
        recoil.Everywhere Apart ∧ ∃ d, recoil.ReadBack d ∧
          (d.evaluate recoilScope).map Operand.value =
            (recoil.evaluate recoilScope).map Operand.value := by
  have hlegible : recoil.Everywhere Legible := by
    unfold Everywhere
    decide
  have hwhole : ∀ k : Int, .int k ∈ recoil.literals → k.natAbs < 10 ^ wholeDigitLimit := by
    intro k hk
    obtain rfl : k = -2 := by simpa [recoil, literals] using hk
    exact lt_of_lt_of_le (by decide : 2 < 10 ^ 1) (Nat.pow_le_pow_right (by decide) (by decide))
  have hliterals : ∀ n ∈ recoil.literals, n.Mirrors := by decide
  have hbases : recoil.Everywhere PlainBase := by
    unfold Everywhere
    decide
  have hapart : recoil.Everywhere Apart := by
    unfold Everywhere
    decide
  obtain ⟨d, hd, hvalues⟩ := evaluate_readBack hlegible hwhole hliterals hbases hapart
  refine ⟨hlegible, hwhole, hliterals, hbases, hapart, d, hd, hvalues recoilScope ?_⟩
  intro x hx v hv
  obtain rfl : x = "x" := by simpa [recoil, occurrences] using hx
  obtain rfl : some (.real Binary64.half) = v := by simpa [recoilScope] using hv
  exact Operand.settled_some.2 trivial

example : recoil.write = .ok "(-2) ^ x - -0.0 * -1.5" := by decide +kernel

/-! ### Literals, powers and sums that do not come back -/

/-- A whole literal whose size is one of an unsigned word and of no signed one comes back as the
negation that wraps. -/
theorem evaluate_readBack_wrapped {k : Int} (hlow : -Whole.unsignedEnd < k)
    (hhigh : k ≤ -Whole.signedEnd) : ∃ d, (number (.int k)).ReadBack d ∧
      ∀ s : Scope, d.evaluate s = .ok (some (.unsigned (-UInt64.ofNat k.natAbs))) := by
  have hends : Whole.signedEnd = 2 ^ 63 ∧ Whole.unsignedEnd = 2 ^ 64 := ⟨rfl, rfl⟩
  have hlegible : (number (.int k)).Everywhere Legible :=
    (everywhere_iff _ _).2 ⟨trivial, by simp [children]⟩
  have hwhole (j : Int) (hj : .int j ∈ (number (.int k)).literals) :
      j.natAbs < 10 ^ wholeDigitLimit := by
    obtain rfl : j = k := by simpa [literals] using hj
    have hlimit : 10 ^ 20 ≤ 10 ^ wholeDigitLimit := Nat.pow_le_pow_right (by decide) (by decide)
    omega
  have hplain : ¬Whole.isSigned (-k) = true := by
    simp only [Whole.isSigned, Bool.and_eq_true, decide_eq_true_eq]
    omega
  have hunsigned : Whole.isUnsigned (-k) = true := by
    simp only [Whole.isUnsigned, Bool.and_eq_true, decide_eq_true_eq]
    omega
  have hsize : (-k).toNat = k.natAbs := by omega
  obtain ⟨d, hd, hkey⟩ := exists_readBack hlegible hwhole
  refine ⟨d, hd, fun s => (evaluate_eq_of_key_eq hkey).trans ?_⟩
  rw [reading, literalReading, if_pos (by omega), evaluate_minus_number, UnaryOp.onQuantity,
    Quantity.map, if_neg hplain, if_pos hunsigned, hsize]

/-- Negative zero to the power zero. -/
def zeroPower : Formula :=
  .binary "^" (.number (.real Binary64.zero.neg)) (.number (.int 0))

example : zeroPower.write = .ok "-0.0 ^ 0" := by decide +kernel

/-- A sum of an unsigned word and a literal below zero. -/
def mixedSum : Formula :=
  .binary "+" (.unary "+" (.number (.int Whole.signedEnd))) (.number (.int (-1)))

example : mixedSum.write = .ok "+9223372036854775808 + -1" := by decide +kernel

/-- Not every literal below zero comes back as what it is; a power of negative zero comes back as
the negation of a power of zero; and a sum that fails, as an unsigned word takes no number below
zero, comes back as one that does not. -/
theorem not_evaluate_readBack :
    (¬∀ e : Formula, e.Everywhere Legible →
      (∀ k : Int, .int k ∈ e.literals → k.natAbs < 10 ^ wholeDigitLimit) →
      (∀ n ∈ e.literals, n.isFinite = true) →
      ∃ d, e.ReadBack d ∧
        (d.evaluate ∅).map Operand.value = (e.evaluate ∅).map Operand.value) ∧
    (∃ d, zeroPower.ReadBack d ∧
      d.evaluate ∅ = .ok (some (.real (Binary64.zero.pow Binary64.zero).neg)) ∧
        zeroPower.evaluate ∅ = .ok (some (.real (Binary64.zero.neg.pow Binary64.zero)))) ∧
    ∃ d, mixedSum.ReadBack d ∧ d.evaluate ∅ = .ok (some (.real (Binary64.ofInt (2 ^ 63 - 1)))) ∧
      mixedSum.evaluate ∅ = .error (.operand .overflow) := by
  have hlimit : 10 ^ 20 ≤ 10 ^ wholeDigitLimit := Nat.pow_le_pow_right (by decide) (by decide)
  refine ⟨fun h => ?_, ?_, ?_⟩
  · obtain ⟨d, hd, hvalues⟩ := h (number (.int (-Whole.signedEnd)))
      ((everywhere_iff _ _).2 ⟨trivial, by simp [children]⟩)
      (by simp [literals, Whole.signedEnd]; omega) (by simp [literals, Number.isFinite])
    obtain ⟨d', hd', hwrapped⟩ :=
      evaluate_readBack_wrapped (k := -Whole.signedEnd) (by decide) (by decide)
    obtain rfl := hd.unique hd'
    rw [hwrapped ∅] at hvalues
    revert hvalues
    decide
  · have hlegible : zeroPower.Everywhere Legible := by
      unfold Everywhere
      decide
    obtain ⟨d, hd, hkey⟩ := exists_readBack hlegible (by simp [zeroPower, literals])
    exact ⟨d, hd, evaluate_eq_of_key_eq hkey, rfl⟩
  · have hlegible : mixedSum.Everywhere Legible := by
      unfold Everywhere
      decide
    obtain ⟨d, hd, hkey⟩ := exists_readBack hlegible
      (by simp [mixedSum, literals, Whole.signedEnd]; omega)
    refine ⟨d, hd, (evaluate_eq_of_key_eq hkey).trans ?_, ?_⟩
    · decide +kernel
    · decide +kernel

end Formula

end Gantry
