import Gantry.Proofs.Code.Reading

/-!
The listing of a formula is read as code that has the meaning of the formula in
compiled evaluators: names are found in the table of names just if formulas know
them, arguments stand in their order, and literals come back as they were.
-/

namespace Gantry

variable {f c : String} {s : Scope}

/-! ### The table of names -/

theorem lookup_map {α β γ : Type} [BEq α] [LawfulBEq α] {g : α → α}
    (hg : ∀ a b, g a = g b → a = b) (h : β → γ) (entries : List (α × β)) (a : α) :
    (entries.map fun entry => (g entry.1, h entry.2)).lookup (g a) = (entries.lookup a).map h := by
  induction entries with
  | nil => rfl
  | cons entry entries ih =>
      obtain ⟨b, v⟩ := entry
      rw [List.map_cons, List.lookup_cons, List.lookup_cons]
      by_cases hab : a = b
      · subst hab
        simp
      · simp only [beq_eq_false_iff_ne.2 hab, beq_eq_false_iff_ne.2 fun heq => hab (hg _ _ heq)]
        exact ih

namespace Global

theorem ofName?_unary (op : UnaryOp) : ofName? op.callName = some (.unary op) := by
  cases op <;> rfl

theorem ofName?_binary (op : BinaryOp) : ofName? op.callName = some (.binary op) := by
  cases op <;> rfl

/-- No name of a list is one with a given beginning. -/
theorem lookup_eq_none_of_take {entries : List (String × Global)} {x : String} {start : List Char}
    (hx : x.toList.take start.length = start)
    (hall : ∀ entry ∈ entries, entry.1.toList.take start.length ≠ start) :
    entries.lookup x = none := by
  rw [List.lookup_eq_none_iff]
  intro entry hentry
  rw [bne_iff_ne]
  rintro rfl
  exact hall entry hentry hx

theorem ofName?_functionName (f : String) :
    ofName? (functionName f) = (Function.ofName? f).map .function := by
  have hinjective (a b : String) (h : functionName a = functionName b) : a = b :=
    String.append_right_inj _ |>.1 h
  have hstart : (functionName f).toList.take ['_', 'f'].length = ['_', 'f'] := by
    rw [functionName, String.toList_append]
    rfl
  rw [ofName?, byName, List.lookup_append, List.lookup_append, List.lookup_append,
    lookup_eq_none_of_take hstart (by decide), lookup_eq_none_of_take hstart (by decide),
    lookup_map hinjective, lookup_eq_none_of_take hstart (by decide), Option.none_or,
    Option.none_or, Option.or_none]
  rfl

theorem ofName?_constantName (c : String) :
    ofName? (constantName c) = (constant? c).map .constant := by
  have hinjective {a b : String} : constantName a = constantName b ↔ a = b :=
    String.append_right_inj _
  have hstart : (constantName c).toList.take ['_', 'c'].length = ['_', 'c'] := by
    rw [constantName, String.toList_append]
    rfl
  rw [ofName?, byName, List.lookup_append, List.lookup_append, List.lookup_append,
    lookup_eq_none_of_take hstart (by decide), lookup_eq_none_of_take hstart (by decide),
    lookup_eq_none_of_take hstart (by decide), Option.none_or, Option.none_or, Option.none_or]
  by_cases hpi : c = "pi"
  · rw [hpi]
    rfl
  · by_cases he : c = "E"
    · rw [he]
      rfl
    · have hnone : constant? c = none := by
        unfold constant?
        split <;> simp_all
      rw [hnone, Option.map_none, List.lookup_eq_none_iff]
      simp [constant?, hinjective, hpi, he]

end Global

/-! ### Literals -/

namespace Code

open Decimal Formula

variable {cs : List Char} {result : Except EvalFailure Operand} {x : Binary64}

/-- A text is read as code that has no brackets and comes to the same in every scope. -/
def Yields (cs : List Char) (result : Except EvalFailure Operand) : Prop :=
  ∃ c : Code, Reads cs c ∧ c.nesting = 0 ∧ ∀ s, c.evaluate s = result

theorem yields_numeral {n : Numeral} {v : Number}
    (hv : numberValue? (String.ofList n.chars) = some v) :
    Yields n.chars (.ok (some (.given v))) :=
  ⟨.literal v, reads_numeral hv, rfl, fun _ => rfl⟩

theorem Yields.minus (h : Yields cs result) : Yields ('-' :: cs) (do
    let a ← result
    a.minus.mapError .operand) := by
  obtain ⟨c, hreads, hnesting, hvalue⟩ := h
  exact ⟨.minus c, hreads.minus, hnesting, fun s => by rw [evaluate, hvalue]⟩

theorem yields_undefined {x : String} (hx : isName x = true) (hnone : Global.ofName? x = none) :
    Yields x.toList (.error (.undefined x)) :=
  ⟨.name x, reads_name hx, rfl, fun s => by rw [evaluate, hnone]⟩

theorem yields_int {k : Int} (hk : k.natAbs < 10 ^ wholeDigitLimit) :
    Yields (toString k).toList (.ok (some (.given (.int k)))) := by
  have hwhole (k : Nat) (hk : k < 10 ^ wholeDigitLimit) :
      Yields (toString (k : Int)).toList (.ok (some (.given (.int k)))) := by
    obtain ⟨n, hchars, hvalue⟩ := exists_numeral_whole k
    rw [if_pos hk] at hvalue
    exact hchars ▸ yields_numeral hvalue
  by_cases hneg : k < 0
  · have hsize := (hwhole k.natAbs hk).minus
    have hnatAbs : (k.natAbs : Int) = -k := by omega
    rw [hnatAbs] at hsize
    rw [toString_of_neg hneg, String.toList_append]
    simpa [Operand.minus, bind, Except.bind, Except.mapError] using hsize
  · have hnatAbs : (k.natAbs : Int) = k := by omega
    exact hnatAbs ▸ hwhole k.natAbs hk

theorem literalText_abs_of_isInfinite (hx : x.isInfinite = true) : literalText x.abs = "inf" := by
  have hmagnitude : x.magnitude = Binary64.infinity.magnitude := beq_iff_eq.1 hx
  rw [Binary64.abs_eq_of_magnitude hmagnitude]
  decide

theorem literalText_of_isInfinite (hx : x.isInfinite = true) (hs : x.signBit = false) :
    literalText x = "inf" := by
  have hnan : x.isNaN = false := by
    have hmagnitude : x.magnitude = Binary64.infinityWord := beq_iff_eq.1 hx
    simp [Binary64.isNaN, hmagnitude]
  simp only [literalText, hnan, hx, hs]
  rfl

/-- A double without a sign is read as it is, or its name is undefined. -/
theorem yields_size (hnan : x.isNaN = false) (hs : x.signBit = false) :
    Yields (literalText x).toList (Meaning.compiled.literal (.real x)) := by
  rw [Meaning.compiled]
  dsimp only
  by_cases hx : x.isFinite = true
  · obtain ⟨n, hchars, hvalue, hmark⟩ := exists_numeral_literalText hx hs
    rw [if_pos hx, hchars, ← hvalue]
    exact yields_numeral (numberValue?_of_mark hmark)
  · have hinfinite := (Binary64.isInfinite_or_isFinite hnan).resolve_right hx
    rw [if_neg hx, literalText_of_isInfinite hinfinite hs, literalText_abs_of_isInfinite hinfinite]
    exact yields_undefined (by decide) (by decide)

/-- A minus sign takes the sign of a double back. -/
theorem compiled_literal_neg (x : Binary64) : (do
    let a ← Meaning.compiled.literal (.real x.neg)
    a.minus.mapError .operand) = Meaning.compiled.literal (.real x) := by
  have habs : x.neg.abs = x.abs := Binary64.abs_eq_of_magnitude (Binary64.magnitude_neg x)
  simp only [Meaning.compiled, Binary64.isFinite_neg, habs]
  split
  · exact congrArg (fun y => Except.ok (some (Quantity.real y))) (Binary64.neg_neg x)
  · rfl

theorem yields_real (x : Binary64) :
    Yields (literalText x).toList (Meaning.compiled.literal (.real x)) := by
  cases hnan : x.isNaN with
  | true =>
      have hx : ¬x.isFinite = true := fun hx => by
        simp [Binary64.isNaN_eq_false_of_isFinite hx] at hnan
      rw [Meaning.compiled]
      dsimp only
      have htext {y : Binary64} (hy : y.isNaN = true) : literalText y = "nan" := by
        rw [literalText, if_pos hy]
      rw [if_neg hx, htext hnan, htext ((Binary64.isNaN_abs x).trans hnan)]
      exact yields_undefined (by decide) (by decide)
  | false =>
      cases hs : x.signBit with
      | false => exact yields_size hnan hs
      | true =>
          have hneg : x.neg.signBit = false := by rw [Binary64.signBit_neg, hs]; rfl
          have hsize := (yields_size ((Binary64.isNaN_neg x).trans hnan) hneg).minus
          rw [compiled_literal_neg] at hsize
          rw [literalText_of_signBit hnan hs, String.toList_append]
          exact hsize

/-- The literals of a formula are read with the meaning they have in compiled evaluators. -/
theorem yields_literal {n : Number} {t : String} (h : Formula.literal n = .ok t) :
    Yields t.toList (Meaning.compiled.literal n) := by
  cases n with
  | int k =>
      rw [Formula.literal, Number.text?_int] at h
      by_cases hk : k.natAbs < 10 ^ wholeDigitLimit
      · rw [if_pos hk] at h
        cases h
        exact yields_int hk
      · rw [if_neg hk] at h
        cases h
  | real x =>
      cases h
      exact yields_real x

end Code

/-! ### Formulas -/

namespace Formula

mutual

/-- How many brackets are open at a time in the listing of a formula. -/
def nesting : Formula → Nat
  | .number _ | .constant _ => 0
  | .variable _ => 1
  | .group e => e.nesting
  | .unary _ e => e.nesting + 1
  | .binary _ l r => max l.nesting r.nesting + 1
  | .call _ args => nestingAll args + 1

def nestingAll : List Formula → Nat
  | [] => 0
  | e :: es => max e.nesting (nestingAll es)

end

variable {e : Formula} {t : String}

/-- Code stands for a formula: its text is read as the code, which has the brackets and the values
of the formula. -/
structure Coded (e : Formula) (t : String) (c : Code) : Prop where
  reads : Code.Reads t.toList c
  nesting : c.nesting = e.nesting
  evaluate : ∀ s, c.evaluate s = e.evaluateIn Meaning.compiled s

/-- Whether all whole literals of a formula are short enough to be written. -/
def Brief (e : Formula) : Prop := ∀ k : Int, .int k ∈ e.literals → k.natAbs < 10 ^ wholeDigitLimit

/-! ### Listings, node by node -/

section Listings

variable {ref : String → String} {op : String} {l r : Formula} {args : List Formula}

theorem listing_unary_eq_ok_iff : (Formula.unary op e).listing ref = .ok t ↔
    ∃ o inside, UnaryOp.ofSymbol? op = some o ∧ e.listing ref = .ok inside ∧
      listedCall o.callName [inside] = t := by
  rw [listing]
  cases UnaryOp.ofSymbol? op <;> cases e.listing ref <;>
    simp [known, bind, Except.bind, pure, Except.pure]

theorem listing_binary_eq_ok_iff : (Formula.binary op l r).listing ref = .ok t ↔
    ∃ o left right, BinaryOp.ofSymbol? op = some o ∧ l.listing ref = .ok left ∧
      r.listing ref = .ok right ∧ listedCall o.callName [left, right] = t := by
  rw [listing]
  cases BinaryOp.ofSymbol? op <;> cases l.listing ref <;> cases r.listing ref <;>
    simp [known, bind, Except.bind, pure, Except.pure]

theorem listingAll_eq_ok_iff {texts : List String} : listingAll ref args = .ok texts ↔
    List.Forall₂ (fun e t => e.listing ref = .ok t) args texts := by
  induction args generalizing texts with
  | nil => cases texts <;> simp [listingAll]
  | cons e es ih =>
      rw [listingAll, List.forall₂_cons_left_iff]
      simp only [← ih]
      cases e.listing ref <;> cases listingAll ref es <;>
        simp [bind, Except.bind, pure, Except.pure, eq_comm]

theorem listing_call_eq_ok_iff {f : String} : (Formula.call f args).listing ref = .ok t ↔
    ∃ inside, List.Forall₂ (fun e t => e.listing ref = .ok t) args inside ∧
      listedCall (functionName f) inside = t := by
  rw [listing]
  simp only [← listingAll_eq_ok_iff]
  cases listingAll ref args <;> simp [bind, Except.bind, pure, Except.pure]

end Listings

/-! ### The code of a formula -/

/-- A call of arguments that stand for arguments, in order. -/
theorem exists_call {callee : String} (hcallee : isName callee = true) {es : List Formula}
    {texts : List String} (h : List.Forall₂ (fun e t => ∃ c, Coded e t c) es texts) :
    ∃ args : List Code, Code.Reads (listedCall callee texts).toList (.call callee args) ∧
      Code.nestingAll args = nestingAll es ∧
        ∀ s, Code.evaluateAll s args = evaluateAllIn Meaning.compiled s es := by
  have hargs : ∃ args : List Code, List.Forall₂ (fun t c => Code.Reads t.toList c) texts args ∧
      Code.nestingAll args = nestingAll es ∧
        ∀ s, Code.evaluateAll s args = evaluateAllIn Meaning.compiled s es := by
    induction h with
    | nil => exact ⟨[], .nil, rfl, fun _ => rfl⟩
    | cons hfirst _ ih =>
        obtain ⟨c, hc⟩ := hfirst
        obtain ⟨args, hreads, hnesting, hvalues⟩ := ih
        refine ⟨c :: args, .cons hc.reads hreads, ?_, fun s => ?_⟩
        · rw [Code.nestingAll, nestingAll, hc.nesting, hnesting]
        · rw [Code.evaluateAll, evaluateAllIn, hc.evaluate, hvalues]
  obtain ⟨args, hreads, hrest⟩ := hargs
  exact ⟨args, Code.reads_call hcallee hreads, hrest⟩

theorem exists_coded_constant {x : String} (hx : x.toList.all isNamePart = true) :
    ∃ c, Coded (constant x) (constantName x) c := by
  have hname : isName (constantName x) = true := isName_append (by decide) hx
  refine ⟨.name (constantName x), Code.reads_name hname, rfl, fun s => ?_⟩
  rw [Code.evaluate, Global.ofName?_constantName, evaluateIn]
  simp only [Meaning.compiled]
  cases constant? x <;> rfl

theorem exists_coded_unary {op : String} {o : UnaryOp} {inside : String}
    (ho : UnaryOp.ofSymbol? op = some o) (he : ∃ c, Coded e inside c) :
    ∃ c, Coded (unary op e) (listedCall o.callName [inside]) c := by
  have hname : isName o.callName = true := by cases o <;> decide
  obtain ⟨args, hreads, hnesting, hvalues⟩ := exists_call hname (.cons he .nil)
  refine ⟨.call o.callName args, hreads, ?_, fun s => ?_⟩
  · rw [Code.nesting, hnesting, nesting, nestingAll, nestingAll, Nat.max_zero]
  · rw [Code.evaluate, Global.ofName?_unary, hvalues, evaluateIn, ho, evaluateAllIn, evaluateAllIn]
    cases e.evaluateIn Meaning.compiled s <;> rfl

theorem exists_coded_binary {op : String} {o : BinaryOp} {l r : Formula} {left right : String}
    (ho : BinaryOp.ofSymbol? op = some o) (hl : ∃ c, Coded l left c) (hr : ∃ c, Coded r right c) :
    ∃ c, Coded (binary op l r) (listedCall o.callName [left, right]) c := by
  have hname : isName o.callName = true := by cases o <;> decide
  obtain ⟨args, hreads, hnesting, hvalues⟩ := exists_call hname (.cons hl (.cons hr .nil))
  refine ⟨.call o.callName args, hreads, ?_, fun s => ?_⟩
  · rw [Code.nesting, hnesting, nesting, nestingAll, nestingAll, nestingAll, Nat.max_zero]
  · rw [Code.evaluate, Global.ofName?_binary, hvalues, evaluateIn, ho, evaluateAllIn,
      evaluateAllIn, evaluateAllIn]
    cases l.evaluateIn Meaning.compiled s <;> cases r.evaluateIn Meaning.compiled s <;> rfl

theorem exists_coded_call {f : String} {args : List Formula} {inside : List String}
    (hf : f.toList.all isNamePart = true)
    (hargs : List.Forall₂ (fun e t => ∃ c, Coded e t c) args inside) :
    ∃ c, Coded (call f args) (listedCall (functionName f) inside) c := by
  have hname : isName (functionName f) = true := isName_append (by decide) hf
  obtain ⟨codes, hreads, hnesting, hvalues⟩ := exists_call hname hargs
  refine ⟨.call (functionName f) codes, hreads, ?_, fun s => ?_⟩
  · rw [Code.nesting, nesting, hnesting]
  · rw [Code.evaluate, Global.ofName?_functionName, evaluateIn, hvalues]
    simp only [Meaning.compiled]
    cases Function.ofName? f <;> rfl

/-- The listing of a formula whose names are words stands for the formula. -/
theorem exists_coded (hwords : e.Everywhere fun part => part.isWorded = true)
    (h : e.listing Memo.Script.itemText = .ok t) : ∃ c, Coded e t c := by
  induction e generalizing t with
  | number n =>
      obtain ⟨c, hreads, hnesting, hvalue⟩ := Code.yields_literal h
      exact ⟨c, hreads, hnesting, hvalue⟩
  | constant c =>
      cases h
      exact exists_coded_constant ((everywhere_iff _ _).1 hwords).1
  | var x =>
      cases h
      exact ⟨.item x, Code.reads_item x, rfl, fun s => rfl⟩
  | group e ih =>
      obtain ⟨-, hparts⟩ := (everywhere_iff _ _).1 hwords
      obtain ⟨c, hreads, hnesting, hvalue⟩ := ih (hparts e (by simp [children])) h
      exact ⟨c, hreads, hnesting, hvalue⟩
  | unary op e ih =>
      obtain ⟨-, hparts⟩ := (everywhere_iff _ _).1 hwords
      obtain ⟨o, inside, ho, hinside, rfl⟩ := listing_unary_eq_ok_iff.1 h
      exact exists_coded_unary ho (ih (hparts e (by simp [children])) hinside)
  | binary op l r ihl ihr =>
      obtain ⟨-, hparts⟩ := (everywhere_iff _ _).1 hwords
      obtain ⟨o, left, right, ho, hleft, hright, rfl⟩ := listing_binary_eq_ok_iff.1 h
      exact exists_coded_binary ho (ihl (hparts l (by simp [children])) hleft)
        (ihr (hparts r (by simp [children])) hright)
  | call f args ih =>
      obtain ⟨hf, hparts⟩ := (everywhere_iff _ _).1 hwords
      obtain ⟨inside, hinside, rfl⟩ := listing_call_eq_ok_iff.1 h
      have hcoded (a : Formula) (ha : a ∈ args) (t : String)
          (hlisting : a.listing Memo.Script.itemText = .ok t) : ∃ c, Coded a t c :=
        ih a ha (hparts a ha) hlisting
      exact exists_coded_call hf (((List.forall₂_and_left _ _).2 ⟨hcoded, hinside⟩).imp
        fun a t hlisted => hlisted.1 t hlisted.2)

end Formula

end Gantry
