import Gantry.Proofs.Memo.History
import Gantry.Proofs.Memo.Scripts

/-!
What compiling selects. The entries of an evaluator for given names are those
that the names depend on, in the order of the table; none of them refers to an
entry that is not computed before it. Compiling fails for unknown names, for a
table out of order, and for operators without a listing.
-/

namespace Gantry.Memo

/-- The names asked for, and whether the answer is the value of the only one. -/
def Targets.names? : Targets → Option (List String × Bool)
  | .newest => none
  | .one x => some ([x], true)
  | .many xs => some (xs, false)

namespace Table

variable {t : Table}

/-! ### Order -/

theorem mem_references {e : Formula} {j : Nat} :
    j ∈ t.references e ↔ ∃ x ∈ e.occurrences, t.index? x = some j := by
  simp only [references, List.mem_filterMap, Formula.mem_variableNames]

theorem misplaced?_eq_none_iff {i : Nat} {e : Formula} :
    t.misplaced? i e = none ↔ ∀ j ∈ t.references e, j < i := by
  simp only [misplaced?, List.find?_eq_none, Formula.mem_variableNames, mem_references]
  constructor
  · rintro h j ⟨x, hx, hj⟩
    have hplaced := h x hx
    rw [hj] at hplaced
    simpa using hplaced
  · intro h x hx hlate
    obtain ⟨j, hj, hij⟩ := (Option.any_eq_true _ _).1 hlate
    have hji := h j ⟨x, hx, hj⟩
    have hij : i ≤ j := of_decide_eq_true hij
    omega

theorem checkOrder_eq_ok_iff {is : List Nat} :
    t.checkOrder is = .ok () ↔
      ∀ i ∈ is, ∀ a, t.entries[i]? = some a → ∀ j ∈ t.references a, j < i := by
  induction is with
  | nil => simp [checkOrder]
  | cons i is ih =>
      rw [checkOrder, List.forall_mem_cons, ← ih]
      cases ha : t.entries[i]? with
      | none => simp
      | some a =>
          have hbind : (some a >>= t.misplaced? i) = t.misplaced? i a := rfl
          rw [hbind]
          cases hmisplaced : t.misplaced? i a with
          | some x =>
              have hlate := mt misplaced?_eq_none_iff.2 (hmisplaced ▸ Option.some_ne_none x)
              simp only [reduceCtorEq, false_iff, not_and]
              exact fun h => absurd (h a rfl) hlate
          | none =>
              have hplaced := misplaced?_eq_none_iff.1 hmisplaced
              simp only [iff_and_self]
              rintro - _ ⟨⟩
              exact hplaced

/-- A table passes the check just when it is in order. -/
theorem checkOrder_range_iff : t.checkOrder (List.range t.size) = .ok () ↔ t.Ordered := by
  rw [checkOrder_eq_ok_iff]
  constructor
  · intro h i a ha x j hx hj
    exact h i (List.mem_range.2 (lt_size_of_getElem? ha)) a ha j (mem_references.2 ⟨x, hx, hj⟩)
  · intro h i _ a ha j hj
    obtain ⟨x, hx, hj⟩ := mem_references.1 hj
    exact h ha hx hj

/-! ### Dependencies -/

/-- Entries, last first, together with all entries they refer to. -/
structure Closed (t : Table) (is : List Nat) : Prop where
  descending : is.Pairwise (· > ·)
  lt_size : ∀ i ∈ is, i < t.size
  references : ∀ i ∈ is, ∀ a, t.entries[i]? = some a → ∀ j ∈ t.references a, j ∈ is

theorem mem_of_mem_dependencies {n i : Nat} {marked : List Nat}
    (h : i ∈ t.dependencies n marked) : i < n := by
  induction n generalizing marked with
  | zero => simp [dependencies] at h
  | succ n ih =>
      rw [dependencies] at h
      split at h
      · rcases List.mem_cons.1 h with rfl | h
        · exact Nat.lt_succ_self _
        · exact Nat.lt_succ_of_lt (ih h)
      · exact Nat.lt_succ_of_lt (ih h)

theorem pairwise_dependencies (n : Nat) (marked : List Nat) :
    (t.dependencies n marked).Pairwise (· > ·) := by
  induction n generalizing marked with
  | zero => exact .nil
  | succ n ih =>
      rw [dependencies]
      split
      · exact List.pairwise_cons.2 ⟨fun i hi => mem_of_mem_dependencies hi, ih _⟩
      · exact ih _

theorem references_dependencies (ht : t.Ordered) {n i j : Nat} {marked : List Nat} {a : Formula}
    (hi : i ∈ t.dependencies n marked) (ha : t.entries[i]? = some a) (hj : j ∈ t.references a) :
    j ∈ t.dependencies n marked := by
  obtain ⟨x, hx, hxj⟩ := mem_references.1 hj
  have hji : j < i := ht ha hx hxj
  induction n generalizing marked with
  | zero => simp [dependencies] at hi
  | succ n ih =>
      rw [dependencies] at hi ⊢
      split at hi
      · next hmarked =>
        rw [if_pos hmarked]
        rcases List.mem_cons.1 hi with rfl | hi
        · refine List.mem_cons_of_mem _ (mem_dependencies_of_marked hji ?_)
          simp [ha, hj]
        · exact List.mem_cons_of_mem _ (ih hi)
      · next hmarked =>
        rw [if_neg hmarked]
        exact ih hi

theorem closed_dependencies (ht : t.Ordered) (marked : List Nat) :
    t.Closed (t.dependencies t.size marked) :=
  ⟨pairwise_dependencies _ _, fun _ => mem_of_mem_dependencies,
    fun _ hi _ ha _ => references_dependencies ht hi ha⟩

/-- What holds of the marked entries and passes on to references holds of all
dependencies. -/
theorem dependencies_induction {P : Nat → Prop}
    (hreferences : ∀ {i a j}, P i → t.entries[i]? = some a → j ∈ t.references a → P j)
    {n : Nat} {marked : List Nat} (hmarked : ∀ i ∈ marked, P i) :
    ∀ i ∈ t.dependencies n marked, P i := by
  induction n generalizing marked with
  | zero => simp [dependencies]
  | succ n ih =>
      rw [dependencies]
      split
      · next hn =>
        have hPn : P n := hmarked n (List.contains_iff_mem.1 hn)
        refine List.forall_mem_cons.2 ⟨hPn, ih fun j hj => ?_⟩
        -- What is marked from here on is a reference of the entry or was marked before.
        rcases List.mem_append.1 hj with hj | hj
        · cases ha : t.entries[n]? with
          | none => simp [ha] at hj
          | some a => exact hreferences hPn ha (by simpa [ha] using hj)
        · exact hmarked j hj
      · exact ih hmarked

/-! ### Evaluators -/

theorem mem_program {is : List Nat} {x : String} {a : Formula} :
    (x, a) ∈ t.program is ↔ ∃ i ∈ is, t.name i = x ∧ t.entries[i]? = some a := by
  simp only [program, List.mem_filterMap, Option.map_eq_some_iff, Prod.mk.injEq]
  constructor
  · rintro ⟨i, hi, e, he, hx, rfl⟩
    exact ⟨i, hi, hx, he⟩
  · rintro ⟨i, hi, hx, ha⟩
    exact ⟨i, hi, a, ha, hx, rfl⟩

/-- The entries that given names depend on, last first. -/
def needed (t : Table) (names : List String) : List Nat :=
  t.dependencies t.size (names.filterMap t.index?)

theorem mem_needed {names : List String} {i : Nat} (hi : i < t.size) (h : t.name i ∈ names) :
    i ∈ t.needed names :=
  mem_dependencies_of_marked hi (List.mem_filterMap.2 ⟨_, h, index?_name hi⟩)

/-- What an evaluator is made of. -/
structure Assembles (t : Table) (is : List Nat) (targets : List String) (single : Bool)
    (ev : Evaluator) : Prop where
  entries : ev.entries = t.program is
  targets : ev.targets = targets
  single : ev.single = single
  inputs : ev.inputs = (t.program is).foldl (fun inputs entry => t.addInputs inputs entry.2) []

theorem assembles_of_assemble {is : List Nat} {targets : List String} {single : Bool}
    {hnames : t.Names is targets} {hlone : single = true → targets ≠ []} {ev : Evaluator}
    (h : t.assemble is targets single hnames hlone = .ok ev) :
    t.Assembles is targets single ev := by
  unfold assemble at h
  dsimp only at h
  split at h
  · cases h
  · split at h
    · cases h
    · cases h
      exact ⟨rfl, rfl, rfl, rfl⟩

/-- An evaluator is determined by what it is made of. -/
theorem Assembles.assemble {is : List Nat} {targets : List String} {single : Bool} {ev : Evaluator}
    (h : t.Assembles is targets single ev) (hnames : t.Names is targets)
    (hlone : single = true → targets ≠ []) :
    t.assemble is targets single hnames hlone = .ok ev := by
  obtain ⟨hentries, htargets, hsingle, hinputs⟩ := h
  cases ev with
  | mk entries inputs _ _ listing script hwritten hdefined _ _ =>
      dsimp only at hentries htargets hsingle hinputs
      subst hentries htargets hsingle hinputs
      unfold Table.assemble
      dsimp only
      split
      · next f hf =>
        rw [hwritten] at hf
        cases hf
      · next text htext =>
        obtain rfl : listing = text := Except.ok.inj (hwritten.symm.trans htext)
        split
        · next hnone =>
          rw [hdefined] at hnone
          cases hnone
        · next read hread =>
          obtain rfl : script = read := Option.some.inj (hdefined.symm.trans hread)
          rfl

theorem select_eq_ok {names : List String} {single : Bool} {hlone : single = true → names ≠ []}
    {ev : Evaluator} (h : t.select names single hlone = .ok ev) :
    (∀ x ∈ names, t.contains x = true) ∧ t.Assembles (t.needed names).reverse names single ev := by
  unfold select at h
  split at h
  · next hknown => exact ⟨hknown, assembles_of_assemble h⟩
  · cases h

theorem compile_eq {targets : Targets} {names : List String} {single : Bool}
    (hnames : targets.names? = some (names, single)) :
    ∃ hlone : single = true → names ≠ [], t.compile targets =
      if t.size = 0 then .error .emptyTable
      else
        match t.checkOrder (List.range t.size) with
        | .error f => .error f
        | .ok () => t.select names single hlone := by
  cases targets with
  | newest => cases hnames
  | one x =>
      cases hnames
      exact ⟨by simp, rfl⟩
  | many xs =>
      cases hnames
      exact ⟨by simp, rfl⟩

/-- An evaluator for given names computes what the names depend on, and the
table it comes from is in order and knows them all. -/
theorem compile_eq_ok {targets : Targets} {names : List String} {single : Bool} {ev : Evaluator}
    (hnames : targets.names? = some (names, single)) (h : t.compile targets = .ok ev) :
    t.Ordered ∧ (∀ x ∈ names, t.contains x = true) ∧
      t.Assembles (t.needed names).reverse names single ev := by
  obtain ⟨hlone, hcompile⟩ := compile_eq (t := t) hnames
  rw [hcompile] at h
  split at h
  · cases h
  · split at h
    · cases h
    · next hordered =>
      exact ⟨checkOrder_range_iff.1 hordered, select_eq_ok h⟩

theorem mem_addInputs_iff {found : List String} {e : Formula} {x : String} :
    x ∈ t.addInputs found e ↔ x ∈ found ∨ t.contains x = false ∧ x ∈ e.occurrences := by
  rw [← Formula.mem_variableNames, addInputs]
  generalize e.variableNames = xs
  induction xs generalizing found with
  | nil => simp
  | cons y xs ih =>
      rw [List.foldl_cons, ih, List.mem_cons]
      by_cases hy : (t.contains y || found.contains y) = true
      · rw [if_pos hy]
        simp only [Bool.or_eq_true, List.contains_iff_mem] at hy
        grind
      · rw [if_neg hy, List.mem_append, List.mem_singleton]
        simp only [Bool.or_eq_true, not_or, Bool.not_eq_true] at hy
        grind

/-- The inputs of an evaluator are the variables of its entries that are not
entries themselves. -/
theorem mem_inputs_iff {entries : List (String × Formula)} {found : List String} {x : String} :
    x ∈ entries.foldl (fun inputs entry => t.addInputs inputs entry.2) found ↔
      x ∈ found ∨ t.contains x = false ∧ ∃ entry ∈ entries, x ∈ entry.2.occurrences := by
  induction entries generalizing found with
  | nil => simp
  | cons entry entries ih =>
      simp only [List.foldl_cons, ih, mem_addInputs_iff, List.mem_cons, exists_eq_or_imp]
      tauto

/-! ### Listings -/

/-- Whether the operator of a node, if it has one, is known. -/
def Operable : Formula → Prop
  | .unary op _ => (UnaryOp.ofSymbol? op).isSome
  | .binary op _ _ => (BinaryOp.ofSymbol? op).isSome
  | _ => True

theorem hereditary_operable (stem : String) : Hereditary stem fun _ => Operable where
  mono _ h := h
  head htriv hlength h := by
    revert h
    exact Formula.withChildren_cases (motive := fun e _ e' => Operable e → Operable e')
      (fun _ _ h => h) (fun _ _ _ h => h) (fun _ _ _ _ _ h => h) (fun _ _ _ h => h) htriv hlength
  name _ := trivial
  group := trivial

theorem hereditary_isWorded (stem : String) : Hereditary stem fun _ e => e.isWorded = true where
  mono _ h := h
  head htriv hlength h := by
    revert h
    exact Formula.withChildren_cases
      (motive := fun e _ e' => e.isWorded = true → e'.isWorded = true)
      (fun _ _ h => h) (fun _ _ _ h => h) (fun _ _ _ _ _ h => h) (fun _ _ _ h => h) htriv hlength
  name _ := rfl
  group := rfl

theorem brief_binary_iff {op : String} {l r : Formula} :
    (Formula.binary op l r).Brief ↔ l.Brief ∧ r.Brief := by
  simp only [Formula.Brief, Formula.literals, List.mem_append, or_imp, forall_and]

theorem brief_call_iff {f : String} {args : List Formula} :
    (Formula.call f args).Brief ↔ ∀ a ∈ args, a.Brief := by
  simp only [Formula.Brief, Formula.literals, Formula.literalsAll_eq, List.mem_flatMap]
  constructor
  · exact fun h a ha k hk => h k ⟨a, ha, hk⟩
  · rintro h k ⟨a, ha, hk⟩
    exact h a ha k hk

/-- Arguments are listed one by one, up to one that is not. -/
theorem listingAll_cases {ref : String → String} {es : List Formula}
    (h : ∀ e ∈ es, (e.Brief ∧ ∃ text, e.listing ref = .ok text) ∨
      (¬e.Brief ∧ e.listing ref = .error .numberTooLong)) :
    ((∀ e ∈ es, e.Brief) ∧ ∃ texts, Formula.listingAll ref es = .ok texts) ∨
      ((¬∀ e ∈ es, e.Brief) ∧ Formula.listingAll ref es = .error .numberTooLong) := by
  induction es with
  | nil => exact .inl ⟨by simp, _, rfl⟩
  | cons e es ih =>
      obtain ⟨he, hes⟩ := List.forall_mem_cons.1 h
      rw [List.forall_mem_cons, Formula.listingAll]
      obtain ⟨hbrief, text, hfirst⟩ | ⟨hlong, hfirst⟩ := he
      · obtain ⟨hrest, texts, htexts⟩ | ⟨hrest, herror⟩ := ih hes
        · exact .inl ⟨⟨hbrief, hrest⟩, text :: texts, by rw [hfirst, htexts]; rfl⟩
        · exact .inr ⟨fun hall => hrest hall.2, by rw [hfirst, herror]; rfl⟩
      · exact .inr ⟨fun hall => hlong hall.1, by rw [hfirst]; rfl⟩

/-- A formula of known operators has a listing, unless a literal in it is too long. -/
theorem listing_cases {e : Formula} (ref : String → String) (h : e.Everywhere Operable) :
    (e.Brief ∧ ∃ text, e.listing ref = .ok text) ∨
      (¬e.Brief ∧ e.listing ref = .error .numberTooLong) := by
  induction e with
  | number n =>
      cases n with
      | int k =>
          have hbrief : (Formula.number (.int k)).Brief ↔ k.natAbs < 10 ^ wholeDigitLimit := by
            simp [Formula.Brief, Formula.literals]
          rw [Formula.listing, Formula.literal, Number.text?_int, hbrief]
          by_cases hk : k.natAbs < 10 ^ wholeDigitLimit
          · exact .inl ⟨hk, _, by rw [if_pos hk]⟩
          · exact .inr ⟨hk, by rw [if_neg hk]⟩
      | real x => exact .inl ⟨by simp [Formula.Brief, Formula.literals], _, rfl⟩
  | constant c => exact .inl ⟨by simp [Formula.Brief, Formula.literals], _, rfl⟩
  | var x => exact .inl ⟨by simp [Formula.Brief, Formula.literals], _, rfl⟩
  | group e ih => exact ih (((Formula.everywhere_iff _ _).1 h).2 e (by simp [Formula.children]))
  | unary op e ih =>
      obtain ⟨hop, he⟩ := (Formula.everywhere_iff _ _).1 h
      obtain ⟨o, ho⟩ := Option.isSome_iff_exists.1 hop
      obtain ⟨hbrief, text, htext⟩ | ⟨hlong, herror⟩ := ih (he e (by simp [Formula.children]))
      · exact .inl ⟨hbrief, _, Formula.listing_unary_eq_ok_iff.2 ⟨o, text, ho, htext, rfl⟩⟩
      · exact .inr ⟨hlong, by rw [Formula.listing, ho, herror]; rfl⟩
  | binary op l r ihl ihr =>
      obtain ⟨hop, he⟩ := (Formula.everywhere_iff _ _).1 h
      obtain ⟨o, ho⟩ := Option.isSome_iff_exists.1 hop
      rw [brief_binary_iff]
      obtain ⟨hl, left, hleft⟩ | ⟨hl, hleft⟩ := ihl (he l (by simp [Formula.children]))
      · obtain ⟨hr, right, hright⟩ | ⟨hr, hright⟩ := ihr (he r (by simp [Formula.children]))
        · exact .inl ⟨⟨hl, hr⟩, _,
            Formula.listing_binary_eq_ok_iff.2 ⟨o, left, right, ho, hleft, hright, rfl⟩⟩
        · exact .inr ⟨fun h => hr h.2, by rw [Formula.listing, ho, hleft, hright]; rfl⟩
      · exact .inr ⟨fun h => hl h.1, by rw [Formula.listing, ho, hleft]; rfl⟩
  | call f args ih =>
      obtain ⟨-, he⟩ := (Formula.everywhere_iff _ _).1 h
      rw [brief_call_iff]
      obtain ⟨hbrief, texts, htexts⟩ | ⟨hlong, herror⟩ :=
        @listingAll_cases ref _ fun a ha => ih a ha (he a ha)
      · exact .inl ⟨hbrief, _, by rw [Formula.listing, htexts]; rfl⟩
      · exact .inr ⟨hlong, by rw [Formula.listing, herror]; rfl⟩

/-- Entries of known operators are described, unless a literal in one of them is too long. -/
theorem describe_cases {entries : List (String × Formula)} (targets : List String) (single : Bool)
    (h : ∀ entry ∈ entries, entry.2.Everywhere Operable) :
    ((∀ entry ∈ entries, entry.2.Brief) ∧ ∃ text, describe entries targets single = .ok text) ∨
      ((¬∀ entry ∈ entries, entry.2.Brief) ∧
        describe entries targets single = .error .numberTooLong) := by
  suffices hlines : ((∀ entry ∈ entries, entry.2.Brief) ∧ ∃ lines, listEntries entries = .ok lines) ∨
      ((¬∀ entry ∈ entries, entry.2.Brief) ∧ listEntries entries = .error .numberTooLong) by
    obtain ⟨hbrief, lines, hlines⟩ | ⟨hlong, herror⟩ := hlines
    · exact .inl ⟨hbrief, _, by rw [describe, hlines]; rfl⟩
    · exact .inr ⟨hlong, by rw [describe, herror]; rfl⟩
  induction entries with
  | nil => exact .inl ⟨by simp, _, rfl⟩
  | cons entry entries ih =>
      obtain ⟨hentry, hentries⟩ := List.forall_mem_cons.1 h
      rw [List.forall_mem_cons, listEntries]
      obtain ⟨hbrief, text, hfirst⟩ | ⟨hlong, hfirst⟩ := listing_cases Script.itemText hentry
      · obtain ⟨hrest, lines, hlines⟩ | ⟨hrest, herror⟩ := ih hentries
        · exact .inl ⟨⟨hbrief, hrest⟩, _, by rw [hfirst, hlines]; rfl⟩
        · exact .inr ⟨fun hall => hrest hall.2, by rw [hfirst, herror]; rfl⟩
      · exact .inr ⟨fun hall => hlong hall.1, by rw [hfirst]; rfl⟩

/-- What can become of entries of known operators that are compiled. -/
inductive Assembly (entries : List (String × Formula)) : Except Failure Evaluator → Prop
  | tooLong : (¬∀ entry ∈ entries, entry.2.Brief) →
      Assembly entries (.error (.listing .numberTooLong))
  | unreadable : (∀ entry ∈ entries, entry.2.Brief) → (¬∀ entry ∈ entries, Readable entry.2) →
      Assembly entries (.error .unreadable)
  | ok (ev : Evaluator) : (∀ entry ∈ entries, entry.2.Brief) →
      (∀ entry ∈ entries, Readable entry.2) → Assembly entries (.ok ev)

theorem assembly_assemble {is : List Nat} {targets : List String} {single : Bool}
    (hnames : t.Names is targets) (hlone : single = true → targets ≠ [])
    (hoperators : t.All fun _ => Operable) :
    Assembly (t.program is) (t.assemble is targets single hnames hlone) := by
  have hentries : ∀ entry ∈ t.program is, entry.2.Everywhere Operable := by
    intro entry hentry
    obtain ⟨i, -, -, ha⟩ := mem_program.1 hentry
    exact hoperators ha
  have hdescribe := describe_cases targets single hentries
  unfold assemble
  dsimp only
  split
  · next f hf =>
    obtain ⟨-, text, htext⟩ | ⟨hlong, herror⟩ := hdescribe
    · rw [hf] at htext
      cases htext
    · rw [hf] at herror
      cases herror
      exact .tooLong hlong
  · next listing hlisting =>
    obtain ⟨hbrief, -⟩ | ⟨-, herror⟩ := hdescribe
    · have hdefine := exists_define_iff hlisting
      split
      · next hnone => exact .unreadable hbrief fun hall => by simpa [hnone] using hdefine.2 hall
      · next script hscript => exact .ok _ hbrief (hdefine.1 ⟨script, hscript⟩)
    · rw [hlisting] at herror
      cases herror

end Table

end Gantry.Memo
