import Mathlib.Data.List.Sort
import Mathlib.Logic.Relation
import Gantry.Proofs.Memo.Effect

/-!
What compiling selects, told by names alone. A table is compiled for its
targets unless it is empty, is out of order or does not know a target. The
evaluator then computes, in the order of the table, what the targets lead to
through references and nothing else, and it asks for the variables of these
entries that are not entries themselves, each of them once.
-/

namespace Gantry.Memo

/-- The names that targets are given by. -/
def Targets.listed : Targets → List String
  | .newest => []
  | .one x => [x]
  | .many xs => xs

namespace Table

variable {t : Table} {targets : Targets} {ev : Evaluator} {x y : String}

/-! ### Why compiling fails -/

/-- Why a table cannot be compiled for targets. -/
inductive Uncompilable (t : Table) (targets : Targets) : Prop
  | empty : t.size = 0 → Uncompilable t targets
  | unknown {x : String} : x ∈ targets.listed → t.contains x = false → Uncompilable t targets
  /-- An entry, whether it is needed or not, refers to itself or to a later one. -/
  | misplaced {i j : Nat} {a : Formula} {x : String} :
      t.entries[i]? = some a → x ∈ a.occurrences → t.index? x = some j → i ≤ j →
      Uncompilable t targets

theorem ordered_of_compilable (h : ¬t.Uncompilable targets) : t.Ordered := by
  intro i a ha x j hx hj
  by_contra hij
  exact h (.misplaced ha hx hj (Nat.le_of_not_lt hij))

theorem not_uncompilable_iff : ¬t.Uncompilable targets ↔
    t.size ≠ 0 ∧ t.Ordered ∧ ∀ x ∈ targets.listed, t.contains x = true := by
  constructor
  · intro h
    refine ⟨fun hsize => h (.empty hsize), ordered_of_compilable h, fun x hx => ?_⟩
    by_contra hunknown
    exact h (.unknown hx (Bool.eq_false_iff.2 hunknown))
  · rintro ⟨hsize, hordered, hknown⟩ (hempty | ⟨hx, hunknown⟩ | ⟨ha, hx, hj, hij⟩)
    · exact hsize hempty
    · rw [hknown _ hx] at hunknown
      cases hunknown
    · have := hordered ha hx hj
      omega

theorem checkOrder_eq_error {is : List Nat} {f : Failure} (h : t.checkOrder is = .error f) :
    ∃ entry reference, f = .outOfOrder entry reference := by
  induction is with
  | nil => cases h
  | cons i is ih =>
      rw [checkOrder] at h
      split at h
      · cases h
        exact ⟨_, _, rfl⟩
      · exact ih h

theorem select_of_unknown {names : List String} {single : Bool} {hlone : single = true → names ≠ []}
    (hx : x ∈ names) (hunknown : t.contains x = false) :
    ∃ f message, t.select names single hlone = .error f ∧ f.fault = .value (some message) := by
  have hknown : ¬∀ y ∈ names, t.contains y = true := fun hall => by simp [hall x hx] at hunknown
  exact ⟨_, _, by rw [select, dif_neg hknown], rfl⟩

/-- A table that fails to be compiled for other reasons than what its entries are written like. -/
theorem compile_of_uncompilable (h : t.Uncompilable targets) :
    ∃ f message, t.compile targets = .error f ∧ f.fault = .value (some message) := by
  by_cases hsize : t.size = 0
  · exact ⟨.emptyTable, _, by rw [compile, dif_pos hsize], rfl⟩
  rw [compile, dif_neg hsize]
  cases horder : t.checkOrder (List.range t.size) with
  | error f =>
      obtain ⟨entry, reference, rfl⟩ := checkOrder_eq_error horder
      exact ⟨_, _, rfl, rfl⟩
  | ok u =>
      -- A table in order that is not empty can only miss a target.
      obtain ⟨x, hx, hunknown⟩ : ∃ x ∈ targets.listed, t.contains x = false := by
        by_contra hknown
        simp only [not_exists, not_and, Bool.not_eq_false] at hknown
        exact not_uncompilable_iff.2 ⟨hsize, checkOrder_range_iff.1 horder, hknown⟩ h
      cases targets with
      | newest => cases hx
      | one y => exact select_of_unknown hx hunknown
      | many ys => exact select_of_unknown hx hunknown

/-! ### What targets lead to -/

/-- The entry with one name refers to the entry with another. -/
def Refers (t : Table) (x y : String) : Prop :=
  ∃ a, t.entry? x = some a ∧ y ∈ a.occurrences ∧ t.contains y = true

/-- The entries that targets are about: all of them for the newest one, and
otherwise those that the given names lead to through references. -/
def LeadsTo (t : Table) : Targets → String → Prop
  | .newest, x => t.contains x = true
  | .one y, x => Relation.ReflTransGen t.Refers y x
  | .many ys, x => ∃ y ∈ ys, Relation.ReflTransGen t.Refers y x

/-- What is needed for names is what they lead to. -/
theorem mem_needed_iff (ht : t.Ordered) {names : List String}
    (hknown : ∀ y ∈ names, t.contains y = true) :
    (∃ i ∈ t.needed names, t.name i = x) ↔
      ∃ y ∈ names, Relation.ReflTransGen t.Refers y x := by
  constructor
  · rintro ⟨i, hi, rfl⟩
    refine dependencies_induction
      (P := fun i => ∃ y ∈ names, Relation.ReflTransGen t.Refers y (t.name i)) ?_ ?_ i hi
    · rintro i a j ⟨y, hy, hreach⟩ ha hj
      obtain ⟨z, hz, hzj⟩ := mem_references.1 hj
      obtain ⟨hjlt, rfl⟩ := index?_eq_some_iff.1 hzj
      exact ⟨y, hy, hreach.tail ⟨a, entry?_name ha, hz, contains_name hjlt⟩⟩
    · intro i hi
      obtain ⟨y, hy, hindex⟩ := List.mem_filterMap.1 hi
      obtain ⟨-, rfl⟩ := index?_eq_some_iff.1 hindex
      exact ⟨_, hy, .refl⟩
  · rintro ⟨y, hy, hreach⟩
    induction hreach with
    | refl =>
        obtain ⟨i, hi, rfl⟩ := contains_iff.1 (hknown y hy)
        exact ⟨i, mem_needed hi hy, rfl⟩
    | tail _ hstep ih =>
        obtain ⟨i, hi, rfl⟩ := ih
        obtain ⟨a, hentry, hz, hcontains⟩ := hstep
        obtain ⟨j, hj, rfl⟩ := contains_iff.1 hcontains
        obtain ⟨k, hname, ha⟩ := entry?_eq_some_iff.1 hentry
        obtain rfl : k = i := name_inj hname
        exact ⟨j, references_dependencies ht hi ha (mem_references.2 ⟨_, hz, index?_name hj⟩), rfl⟩

/-! ### The entries of an evaluator -/

/-- The entries that are compiled for targets, in order. -/
def selection (t : Table) : Targets → List Nat
  | .newest => List.range t.size
  | .one x => (t.needed [x]).reverse
  | .many xs => (t.needed xs).reverse

theorem mem_selection_iff (h : ¬t.Uncompilable targets) :
    (∃ i ∈ t.selection targets, t.name i = x) ↔ t.LeadsTo targets x := by
  obtain ⟨-, hordered, hknown⟩ := not_uncompilable_iff.1 h
  cases targets with
  | newest =>
      simp only [selection, List.mem_range, LeadsTo]
      exact contains_iff.symm
  | one y =>
      simp only [selection, List.mem_reverse, LeadsTo]
      have hall : ∀ z ∈ [y], t.contains z = true := hknown
      have hneeded := mem_needed_iff (x := x) hordered hall
      simpa using hneeded
  | many ys =>
      simp only [selection, List.mem_reverse, LeadsTo]
      exact mem_needed_iff hordered hknown

theorem selection_sublist (t : Table) (targets : Targets) :
    (t.selection targets).Sublist (List.range t.size) := by
  have hneeded (names : List String) : (t.needed names).reverse.Sublist (List.range t.size) := by
    have hascending : (t.needed names).reverse.Pairwise (· < ·) :=
      List.pairwise_reverse.2 (pairwise_dependencies _ _)
    have hmem : (t.needed names).reverse ⊆ List.range t.size := fun i hi =>
      List.mem_range.2 (mem_of_mem_dependencies (List.mem_reverse.1 hi))
    exact List.sublist_of_subperm_of_pairwise
      (List.subperm_of_subset (hascending.imp Nat.ne_of_lt) hmem) hascending List.pairwise_lt_range
  cases targets with
  | newest => exact .refl _
  | one x => exact hneeded [x]
  | many xs => exact hneeded xs

theorem entries_of_compile (h : t.compile targets = .ok ev) :
    ev.entries = t.program (t.selection targets) := by
  cases targets with
  | newest =>
      unfold compile at h
      split at h
      · cases h
      · split at h
        · cases h
        · exact (assembles_of_assemble h).entries
  | one y => exact (compile_eq_ok rfl h).2.2.entries
  | many ys => exact (compile_eq_ok rfl h).2.2.entries

/-- Where nothing else stands in its way, compiling takes that what is selected can be written and
read. -/
theorem assembly_of_compilable (hoperators : t.All fun _ => Operable) (h : ¬t.Uncompilable targets) :
    Assembly (t.program (t.selection targets)) (t.compile targets) := by
  obtain ⟨hsize, hordered, hknown⟩ := not_uncompilable_iff.1 h
  have horder := checkOrder_range_iff.2 hordered
  have hselect {names : List String} {single : Bool} {hlone : single = true → names ≠ []}
      (hall : ∀ y ∈ names, t.contains y = true) :
      Assembly (t.program (t.needed names).reverse) (t.select names single hlone) := by
    rw [select, dif_pos hall]
    exact assembly_assemble _ _ hoperators
  rw [compile, dif_neg hsize, horder]
  cases targets with
  | newest => exact assembly_assemble _ _ hoperators
  | one y => exact hselect hknown
  | many ys => exact hselect hknown

theorem names_program {is : List Nat} (h : ∀ i ∈ is, i < t.size) :
    (t.program is).map Prod.fst = is.map t.name := by
  induction is with
  | nil => rfl
  | cons i is ih =>
      rw [List.forall_mem_cons] at h
      obtain ⟨a, ha⟩ : ∃ a, t.entries[i]? = some a := ⟨_, Array.getElem?_eq_getElem h.1⟩
      simp only [program, List.filterMap_cons, ha, Option.map_some, List.map_cons]
      rw [← ih h.2]
      rfl

/-! ### Inputs -/

theorem nodup_addInputs {found : List String} (h : found.Nodup) (e : Formula) :
    (t.addInputs found e).Nodup := by
  unfold addInputs
  generalize e.variableNames = xs
  induction xs generalizing found with
  | nil => exact h
  | cons z xs ih =>
      rw [List.foldl_cons]
      split
      · exact ih h
      · rename_i hz
        simp only [Bool.or_eq_true, not_or, List.contains_iff_mem] at hz
        exact ih (List.nodup_append.2 ⟨h, List.nodup_singleton z, by grind⟩)

theorem nodup_inputs (h : t.compile targets = .ok ev) : ev.inputs.Nodup := by
  obtain ⟨-, is, -, hassemble, -⟩ := exists_closed_of_compile h
  rw [hassemble.inputs]
  refine List.foldlRecOn _ _ (motive := List.Nodup) List.nodup_nil fun found hfound entry _ => ?_
  exact nodup_addInputs hfound entry.2

/-! ### The whole selection -/

/-- What an evaluator takes from a table for targets. -/
structure Selects (t : Table) (targets : Targets) (ev : Evaluator) : Prop where
  /-- The names stand in the order of the table. -/
  order : ev.names.Sublist t.names
  mem_names : ∀ x, x ∈ ev.names ↔ t.LeadsTo targets x
  entries : ∀ x a, (x, a) ∈ ev.entries → t.entry? x = some a
  /-- An entry refers to entries before it, which are included. -/
  references : ∀ before x a after, ev.entries = before ++ (x, a) :: after →
    ∀ y ∈ a.occurrences, t.contains y = true → y ∈ before.map Prod.fst
  nodup_inputs : ev.inputs.Nodup
  mem_inputs : ∀ x, x ∈ ev.inputs ↔
    t.contains x = false ∧ ∃ entry ∈ ev.entries, x ∈ entry.2.occurrences

theorem mem_inputs_of_compile (h : t.compile targets = .ok ev) :
    x ∈ ev.inputs ↔ t.contains x = false ∧ ∃ entry ∈ ev.entries, x ∈ entry.2.occurrences := by
  obtain ⟨-, is, -, hassemble, -⟩ := exists_closed_of_compile h
  rw [hassemble.inputs, mem_inputs_iff, hassemble.entries]
  simp

theorem selects_of_compile (hcompile : t.compile targets = .ok ev) (h : ¬t.Uncompilable targets) :
    t.Selects targets ev := by
  have hentries := entries_of_compile hcompile
  have hlt : ∀ i ∈ t.selection targets, i < t.size := fun i hi =>
    List.mem_range.1 ((selection_sublist t targets).subset hi)
  have hnames : ev.names = (t.selection targets).map t.name := by
    rw [Evaluator.names, hentries, names_program hlt]
  refine ⟨?_, fun x => ?_, fun x a hxa => ?_, fun before x a after hsplit y hy hknown => ?_,
    nodup_inputs hcompile, fun x => mem_inputs_of_compile hcompile⟩
  · rw [hnames]
    exact (selection_sublist t targets).map t.name
  · rw [hnames, List.mem_map]
    exact mem_selection_iff h
  · rw [hentries] at hxa
    obtain ⟨i, -, rfl, ha⟩ := mem_program.1 hxa
    exact entry?_name ha
  · have hstraight := straight_of_compile hcompile
    rw [hsplit] at hstraight
    -- A name of the table is no input, so it is bound by an entry before this one.
    refine (hstraight.reads hy).resolve_left fun hinput => ?_
    rw [((mem_inputs_of_compile hcompile).1 hinput).1] at hknown
    cases hknown

/-- The entries that targets lead to. -/
def Covers (t : Table) (targets : Targets) (a : Formula) : Prop :=
  ∃ x, t.LeadsTo targets x ∧ t.entry? x = some a

theorem forall_selection_iff {p : Formula → Prop} (h : ¬t.Uncompilable targets) :
    (∀ entry ∈ t.program (t.selection targets), p entry.2) ↔ ∀ a, t.Covers targets a → p a := by
  constructor
  · rintro hall a ⟨x, hx, ha⟩
    obtain ⟨i, hi, rfl⟩ := (mem_selection_iff h).2 hx
    obtain ⟨j, hname, hj⟩ := entry?_eq_some_iff.1 ha
    obtain rfl : j = i := name_inj hname
    exact hall _ (mem_program.2 ⟨j, hi, rfl, hj⟩)
  · rintro hall ⟨x, a⟩ hentry
    obtain ⟨i, hi, rfl, ha⟩ := mem_program.1 hentry
    exact hall a ⟨t.name i, (mem_selection_iff h).1 ⟨i, hi, rfl⟩, entry?_name ha⟩

/-- Compiling for targets makes an evaluator with a property, unless they lead to an entry that has
too long a whole number or takes too many brackets to write. -/
def Compiles (t : Table) (targets : Targets) (p : Evaluator → Prop) : Prop :=
  ((∃ a, t.Covers targets a ∧ ¬a.Brief) ∧
      t.compile targets = .error (.listing .numberTooLong)) ∨
    (∀ a, t.Covers targets a → a.Brief) ∧
      (((∃ a, t.Covers targets a ∧ Code.bracketLimit < a.nesting) ∧
          t.compile targets = .error .unreadable) ∨
        (∀ a, t.Covers targets a → a.nesting ≤ Code.bracketLimit) ∧
          ∃ ev, t.compile targets = .ok ev ∧ p ev)

theorem Compiles.mono {p q : Evaluator → Prop} (h : t.Compiles targets p)
    (hpq : ∀ ev, t.compile targets = .ok ev → p ev → q ev) : t.Compiles targets q := by
  obtain hlong | ⟨hbrief, hdeep | ⟨hroom, ev, hev, hp⟩⟩ := h
  · exact .inl hlong
  · exact .inr ⟨hbrief, .inl hdeep⟩
  · exact .inr ⟨hbrief, .inr ⟨hroom, ev, hev, hpq ev hev hp⟩⟩

theorem compiles_of_compilable (hoperators : t.All fun _ => Operable)
    (hwords : t.All fun _ e => e.isWorded = true) (h : ¬t.Uncompilable targets) :
    t.Compiles targets (t.Selects targets) := by
  have hworded : ∀ entry ∈ t.program (t.selection targets),
      entry.2.Everywhere fun part => part.isWorded = true := by
    intro entry hentry
    obtain ⟨i, -, -, ha⟩ := mem_program.1 hentry
    exact hwords ha
  have hassembly := assembly_of_compilable hoperators h
  have hselects (ev : Evaluator) (hev : t.compile targets = .ok ev) := selects_of_compile hev h
  unfold Compiles
  generalize t.compile targets = outcome at hassembly hselects ⊢
  cases hassembly with
  | tooLong hlong =>
      rw [forall_selection_iff h] at hlong
      push Not at hlong
      exact .inl ⟨hlong, rfl⟩
  | unreadable hbrief hunreadable =>
      rw [forall_selection_iff h] at hbrief
      refine .inr ⟨hbrief, .inl ⟨?_, rfl⟩⟩
      by_contra hroom
      push Not at hroom
      rw [← forall_selection_iff h] at hroom
      exact hunreadable fun entry hentry => ⟨hworded entry hentry, hroom entry hentry⟩
  | ok ev hbrief hreadable =>
      rw [forall_selection_iff h] at hbrief
      refine .inr ⟨hbrief, .inr ⟨?_, ev, rfl, hselects ev rfl⟩⟩
      rw [← forall_selection_iff h]
      exact fun entry hentry => (hreadable entry hentry).room

/-- Compiling fails for a value just if the table is empty, is out of order or does not know a
target, or the targets lead to an entry that has too long a whole number. Otherwise it fails just if
they lead to an entry that takes too many brackets to write, and selects exactly what the targets
lead to if they do not. -/
theorem compile_selects (hoperators : t.All fun _ => Operable)
    (hwords : t.All fun _ e => e.isWorded = true) (targets : Targets) :
    ((∃ f message, t.compile targets = .error f ∧ f.fault = .value message) ↔
      t.Uncompilable targets ∨ ∃ a, t.Covers targets a ∧ ¬a.Brief) ∧
    ((∃ f, t.compile targets = .error f ∧ f.fault = .unreadable) ↔
      ¬(t.Uncompilable targets ∨ ∃ a, t.Covers targets a ∧ ¬a.Brief) ∧
        ∃ a, t.Covers targets a ∧ Code.bracketLimit < a.nesting) ∧
    (¬(t.Uncompilable targets ∨ ∃ a, t.Covers targets a ∧ ¬a.Brief) →
      (∀ a, t.Covers targets a → a.nesting ≤ Code.bracketLimit) →
        ∃ ev, t.compile targets = .ok ev ∧ t.Selects targets ev) := by
  by_cases h : t.Uncompilable targets
  · obtain ⟨f, message, herror, hfault⟩ := compile_of_uncompilable h
    refine ⟨iff_of_true ⟨f, _, herror, hfault⟩ (.inl h), iff_of_false ?_ ?_,
      fun hcompilable => absurd (.inl h) hcompilable⟩
    · rintro ⟨g, hg, hunreadable⟩
      obtain rfl : f = g := Except.error.inj (herror.symm.trans hg)
      cases hfault.symm.trans hunreadable
    · exact fun hcompilable => hcompilable.1 (.inl h)
  simp only [h, false_or]
  obtain ⟨hlong, herror⟩ | ⟨hbrief, ⟨hdeep, herror⟩ | ⟨hroom, ev, hev, hselects⟩⟩ :=
    compiles_of_compilable hoperators hwords h
  · refine ⟨iff_of_true ⟨_, _, herror, rfl⟩ hlong, iff_of_false ?_ fun hno => hno.1 hlong,
      fun hno => absurd hlong hno⟩
    rintro ⟨f, hf, hfault⟩
    cases herror.symm.trans hf
    cases hfault
  · have hno : ¬∃ a, t.Covers targets a ∧ ¬a.Brief := fun ⟨a, ha, hlong⟩ => hlong (hbrief a ha)
    refine ⟨iff_of_false ?_ hno, iff_of_true ⟨_, herror, rfl⟩ ⟨hno, hdeep⟩, fun _ hroom => ?_⟩
    · rintro ⟨f, message, hf, hfault⟩
      cases herror.symm.trans hf
      cases hfault
    · obtain ⟨a, ha, hdeep⟩ := hdeep
      exact absurd (hroom a ha) (Nat.not_le_of_lt hdeep)
  · have hno : ¬∃ a, t.Covers targets a ∧ ¬a.Brief := fun ⟨a, ha, hlong⟩ => hlong (hbrief a ha)
    refine ⟨iff_of_false ?_ hno, iff_of_false ?_ ?_,
      fun _ _ => ⟨ev, hev, hselects⟩⟩
    · rintro ⟨f, message, hf, -⟩
      cases hev.symm.trans hf
    · rintro ⟨f, hf, -⟩
      cases hev.symm.trans hf
    · rintro ⟨-, a, ha, hdeep⟩
      exact absurd (hroom a ha) (Nat.not_le_of_lt hdeep)

/-- An entry that two others share, and one that no other refers to. -/
def shared : Table where
  stem := "f"
  entries := #[.binary "+" (.variable "a") (.variable "b"), .call "sin" [.variable "f0"],
    .call "cos" [.variable "c"], .binary "*" (.variable "f0") (.variable "f1")]
  lookups := #[(.binary "+" (.variable "a") (.variable "b"), "f0"),
    (.call "sin" [.variable "f0"], "f1"), (.call "cos" [.variable "c"], "f2"),
    (.binary "*" (.variable "f0") (.variable "f1"), "f3")]

theorem shared_refers {x y : String} (hx : x ∈ ["f0", "f1", "f3"]) (h : shared.Refers x y) :
    y ∈ ["f0", "f1", "f3"] := by
  have hsum : shared.entry? "f0" = some (.binary "+" (.variable "a") (.variable "b")) := by rfl
  have hsine : shared.entry? "f1" = some (.call "sin" [.variable "f0"]) := by rfl
  have hproduct : shared.entry? "f3" = some (.binary "*" (.variable "f0") (.variable "f1")) := by
    rfl
  have houtside : shared.contains "a" = false ∧ shared.contains "b" = false := by decide +kernel
  obtain ⟨a, ha, hy, hknown⟩ := h
  simp only [List.mem_cons, List.not_mem_nil, or_false] at hx
  rcases hx with rfl | rfl | rfl
  · rw [hsum] at ha
    cases ha
    simp only [Formula.occurrences, List.cons_append, List.nil_append, List.mem_cons,
      List.not_mem_nil, or_false] at hy
    rcases hy with rfl | rfl <;> simp_all
  · rw [hsine] at ha
    cases ha
    simp_all [Formula.occurrences, Formula.occurrencesAll]
  · rw [hproduct] at ha
    cases ha
    simp_all [Formula.occurrences]
    grind

theorem operable_shared : shared.All fun _ => Operable := by
  intro i a ha
  have hmem : a ∈ shared.entries := Array.mem_of_getElem? ha
  simp only [shared, List.mem_toArray, List.mem_cons, List.not_mem_nil, or_false] at hmem
  rcases hmem with rfl | rfl | rfl | rfl <;>
    simp [Formula.Everywhere, Formula.walk, Formula.walkAll, Operable] <;> decide

theorem isWorded_shared : shared.All fun _ e => e.isWorded = true := by
  have hall : ∀ a ∈ shared.entries, ∀ part ∈ a.walk, part.isWorded = true := by decide +kernel
  exact fun i a ha => hall a (Array.mem_of_getElem? ha)

theorem brief_shared {a : Formula} (h : shared.Covers targets a) :
    a.Brief ∧ a.nesting ≤ Code.bracketLimit := by
  have hall : ∀ a ∈ shared.entries, a.literals = [] ∧ a.nesting ≤ Code.bracketLimit := by
    decide +kernel
  obtain ⟨x, -, hx⟩ := h
  obtain ⟨i, -, ha⟩ := entry?_eq_some_iff.1 hx
  obtain ⟨hliterals, hroom⟩ := hall a (Array.mem_of_getElem? ha)
  exact ⟨by simp [Formula.Brief, hliterals], hroom⟩

/-- Asked for the last entry twice and for one that it refers to, and not for
the one beside them. -/
theorem compile_selects_shared :
    (shared.All fun _ => Operable) ∧ (shared.All fun _ e => e.isWorded = true) ∧
      ¬shared.Uncompilable (.many ["f3", "f1", "f3"]) ∧
      ∃ ev, shared.compile (.many ["f3", "f1", "f3"]) = .ok ev ∧
        shared.Selects (.many ["f3", "f1", "f3"]) ev ∧ "f0" ∈ ev.names ∧ "f2" ∉ ev.names := by
  have hordered : shared.Ordered := by
    have hall : ∀ i < shared.size, ∀ a ∈ shared.entries[i]?, ∀ x ∈ a.occurrences,
        ∀ j ∈ shared.index? x, j < i := by decide +kernel
    exact fun i a ha x j hx hj => hall i (lt_size_of_getElem? ha) a ha x hx j hj
  have hcompilable : ¬shared.Uncompilable (.many ["f3", "f1", "f3"]) :=
    not_uncompilable_iff.2 ⟨by decide, hordered, by decide +kernel⟩
  have hnone : ¬(shared.Uncompilable (.many ["f3", "f1", "f3"]) ∨
      ∃ a, shared.Covers (.many ["f3", "f1", "f3"]) a ∧ ¬a.Brief) := by
    rintro (huncompilable | ⟨a, ha, hlong⟩)
    · exact hcompilable huncompilable
    · exact hlong (brief_shared ha).1
  obtain ⟨ev, hev, hselects⟩ :=
    (compile_selects operable_shared isWorded_shared (.many ["f3", "f1", "f3"])).2.2 hnone
      fun a ha => (brief_shared ha).2
  refine ⟨operable_shared, isWorded_shared, hcompilable, ev, hev, hselects, ?_, ?_⟩
  · have hsine : shared.Refers "f1" "f0" :=
      ⟨.call "sin" [.variable "f0"], rfl, by simp [Formula.occurrences, Formula.occurrencesAll],
        by decide +kernel⟩
    exact (hselects.mem_names _).2 ⟨"f1", by simp, .single hsine⟩
  · rw [hselects.mem_names]
    rintro ⟨y, hy, hreach⟩
    have hclosed : "f2" ∈ ["f0", "f1", "f3"] := by
      refine Relation.ReflTransGen.head_induction_on
        (motive := fun y _ => y ∈ ["f0", "f1", "f3"] → "f2" ∈ ["f0", "f1", "f3"]) hreach id
        (fun hstep _ ih hy => ih (shared_refers hy hstep)) ?_
      simp_all
      grind
    simp at hclosed

/-! ### Too many brackets -/

/-- A sum of a variable and this many more of it. -/
def longSum : Nat → Formula
  | 0 => .variable "a"
  | n + 1 => .binary "+" (longSum n) (.variable "a")

theorem nesting_longSum (n : Nat) : (longSum n).nesting = n + 1 := by
  induction n with
  | zero => rfl
  | succ n ih => simp [longSum, Formula.nesting, ih]

theorem occurrences_longSum {n : Nat} {x : String} (h : x ∈ (longSum n).occurrences) : x = "a" := by
  induction n with
  | zero => simpa [longSum, Formula.occurrences] using h
  | succ n ih =>
      obtain h | h : x ∈ (longSum n).occurrences ∨ x = "a" := by
        simpa [longSum, Formula.occurrences] using h
      · exact ih h
      · exact h

theorem everywhere_longSum (n : Nat) :
    (longSum n).Everywhere fun part => Operable part ∧ part.isWorded = true := by
  induction n with
  | zero => simp [longSum, Formula.Everywhere, Formula.walk, Operable, Formula.isWorded]
  | succ n ih =>
      refine (Formula.everywhere_iff _ _).2 ⟨⟨rfl, rfl⟩, ?_⟩
      simp only [longSum, Formula.children, List.forall_mem_cons]
      refine ⟨ih, ?_, by simp⟩
      simp [Formula.Everywhere, Formula.walk, Operable, Formula.isWorded]

/-- The size of the least number that has a digit too many. -/
def longNumber : Formula := .call "abs" [.number (.int (10 ^ wholeDigitLimit))]

/-- A constant whose name is no word. -/
def wordless : Formula := .unary "-" (.constant "1 +")

/-- A table with one entry. -/
def single (e : Formula) : Table where
  stem := "f"
  entries := #[e]
  lookups := #[(e, "f0")]

theorem getElem?_single {e a : Formula} {i : Nat} (h : (single e).entries[i]? = some a) :
    i = 0 ∧ a = e := by
  obtain ⟨hi, rfl⟩ := Array.getElem?_eq_some_iff.1 h
  have hlt : i < 1 := hi
  obtain rfl : i = 0 := by omega
  exact ⟨rfl, rfl⟩

/-- Nothing but what is written stands in the way of compiling one entry that does not refer to
itself. -/
theorem compilable_single {e : Formula} (h : "f0" ∉ e.occurrences) :
    ¬(single e).Uncompilable (.many ["f0"]) := by
  refine not_uncompilable_iff.2 ⟨one_ne_zero, fun i a ha x j hx hj => ?_, fun x hx => ?_⟩
  · obtain ⟨hlt, rfl⟩ := index?_eq_some_iff.1 hj
    obtain rfl : j = 0 := by
      have : j < 1 := hlt
      omega
    obtain ⟨-, rfl⟩ := getElem?_single ha
    exact absurd hx h
  · obtain rfl := List.mem_singleton.1 hx
    exact contains_name (t := single e) (i := 0) Nat.one_pos

/-- What is wrong with how one entry is written. -/
theorem compile_single {e : Formula} (hoperators : e.Everywhere Operable)
    (hname : "f0" ∉ e.occurrences) (h : ¬(e.Brief ∧ Readable e)) :
    ((single e).All fun _ => Operable) ∧ ¬(single e).Uncompilable (.many ["f0"]) ∧
      ¬∃ ev, (single e).compile (.many ["f0"]) = .ok ev := by
  have hcompilable := compilable_single hname
  have hall : (single e).All fun _ => Operable := fun i a ha => by
    obtain ⟨-, rfl⟩ := getElem?_single ha
    exact hoperators
  refine ⟨hall, hcompilable, ?_⟩
  rintro ⟨ev, hev⟩
  have hcovers : (single e).Covers (.many ["f0"]) e :=
    ⟨"f0", ⟨"f0", List.mem_singleton_self _, .refl⟩, entry?_name (t := single e) (i := 0) rfl⟩
  have hassembly := assembly_of_compilable hall hcompilable
  rw [hev] at hassembly
  cases hassembly with
  | ok _ hbrief hreadable =>
      exact h ⟨(forall_selection_iff hcompilable).1 hbrief e hcovers,
        (forall_selection_iff hcompilable).1 hreadable e hcovers⟩

/-- Formulas of known operators that cannot be written or read. -/
def unreadables : List Formula := [longSum 200, longNumber, wordless]

theorem compile_unreadable {e : Formula} (h : e ∈ unreadables) :
    ((single e).All fun _ => Operable) ∧ ¬(single e).Uncompilable (.many ["f0"]) ∧
      ¬∃ ev, (single e).compile (.many ["f0"]) = .ok ev := by
  simp only [unreadables, List.mem_cons, List.not_mem_nil, or_false] at h
  obtain rfl | rfl | rfl := h
  · refine compile_single (fun part hpart => (everywhere_longSum 200 part hpart).1)
      (fun hname => by simpa using occurrences_longSum hname) fun hwritten => ?_
    have := hwritten.2.room
    rw [nesting_longSum, Code.bracketLimit] at this
    omega
  · refine compile_single (by simp [longNumber, Formula.Everywhere, Formula.walk, Formula.walkAll,
      Operable]) (by simp [longNumber, Formula.occurrences, Formula.occurrencesAll])
      fun hwritten => ?_
    have hshort := hwritten.1 _ List.mem_cons_self
    simp [Int.natAbs_pow] at hshort
  · refine compile_single (by simp [wordless, Formula.Everywhere, Formula.walk, Operable]; rfl)
      (by simp [wordless, Formula.occurrences]) fun hwritten => ?_
    have := hwritten.2.words (.constant "1 +") (by simp [wordless, Formula.walk])
    exact absurd this (by decide)

/-- Some tables in order over known operators cannot be compiled for names they have: those whose only
entry cannot be written or read. -/
theorem not_compile_unreadables :
    (¬∀ (t : Table) (targets : Targets), (t.All fun _ => Operable) → ¬t.Uncompilable targets →
      ∃ ev, t.compile targets = .ok ev) ∧
    ∀ e ∈ unreadables, ((single e).All fun _ => Operable) ∧ ¬(single e).Uncompilable (.many ["f0"]) ∧
      ¬∃ ev, (single e).compile (.many ["f0"]) = .ok ev := by
  refine ⟨fun h => ?_, fun _ => compile_unreadable⟩
  obtain ⟨hoperable, hcompilable, hfails⟩ := compile_unreadable (List.mem_cons_self : longSum 200 ∈ _)
  exact hfails (h _ _ hoperable hcompilable)

end Table

end Gantry.Memo
