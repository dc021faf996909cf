import Gantry.Proofs.Memo.Compilation
import Gantry.Proofs.Memo.Expansion
import Gantry.Proofs.Formula.Evaluation

/-!
Running evaluators. Each entry is computed in a scope in which the entries it
refers to are bound already, so what is bound to its name is the value its
expansion has in the scope at the beginning. A run fails just when one of the
expansions has no value there.
-/

namespace Gantry.Memo.Table

open Evaluator (bindAll)

variable {t : Table} {is : List Nat} {s s' : Scope}

theorem bindAll_append (xs ys : List (String × Formula)) (s : Scope) :
    bindAll (xs ++ ys) s =
      match (bindAll xs s).1 with
      | .error f => (.error f, (bindAll xs s).2)
      | .ok () => bindAll ys (bindAll xs s).2 := by
  induction xs generalizing s with
  | nil => rfl
  | cons entry xs ih =>
      obtain ⟨x, e⟩ := entry
      rw [List.cons_append, bindAll, bindAll]
      cases e.evaluateIn Meaning.compiled s with
      | error f => rfl
      | ok v => exact ih _

theorem program_append (is js : List Nat) :
    t.program (is ++ js) = t.program is ++ t.program js := List.filterMap_append

/-! ### Scopes in which entries are bound -/

/-- A scope holds the values that the expansions of given entries have in
another one, and differs from it in nothing else. -/
structure Computed (t : Table) (is : List Nat) (s s' : Scope) : Prop where
  entry : ∀ i ∈ is, ∀ a, t.entries[i]? = some a →
    ∃ v, s'[t.name i]? = some v ∧ (t.expand a).evaluate s = .ok v
  frame : ∀ x, (∀ i ∈ is, t.name i ≠ x) → s'[x]? = s[x]?

/-- A formula that refers to no other entries than these has the value of its
expansion. -/
theorem Computed.evaluate (h : t.Computed is s s') (ht : t.Ordered) (hlt : ∀ i ∈ is, i < t.size)
    {e : Formula} (he : ∀ j ∈ t.references e, j ∈ is) :
    e.evaluate s' = (t.expand e).evaluate s := by
  rw [expand_eq ht, Formula.evaluate, Formula.evaluate]
  refine (Formula.evaluateIn_replace fun x hx => ?_).symm
  cases hentry : t.entry? x with
  | none =>
      have hframe : s'[x]? = s[x]? :=
        h.frame x fun j hj => name_ne_of_contains_eq_false (entry?_eq_none_iff.1 hentry) (hlt j hj)
      rw [Option.map_none, Option.getD_none, Formula.evaluateIn, Formula.evaluateIn, hframe]
  | some a =>
      obtain ⟨i, rfl, ha⟩ := entry?_eq_some_iff.1 hentry
      have hi := he i (mem_references.2 ⟨_, hx, index?_name (lt_size_of_getElem? ha)⟩)
      obtain ⟨v, hv, hvalue⟩ := h.entry i hi a ha
      rw [Option.map_some, Option.getD_some, Formula.evaluateIn, hv]
      exact hvalue

theorem computed_nil (s : Scope) : t.Computed [] s s := ⟨by simp, fun _ _ => rfl⟩

theorem Computed.insert (h : t.Computed is s s') {i : Nat} {a : Formula} {v : Operand}
    (hi : ∀ j ∈ is, j < i) (ha : t.entries[i]? = some a) (hv : (t.expand a).evaluate s = .ok v) :
    t.Computed (i :: is) s (s'.insert (t.name i) v) := by
  refine ⟨List.forall_mem_cons.2 ⟨?_, fun j hj b hb => ?_⟩, fun x hx => ?_⟩
  · intro b hb
    rw [ha] at hb
    cases hb
    exact ⟨v, Std.HashMap.getElem?_insert_self, hv⟩
  · have hne : ¬(t.name i == t.name j) = true := by
      have := hi j hj
      rw [beq_iff_eq]
      intro hname
      have := name_inj hname
      omega
    rw [Std.HashMap.getElem?_insert, if_neg hne]
    exact h.entry j hj b hb
  · obtain ⟨hxi, hx⟩ := List.forall_mem_cons.1 hx
    rw [Std.HashMap.getElem?_insert, if_neg (by simpa using hxi)]
    exact h.frame x hx

/-! ### Runs -/

theorem Closed.tail {i : Nat} (h : t.Closed (i :: is)) (ht : t.Ordered) :
    t.Closed is ∧ (∀ j ∈ is, j < i) ∧
      ∀ a, t.entries[i]? = some a → ∀ j ∈ t.references a, j ∈ is := by
  obtain ⟨hi, hdescending⟩ := List.pairwise_cons.1 h.descending
  -- The head of the list is the greatest entry, to which no entry of the list refers.
  have hbelow {k j : Nat} {a : Formula} (hk : k ≤ i) (ha : t.entries[k]? = some a)
      (hj : j ∈ t.references a) (hmem : j ∈ i :: is) : j ∈ is := by
    obtain ⟨x, hx, hxj⟩ := mem_references.1 hj
    have hjk : j < k := ht ha hx hxj
    rcases List.mem_cons.1 hmem with rfl | hmem
    · omega
    · exact hmem
  refine ⟨⟨hdescending, fun j hj => h.lt_size j (List.mem_cons_of_mem _ hj), ?_⟩, hi, ?_⟩
  · intro k hk a ha j hj
    exact hbelow (hi k hk).le ha hj (h.references k (List.mem_cons_of_mem _ hk) a ha j hj)
  · intro a ha j hj
    exact hbelow (Nat.le_refl i) ha hj (h.references i List.mem_cons_self a ha j hj)

/-- Whether the expansion of an entry has a value. -/
def HasValue (t : Table) (s : Scope) (i : Nat) : Prop :=
  ∀ a, t.entries[i]? = some a → ∃ v, (t.expand a).evaluate s = .ok v

/-- Running entries binds each to the value of its expansion, or stops at one
that has none. -/
theorem bindAll_program (ht : t.Ordered)
    (hfinite : t.LiteralsIn fun n => n.isFinite = true)
    (h : t.Closed is) (s : Scope) :
    (∃ f, (bindAll (t.program is.reverse) s).1 = .error f ∧ ∃ i ∈ is, ¬t.HasValue s i) ∨
      (bindAll (t.program is.reverse) s).1 = .ok () ∧
        t.Computed is s (bindAll (t.program is.reverse) s).2 := by
  induction is with
  | nil => exact .inr ⟨rfl, computed_nil s⟩
  | cons i is ih =>
      obtain ⟨hclosed, hlt, hreferences⟩ := h.tail ht
      have hi := h.lt_size i List.mem_cons_self
      have ha : t.entries[i]? = some t.entries[i] := Array.getElem?_eq_getElem hi
      have hprogram : t.program [i] = [(t.name i, t.entries[i])] := by simp [program, ha]
      rw [List.reverse_cons, program_append, hprogram, bindAll_append]
      obtain ⟨f, hf, j, hj, hnone⟩ | ⟨hok, hcomputed⟩ := ih hclosed
      · rw [hf]
        exact .inl ⟨f, rfl, j, List.mem_cons_of_mem _ hj, hnone⟩
      · rw [hok]
        dsimp only
        rw [bindAll]
        -- All that the entry refers to is bound by now.
        have hvalue := hcomputed.evaluate ht (fun j hj => (hlt j hj).trans hi) (hreferences _ ha)
        cases hentry : t.entries[i].evaluateIn Meaning.compiled
            (bindAll (t.program is.reverse) s).2 with
        | error f =>
            refine .inl ⟨f, rfl, i, List.mem_cons_self, fun hsome => ?_⟩
            obtain ⟨v, hv⟩ := hsome _ ha
            rw [← hvalue, ← Formula.evaluateIn_compiled_eq_ok_iff (hfinite ha), hentry] at hv
            cases hv
        | ok v =>
            rw [Formula.evaluateIn_compiled_eq_ok_iff (hfinite ha), hvalue] at hentry
            exact .inr ⟨rfl, hcomputed.insert hlt ha hentry⟩

/-- An expansion has a value only if those of all entries it refers to have. -/
theorem hasValue_of_references (ht : t.Ordered) {e : Formula} {v : Operand}
    (h : (t.expand e).evaluate s = .ok v) : ∀ j ∈ t.references e, t.HasValue s j := by
  intro j hj a ha
  obtain ⟨x, hx, hxj⟩ := mem_references.1 hj
  obtain ⟨-, rfl⟩ := index?_eq_some_iff.1 hxj
  rw [expand_eq ht] at h
  obtain ⟨w, hw⟩ := Formula.exists_of_evaluateIn_replace h hx
  rw [entry?_name ha] at hw
  exact ⟨w, hw⟩

/-- Without the variables it takes from the scope no expansion has a value. -/
theorem contains_of_expand (ht : t.Ordered) {e : Formula} {v : Operand} {x : String}
    (h : (t.expand e).evaluate s = .ok v) (hx : x ∈ e.occurrences)
    (houtside : t.contains x = false) :
    s.contains x = true := by
  rw [expand_eq ht] at h
  obtain ⟨w, hw⟩ := Formula.exists_of_evaluateIn_replace h hx
  rw [entry?_eq_none_iff.2 houtside, Option.map_none, Option.getD_none,
    Formula.evaluateIn_variable_eq_ok_iff] at hw
  rw [Std.HashMap.contains_eq_isSome_getElem?, hw]
  rfl

/-- If the names asked for have values, so has everything they depend on. -/
theorem hasValue_of_needed (ht : t.Ordered) {names : List String}
    (h : ∀ i, t.name i ∈ names → t.HasValue s i) : ∀ i ∈ t.needed names, t.HasValue s i := by
  refine dependencies_induction (fun hi ha hj => ?_) fun i hi => ?_
  · obtain ⟨v, hv⟩ := hi _ ha
    exact hasValue_of_references ht hv _ hj
  · obtain ⟨x, hx, hxi⟩ := List.mem_filterMap.1 hi
    obtain ⟨-, rfl⟩ := index?_eq_some_iff.1 hxi
    exact h i hx

/-- All that can become of a run: it fails, and one of the names asked for has
no value, or it binds everything needed. -/
theorem run_cases {targets : Targets} {names : List String} {single : Bool} {ev : Evaluator}
    (hnames : targets.names? = some (names, single)) (hcompile : t.compile targets = .ok ev)
    (hfinite : t.LiteralsIn fun n => n.isFinite = true)
    (s : Scope) :
    (∃ f, (ev.run s).1 = .error f ∧ ∃ i, t.name i ∈ names ∧ ¬t.HasValue s i) ∨
      (ev.run s).1 = .ok (ev.answer (ev.run s).2) ∧
        t.Computed (t.needed names) s (ev.run s).2 := by
  obtain ⟨ht, -, hassemble⟩ := compile_eq_ok hnames hcompile
  obtain ⟨hentries, -, -, hinputs⟩ := hassemble
  -- A failure is traced back from the entry that has no value to a name asked for.
  have hfailed {i : Nat} (hi : i ∈ t.needed names) (hnone : ¬t.HasValue s i) :
      ∃ i, t.name i ∈ names ∧ ¬t.HasValue s i := by
    by_contra hall
    push Not at hall
    exact hnone (hasValue_of_needed ht hall i hi)
  cases hmissing : ev.missing s with
  | nil =>
      rw [Evaluator.run_eq, hmissing, hentries]
      obtain ⟨f, hf, i, hi, hnone⟩ | ⟨hok, hcomputed⟩ :=
        bindAll_program ht hfinite (closed_dependencies ht (names.filterMap t.index?)) s
      · refine .inl ⟨f, ?_, hfailed hi hnone⟩
        rw [needed, ← Prod.mk.eta (p := bindAll _ s), hf]
      · refine .inr ?_
        rw [needed, ← Prod.mk.eta (p := bindAll _ s), hok]
        exact ⟨rfl, hcomputed⟩
  | cons x rest =>
      -- An input that is missing is a variable of some entry needed, which has no value then.
      obtain ⟨hx, hunbound⟩ := List.mem_filter.1 (hmissing ▸ List.mem_cons_self : x ∈ ev.missing s)
      rw [hinputs] at hx
      obtain hx | ⟨houtside, entry, hentry, hmem⟩ := mem_inputs_iff.1 hx
      · cases hx
      · obtain ⟨i, hi, -, ha⟩ := mem_program.1 hentry
        refine .inl ⟨.unbound (x :: rest), by rw [Evaluator.run_eq, hmissing],
          hfailed (List.mem_reverse.1 hi) fun hsome => ?_⟩
        obtain ⟨v, hv⟩ := hsome _ ha
        simp [contains_of_expand ht hv hmem houtside] at hunbound

/-- What is bound to a name asked for is the value of its expansion. -/
theorem Computed.evaluate_name {names : List String} (h : t.Computed (t.needed names) s s')
    (ht : t.Ordered) {x : String} (hx : x ∈ names) (hknown : t.contains x = true) :
    (t.expand (.variable x)).evaluate s = .ok ((s'[x]?).getD none) := by
  obtain ⟨i, hi, rfl⟩ := contains_iff.1 hknown
  have ha : t.entries[i]? = some t.entries[i] := Array.getElem?_eq_getElem hi
  obtain ⟨v, hv, hvalue⟩ := h.entry i (mem_needed hi hx) _ ha
  rw [expand_variable ht ha, hvalue, hv]
  rfl

end Gantry.Memo.Table
