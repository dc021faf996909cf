import Gantry.Proofs.Memo.Capture

/-!
What a run does to the scope it is given. The entries of an evaluator are a
straight line: each is computed from inputs and from entries before it, and
none is bound twice. A run therefore reads nothing it has not bound itself,
apart from its inputs, leaves all other names alone, and can be repeated.
-/

namespace Gantry.Formula

variable {e : Formula} {s : Scope}

/-- A compiled evaluator has values only for finite literals. -/
theorem isFinite_of_evaluateIn_compiled {v : Operand} (h : e.evaluateIn Meaning.compiled s = .ok v) :
    ∀ n ∈ e.literals, n.isFinite = true := by
  induction e generalizing v with
  | number n =>
      cases n with
      | int k => simp [literals, Number.isFinite]
      | real x =>
          simp only [evaluateIn, Meaning.compiled] at h
          split at h
          · simpa [literals, Number.isFinite]
          · cases h
  | constant c => simp [literals]
  | var x => simp [literals]
  | group e ih => exact ih h
  | unary op e ih =>
      obtain ⟨o, a, -, ha, -⟩ := evaluateIn_unary_eq_ok_iff.1 h
      exact ih ha
  | binary op l r ihl ihr =>
      obtain ⟨o, a, b, -, ha, hb, -⟩ := evaluateIn_binary_eq_ok_iff.1 h
      exact fun n hn => (List.mem_append.1 hn).elim (ihl ha n) (ihr hb n)
  | call f args ih =>
      obtain ⟨g, vs, -, hvs, -⟩ := evaluateIn_call_eq_ok_iff.1 h
      rw [evaluateAllIn_eq_ok_iff] at hvs
      rw [literals, literalsAll_eq]
      intro n hn
      obtain ⟨a, ha, hn⟩ := List.mem_flatMap.1 hn
      obtain ⟨i, hi, rfl⟩ := List.getElem_of_mem ha
      exact ih _ ha (hvs.get hi (hvs.length_eq ▸ hi)) n hn

/-- What a compiled evaluator computes is the value of the formula. -/
theorem evaluate_of_evaluateIn_compiled {v : Operand}
    (h : e.evaluateIn Meaning.compiled s = .ok v) : e.evaluate s = .ok v :=
  (evaluateIn_compiled_eq_ok_iff (isFinite_of_evaluateIn_compiled h)).1 h

theorem bind_eq_error_iff {ε α β : Type} {x : Except ε α} {k : α → Except ε β} {f : ε} :
    x >>= k = .error f ↔ x = .error f ∨ ∃ a, x = .ok a ∧ k a = .error f := by
  cases x <;> simp [bind, Except.bind]

/-- Failures that come of a name which the scope does not hold. -/
def Misses : EvalFailure → Prop
  | .unbound _ | .absent _ => True
  | _ => False

theorem not_misses_of_mapError {α : Type} {x : Except OperandFailure α} {f : EvalFailure}
    (h : x.mapError EvalFailure.operand = .error f) : ¬Misses f := by
  cases x with
  | error cause =>
      obtain rfl : EvalFailure.operand cause = f := Except.error.inj h
      exact not_false
  | ok a => cases h

theorem exists_mem_of_evaluateAllIn {M : Meaning} {es : List Formula} {f : EvalFailure}
    (h : evaluateAllIn M s es = .error f) : ∃ e ∈ es, e.evaluateIn M s = .error f := by
  induction es with
  | nil => cases h
  | cons e es ih =>
      rw [evaluateAllIn, bind_eq_error_iff] at h
      obtain he | ⟨v, -, hes⟩ := h
      · exact ⟨e, List.mem_cons_self, he⟩
      · obtain hes | ⟨vs, -, hok⟩ := bind_eq_error_iff.1 hes
        · obtain ⟨a, ha, hfails⟩ := ih hes
          exact ⟨a, List.mem_cons_of_mem _ ha, hfails⟩
        · cases hok

/-- A compiled evaluator misses a variable only where the scope does. -/
theorem exists_missing {f : EvalFailure} (hf : Misses f)
    (h : e.evaluateIn Meaning.compiled s = .error f) : ∃ x ∈ e.occurrences, s[x]? = none := by
  induction e with
  | number n =>
      cases n with
      | int k => cases h
      | real x =>
          simp only [evaluateIn, Meaning.compiled] at h
          split at h <;> cases h
          exact hf.elim
  | constant c =>
      simp only [evaluateIn, Meaning.compiled] at h
      split at h <;> cases h
      exact hf.elim
  | var x =>
      refine ⟨x, by simp [occurrences], ?_⟩
      rw [evaluateIn] at h
      cases hx : s[x]? with
      | none => rfl
      | some v => simp [hx] at h
  | group e ih => exact ih h
  | unary op e ih =>
      rw [evaluateIn] at h
      split at h
      · cases h
        exact hf.elim
      · obtain he | ⟨a, -, happly⟩ := bind_eq_error_iff.1 h
        · exact ih he
        · exact absurd hf (not_misses_of_mapError happly)
  | binary op l r ihl ihr =>
      rw [evaluateIn] at h
      split at h
      · cases h
        exact hf.elim
      · obtain hl | ⟨a, -, h⟩ := bind_eq_error_iff.1 h
        · obtain ⟨x, hx, hnone⟩ := ihl hl
          exact ⟨x, List.mem_append_left _ hx, hnone⟩
        · obtain hr | ⟨b, -, happly⟩ := bind_eq_error_iff.1 h
          · obtain ⟨x, hx, hnone⟩ := ihr hr
            exact ⟨x, List.mem_append_right _ hx, hnone⟩
          · exact absurd hf (not_misses_of_mapError happly)
  | call f args ih =>
      rw [evaluateIn] at h
      obtain hg | ⟨g, -, h⟩ := bind_eq_error_iff.1 h
      · simp only [Meaning.compiled] at hg
        split at hg <;> cases hg
        exact hf.elim
      · obtain hargs | ⟨vs, -, happly⟩ := bind_eq_error_iff.1 h
        · obtain ⟨a, ha, hfails⟩ := exists_mem_of_evaluateAllIn hargs
          obtain ⟨x, hx, hnone⟩ := ih a ha hfails
          exact ⟨x, mem_occurrences_call.2 ⟨a, ha, hx⟩, hnone⟩
        · exact absurd hf (not_misses_of_mapError happly)

end Gantry.Formula

namespace Gantry.Memo

namespace Evaluator

variable {entries done rest : List (String × Formula)} {bound : List String} {r s : Scope}

/-- Entries that are computed from what is bound already, and bind nothing
twice. -/
def Straight (bound : List String) : List (String × Formula) → Prop
  | [] => True
  | (x, e) :: rest => x ∉ bound ∧ (∀ y ∈ e.occurrences, y ∈ bound) ∧ Straight (x :: bound) rest

theorem Straight.notMem_names (h : Straight bound entries) {y : String} (hy : y ∈ bound) :
    y ∉ entries.map Prod.fst := by
  induction entries generalizing bound with
  | nil => simp
  | cons entry rest ih =>
      obtain ⟨x, e⟩ := entry
      obtain ⟨hx, -, hrest⟩ := h
      rw [List.map_cons, List.mem_cons, not_or]
      refine ⟨?_, ih hrest (List.mem_cons_of_mem _ hy)⟩
      rintro rfl
      exact hx hy

theorem Straight.reads {x : String} {e : Formula}
    (h : Straight bound (done ++ (x, e) :: rest)) {y : String} (hy : y ∈ e.occurrences) :
    y ∈ bound ∨ y ∈ done.map Prod.fst := by
  induction done generalizing bound with
  | nil => exact .inl (h.2.1 y hy)
  | cons entry done ih =>
      obtain ⟨z, a⟩ := entry
      obtain hbound | hdone := ih h.2.2
      · rcases List.mem_cons.1 hbound with rfl | hbound
        · exact .inr (by simp)
        · exact .inl hbound
      · exact .inr (by simp [hdone])

/-- Each name is bound to the value that its entry has in the same scope. -/
def Bound (entries : List (String × Formula)) (s : Scope) : Prop :=
  ∀ x e, (x, e) ∈ entries → ∃ v, s[x]? = some v ∧ e.evaluateIn Meaning.compiled s = .ok v

/-- How far entries were computed. The entries done are bound and nothing else
is changed; the next one, if there is any, has no value. -/
structure Reached (done rest : List (String × Formula)) (s s' : Scope)
    (outcome : Except EvalFailure Unit) : Prop where
  bound : Bound done s'
  frame : ∀ y, y ∉ done.map Prod.fst → s'[y]? = s[y]?
  next : match outcome with
    | .ok () => rest = []
    | .error f => ∃ x e, rest.head? = some (x, e) ∧ e.evaluateIn Meaning.compiled s' = .error f

theorem exists_reached (h : Straight bound entries) (s : Scope) :
    ∃ done rest, entries = done ++ rest ∧
      Reached done rest s (bindAll entries s).2 (bindAll entries s).1 := by
  induction entries generalizing bound s with
  | nil => exact ⟨[], [], rfl, ⟨by simp [Bound], fun _ _ => rfl, rfl⟩⟩
  | cons entry entries ih =>
      obtain ⟨x, e⟩ := entry
      obtain ⟨hfresh, hreads, htail⟩ := h
      rw [bindAll]
      cases he : e.evaluateIn Meaning.compiled s with
      | error f =>
          exact ⟨[], (x, e) :: entries, rfl,
            ⟨by simp [Bound], fun _ _ => rfl, x, e, rfl, he⟩⟩
      | ok v =>
          obtain ⟨done, rest, rfl, hreached⟩ := ih htail (s.insert x v)
          have hkeeps {y : String} (hy : y ∈ x :: bound) :
              (bindAll (done ++ rest) (s.insert x v)).2[y]? = (s.insert x v)[y]? :=
            hreached.frame y fun hmem => htail.notMem_names hy (by
              rw [List.map_append]
              exact List.mem_append_left _ hmem)
          have hx : (bindAll (done ++ rest) (s.insert x v)).2[x]? = some v := by
            rw [hkeeps List.mem_cons_self, Std.HashMap.getElem?_insert_self]
          -- What the entry reads is neither its own name nor bound later, so it keeps its value.
          have hvalue : e.evaluateIn Meaning.compiled (bindAll (done ++ rest) (s.insert x v)).2 =
              .ok v := by
            rw [← he]
            refine Formula.evaluateIn_congr fun y hy => ?_
            have hne : ¬(x == y) = true := by
              rw [beq_iff_eq]
              rintro rfl
              exact hfresh (hreads _ hy)
            rw [hkeeps (List.mem_cons_of_mem _ (hreads y hy)), Std.HashMap.getElem?_insert,
              if_neg hne]
          refine ⟨(x, e) :: done, rest, rfl, ⟨?_, ?_, hreached.next⟩⟩
          · intro y a hy
            rcases List.mem_cons.1 hy with hy | hy
            · obtain ⟨rfl, rfl⟩ : y = x ∧ a = e := by simpa using hy
              exact ⟨v, hx, hvalue⟩
            · exact hreached.bound y a hy
          · intro y hy
            rw [List.map_cons, List.mem_cons, not_or] at hy
            rw [hreached.frame y hy.2, Std.HashMap.getElem?_insert,
              if_neg (by simpa using Ne.symm hy.1)]

/-- A run depends only on what is bound at its beginning: two scopes that agree
on that have the same outcome, and stay apart only in names not bound. -/
theorem bindAll_congr (h : Straight bound entries) (hagree : ∀ y ∈ bound, r[y]? = s[y]?) :
    (bindAll entries r).1 = (bindAll entries s).1 ∧
      ((bindAll entries s).1 = .ok () → ∀ y, (y ∉ entries.map Prod.fst → r[y]? = s[y]?) →
        (bindAll entries r).2[y]? = (bindAll entries s).2[y]?) := by
  induction entries generalizing bound r s with
  | nil => exact ⟨rfl, fun _ y hy => hy (by simp)⟩
  | cons entry entries ih =>
      obtain ⟨x, e⟩ := entry
      obtain ⟨-, hreads, htail⟩ := h
      have hvalue : e.evaluateIn Meaning.compiled r = e.evaluateIn Meaning.compiled s :=
        Formula.evaluateIn_congr fun y hy => hagree y (hreads y hy)
      rw [bindAll, bindAll, hvalue]
      cases he : e.evaluateIn Meaning.compiled s with
      | error f => exact ⟨rfl, fun h => by cases h⟩
      | ok v =>
          have hinsert {y : String} (hy : y ≠ x → r[y]? = s[y]?) :
              (r.insert x v)[y]? = (s.insert x v)[y]? := by
            rw [Std.HashMap.getElem?_insert, Std.HashMap.getElem?_insert]
            by_cases hxy : (x == y) = true
            · rw [if_pos hxy, if_pos hxy]
            · rw [if_neg hxy, if_neg hxy]
              exact hy (by simpa using Ne.symm (by simpa using hxy))
          obtain ⟨houtcome, hscope⟩ := ih htail (r := r.insert x v) (s := s.insert x v)
            fun y hy => hinsert fun hne => hagree y ((List.mem_cons.1 hy).resolve_left hne)
          refine ⟨houtcome, fun hok y hy => hscope hok y fun hmem => hinsert fun hne => hy ?_⟩
          rw [List.map_cons, List.mem_cons, not_or]
          exact ⟨hne, hmem⟩

/-! ### Runs -/

variable {ev : Evaluator} {answer : Answer} {s' : Scope}

theorem missing_eq_nil_iff : ev.missing s = [] ↔ ∀ x ∈ ev.inputs, s.contains x = true := by
  simp [missing]

theorem run_of_bound (h : ∀ x ∈ ev.inputs, s.contains x = true) :
    ev.run s = ((bindAll ev.entries s).1.map fun _ => ev.answer (bindAll ev.entries s).2,
      (bindAll ev.entries s).2) := by
  rw [run_eq, missing_eq_nil_iff.2 h]
  dsimp only
  split <;> simp_all [Except.map]

/-- A run succeeds just when its inputs are there and all entries are computed. -/
theorem run_eq_ok_iff : ev.run s = (.ok answer, s') ↔
    (∀ x ∈ ev.inputs, s.contains x = true) ∧ bindAll ev.entries s = (.ok (), s') ∧
      answer = ev.answer s' := by
  by_cases hinputs : ∀ x ∈ ev.inputs, s.contains x = true
  · rw [run_of_bound hinputs]
    obtain ⟨outcome, after⟩ := bindAll ev.entries s
    cases outcome with
    | error f => simp [Except.map]
    | ok u =>
        simp only [Except.map, Prod.mk.injEq, Except.ok.injEq, true_and]
        constructor
        · rintro ⟨rfl, rfl⟩
          exact ⟨hinputs, rfl, rfl⟩
        · rintro ⟨-, rfl, rfl⟩
          exact ⟨rfl, rfl⟩
  · rw [← missing_eq_nil_iff] at hinputs
    have hmissing : ev.run s = (.error (.unbound (ev.missing s)), s) := by
      rw [run]
      split
      · contradiction
      · rfl
    rw [hmissing, ← missing_eq_nil_iff]
    simp [hinputs]

end Evaluator

namespace Table

open Evaluator (Straight)

variable {t : Table} {targets : Targets} {ev : Evaluator}

/-! ### Compiled entries are a straight line -/

theorem straight_program {is : List Nat} {bound : List String} (hascending : is.Pairwise (· < ·))
    (hlt : ∀ i ∈ is, i < t.size) (hfresh : ∀ i ∈ is, t.name i ∉ bound)
    (hreads : ∀ i ∈ is, ∀ a, t.entries[i]? = some a → ∀ y ∈ a.occurrences,
      y ∈ bound ∨ ∃ j ∈ is, j < i ∧ t.name j = y) :
    Straight bound (t.program is) := by
  induction is generalizing bound with
  | nil => trivial
  | cons i is ih =>
      obtain ⟨hi, hascending⟩ := List.pairwise_cons.1 hascending
      have hsize : i < t.size := hlt i List.mem_cons_self
      have ha : t.entries[i]? = some t.entries[i] := Array.getElem?_eq_getElem hsize
      have hprogram : t.program (i :: is) = (t.name i, t.entries[i]) :: t.program is := by
        simp [program, ha]
      rw [hprogram]
      refine ⟨hfresh i List.mem_cons_self, fun y hy => ?_, ih hascending
        (fun j hj => hlt j (List.mem_cons_of_mem _ hj)) (fun j hj => ?_) fun k hk a hka y hy => ?_⟩
      · -- The first entry can refer to no other one of the list.
        refine (hreads i List.mem_cons_self _ ha y hy).resolve_right ?_
        rintro ⟨j, hj, hji, -⟩
        rcases List.mem_cons.1 hj with rfl | hj
        · omega
        · have := hi j hj
          omega
      · rw [List.mem_cons, not_or]
        refine ⟨fun hname => ?_, hfresh j (List.mem_cons_of_mem _ hj)⟩
        have := hi j hj
        have := name_inj hname
        omega
      · obtain hy | ⟨j, hj, hjk, rfl⟩ := hreads k (List.mem_cons_of_mem _ hk) a hka y hy
        · exact .inl (List.mem_cons_of_mem _ hy)
        · rcases List.mem_cons.1 hj with rfl | hj
          · exact .inl List.mem_cons_self
          · exact .inr ⟨j, hj, hjk, rfl⟩

/-- Whatever is asked for, an evaluator computes entries with all that they
refer to, among them its targets. -/
theorem exists_closed_of_compile (h : t.compile targets = .ok ev) :
    t.Ordered ∧ ∃ is, t.Closed is ∧ t.Assembles is.reverse ev.targets ev.single ev ∧
      (∀ x ∈ ev.targets, ∃ i ∈ is, ∃ a, t.entries[i]? = some a ∧ t.name i = x) ∧
      (ev.single = true → ∃ x, ev.targets = [x]) := by
  cases hnames : targets.names? with
  | some wanted =>
      obtain ⟨names, single⟩ := wanted
      obtain ⟨ht, hknown, hassemble⟩ := compile_eq_ok hnames h
      obtain rfl := hassemble.targets
      obtain rfl := hassemble.single
      refine ⟨ht, t.needed ev.targets, closed_dependencies ht _, hassemble, fun x hx => ?_, ?_⟩
      · obtain ⟨i, hi, rfl⟩ := contains_iff.1 (hknown x hx)
        exact ⟨i, mem_needed hi hx, _, Array.getElem?_eq_getElem hi, rfl⟩
      · cases targets with
        | newest => cases hnames
        | one x =>
            obtain ⟨htargets, -⟩ : [x] = ev.targets ∧ true = ev.single := by
              simpa [Targets.names?] using hnames
            exact fun _ => ⟨x, htargets.symm⟩
        | many xs =>
            obtain ⟨-, hsingle⟩ : xs = ev.targets ∧ false = ev.single := by
              simpa [Targets.names?] using hnames
            exact fun hone => absurd (hsingle.trans hone) Bool.false_ne_true
  | none =>
      have hnewest : targets = .newest := by cases targets <;> simp_all [Targets.names?]
      subst hnewest
      unfold compile at h
      split at h
      · cases h
      · rename_i hsize
        split at h
        · cases h
        · rename_i horder
          have ht := checkOrder_range_iff.1 horder
          have hassemble := assembles_of_assemble h
          rw [hassemble.targets, hassemble.single]
          refine ⟨ht, (List.range t.size).reverse, ⟨?_, ?_, ?_⟩, by rwa [List.reverse_reverse], ?_,
            fun _ => ⟨_, rfl⟩⟩
          · rw [List.pairwise_reverse]
            exact List.pairwise_lt_range
          · simp
          · intro i hi a ha j hj
            obtain ⟨x, hx, hxj⟩ := mem_references.1 hj
            have := ht ha hx hxj
            simp only [List.mem_reverse, List.mem_range] at hi ⊢
            omega
          · simp only [List.mem_singleton, List.mem_reverse, List.mem_range, forall_eq]
            have hlast : t.size - 1 < t.size := by omega
            exact ⟨t.size - 1, hlast, _, Array.getElem?_eq_getElem hlast, rfl⟩

theorem straight_of_compile (h : t.compile targets = .ok ev) : Straight ev.inputs ev.entries := by
  obtain ⟨ht, is, hclosed, hassemble, -⟩ := exists_closed_of_compile h
  have hinputs := hassemble.inputs
  rw [hassemble.entries]
  refine straight_program ?_ ?_ ?_ ?_
  · rw [List.pairwise_reverse]
    exact hclosed.descending
  · exact fun i hi => hclosed.lt_size i (List.mem_reverse.1 hi)
  · intro i hi hinput
    rw [hinputs] at hinput
    obtain hnone | ⟨houtside, -⟩ := mem_inputs_iff.1 hinput
    · cases hnone
    · exact name_ne_of_contains_eq_false houtside (hclosed.lt_size i (List.mem_reverse.1 hi)) rfl
  · intro i hi a ha y hy
    cases hcontains : t.contains y with
    | false =>
        refine .inl ?_
        rw [hinputs]
        exact mem_inputs_iff.2 (.inr ⟨hcontains, _, mem_program.2 ⟨i, hi, rfl, ha⟩, hy⟩)
    | true =>
        obtain ⟨j, hj, rfl⟩ := contains_iff.1 hcontains
        have hreference : j ∈ t.references a := mem_references.2 ⟨_, hy, index?_name hj⟩
        have hmem : j ∈ is := hclosed.references i (List.mem_reverse.1 hi) a ha j hreference
        exact .inr ⟨j, List.mem_reverse.2 hmem, ht ha hy (index?_name hj), rfl⟩

/-! ### Effects -/

/-- What a run of an evaluator of a table does to the scope it is given. -/
structure Effect (t : Table) (ev : Evaluator) (s : Scope) : Prop where
  /-- Where inputs are missing, all of them are named and nothing is done. -/
  missing : (ev.inputs.filter fun x => !s.contains x) ≠ [] →
    ev.run s = (.error (.unbound (ev.inputs.filter fun x => !s.contains x)), s)
  /-- A failure later on comes from an entry that has no value, and only the
  entries before it have been bound. -/
  failed : ∀ f s', (∀ x ∈ ev.inputs, s.contains x = true) → ev.run s = (.error f, s') →
    ¬Formula.Misses f ∧ ∃ done x e rest, ev.entries = done ++ (x, e) :: rest ∧
      e.evaluateIn Meaning.compiled s' = .error f ∧
      (∀ y a, (y, a) ∈ done → ∃ v, s'[y]? = some v ∧ a.evaluate s' = .ok v) ∧
      ∀ y, y ∉ done.map Prod.fst → s'[y]? = s[y]?
  frame : ∀ answer s', ev.run s = (.ok answer, s') → ∀ y, y ∉ ev.names → s'[y]? = s[y]?
  bound : ∀ answer s', ev.run s = (.ok answer, s') → ∀ x ∈ ev.names, ∃ e v,
    t.entry? x = some e ∧ s'[x]? = some v ∧ e.evaluate s' = .ok v
  answer : ∀ answer s', ev.run s = (.ok answer, s') →
    answer.values.map some = ev.targets.map fun x => s'[x]?
  /-- What the names of the entries held before makes no difference. -/
  stale : ∀ answer s', ev.run s = (.ok answer, s') → ∀ r : Scope,
    (∀ y, y ∉ ev.names → r[y]? = s[y]?) →
      ∃ r', ev.run r = (.ok answer, r') ∧ ∀ y : String, r'[y]? = s'[y]?
  again : ∀ answer s', ev.run s = (.ok answer, s') →
    ∃ s'', ev.run s' = (.ok answer, s'') ∧ ∀ y : String, s''[y]? = s'[y]?

theorem names_disjoint_inputs (h : t.compile targets = .ok ev) {x : String} (hx : x ∈ ev.inputs) :
    x ∉ ev.names :=
  (straight_of_compile h).notMem_names hx

/-- A run that succeeds binds all entries and nothing else. -/
theorem bound_of_run (h : t.compile targets = .ok ev) {s s' : Scope} {answer : Answer}
    (hrun : ev.run s = (.ok answer, s')) :
    Evaluator.Bound ev.entries s' ∧ ∀ y, y ∉ ev.names → s'[y]? = s[y]? := by
  obtain ⟨-, hbind, -⟩ := Evaluator.run_eq_ok_iff.1 hrun
  obtain ⟨done, rest, hentries, hreached⟩ := Evaluator.exists_reached (straight_of_compile h) s
  rw [hbind] at hreached
  obtain rfl : rest = [] := hreached.next
  obtain rfl : ev.entries = done := by rw [hentries, List.append_nil]
  exact ⟨hreached.bound, hreached.frame⟩

/-- Runs of a compiled evaluator from scopes that differ only in names of its
entries end alike. -/
theorem run_stale (h : t.compile targets = .ok ev) {r s s' : Scope} {answer : Answer}
    (hrun : ev.run s = (.ok answer, s')) (hr : ∀ y, y ∉ ev.names → r[y]? = s[y]?) :
    ∃ r', ev.run r = (.ok answer, r') ∧ ∀ y : String, r'[y]? = s'[y]? := by
  obtain ⟨hinputs, hbound, rfl⟩ := Evaluator.run_eq_ok_iff.1 hrun
  have hagree (x : String) (hx : x ∈ ev.inputs) : r[x]? = s[x]? :=
    hr x (names_disjoint_inputs h hx)
  obtain ⟨houtcome, hscope⟩ := Evaluator.bindAll_congr (straight_of_compile h) hagree
  rw [hbound] at houtcome hscope
  have hsame (y : String) : (Evaluator.bindAll ev.entries r).2[y]? = s'[y]? := hscope rfl y (hr y)
  refine ⟨(Evaluator.bindAll ev.entries r).2, Evaluator.run_eq_ok_iff.2 ⟨fun x hx => ?_, ?_, ?_⟩,
    hsame⟩
  · rw [Std.HashMap.contains_eq_isSome_getElem?, hagree x hx,
      ← Std.HashMap.contains_eq_isSome_getElem?]
    exact hinputs x hx
  · rw [← Prod.mk.eta (p := Evaluator.bindAll ev.entries r), houtcome]
  · simp only [Evaluator.answer, hsame]

/-- The entry that a run comes to misses nothing: all that it reads is an input or has been bound. -/
theorem not_misses_of_reached (h : t.compile targets = .ok ev) {s s' : Scope}
    {done rest : List (String × Formula)} {x : String} {e : Formula} {f : EvalFailure}
    {outcome : Except EvalFailure Unit} (hentries : ev.entries = done ++ (x, e) :: rest)
    (hinputs : ∀ y ∈ ev.inputs, s.contains y = true)
    (hreached : Evaluator.Reached done ((x, e) :: rest) s s' outcome)
    (he : e.evaluateIn Meaning.compiled s' = .error f) : ¬Formula.Misses f := by
  intro hmisses
  obtain ⟨y, hy, hnone⟩ := Formula.exists_missing hmisses he
  have hstraight := straight_of_compile h
  rw [hentries] at hstraight
  obtain hinput | hdone := hstraight.reads hy
  · have hkept := hreached.frame y fun hmem => names_disjoint_inputs h hinput (by
      rw [Evaluator.names, hentries, List.map_append]
      exact List.mem_append_left _ hmem)
    have hsome := hinputs y hinput
    rw [Std.HashMap.contains_eq_isSome_getElem?, ← hkept, hnone] at hsome
    cases hsome
  · obtain ⟨⟨_, a⟩, hmem, rfl⟩ := List.mem_map.1 hdone
    obtain ⟨v, hv, -⟩ := hreached.bound _ a hmem
    rw [hnone] at hv
    cases hv

/-- A run answers with what the scope holds under the targets after it. -/
theorem values_answer (h : t.compile targets = .ok ev) {s s' : Scope} {answer : Answer}
    (hrun : ev.run s = (.ok answer, s')) :
    answer.values.map some = ev.targets.map fun x => s'[x]? := by
  obtain ⟨-, is, -, hassemble, htargets, hsingle⟩ := exists_closed_of_compile h
  have hentries := hassemble.entries
  obtain ⟨-, -, rfl⟩ := Evaluator.run_eq_ok_iff.1 hrun
  have hvalue (x : String) (hx : x ∈ ev.targets) : some ((s'[x]?).getD none) = s'[x]? := by
    obtain ⟨i, hi, a, ha, rfl⟩ := htargets x hx
    have hentry : (t.name i, a) ∈ ev.entries := by
      rw [hentries]
      exact mem_program.2 ⟨i, List.mem_reverse.2 hi, rfl, ha⟩
    obtain ⟨v, hv, -⟩ := (bound_of_run h hrun).1 _ _ hentry
    rw [hv, Option.getD_some]
  rw [Evaluator.answer]
  split
  · next hone =>
    obtain ⟨x, hx⟩ := hsingle hone
    simp [hx, Answer.values, hvalue x (by simp [hx])]
  · rw [Answer.values, List.map_map]
    exact List.map_congr_left hvalue

/-- A run of a compiled evaluator needs its inputs, changes nothing but the
names of its entries, binds these to the values of their entries, in order up
to a failure, and can be repeated without changing anything. -/
theorem effect_of_compile (h : t.compile targets = .ok ev) (s : Scope) : Effect t ev s where
  missing hmissing := by
    rw [Evaluator.run_eq]
    split
    · contradiction
    · rfl
  failed f s' hinputs hrun := by
    obtain ⟨done, rest, hentries, hreached⟩ := Evaluator.exists_reached (straight_of_compile h) s
    rw [Evaluator.run_of_bound hinputs, Prod.mk.injEq] at hrun
    obtain ⟨houtcome, rfl⟩ := hrun
    have hfails : (Evaluator.bindAll ev.entries s).1 = .error f := by
      cases hbind : (Evaluator.bindAll ev.entries s).1 with
      | error g => simpa [hbind, Except.map] using houtcome
      | ok u => simp [hbind, Except.map] at houtcome
    rw [hfails] at hreached
    obtain ⟨x, e, hhead, he⟩ := hreached.next
    obtain ⟨rest, rfl⟩ := List.head?_eq_some_iff.1 hhead
    refine ⟨not_misses_of_reached h hentries hinputs hreached he, done, x, e, rest, hentries, he,
      fun y a hy => ?_, hreached.frame⟩
    obtain ⟨v, hv, hvalue⟩ := hreached.bound y a hy
    exact ⟨v, hv, Formula.evaluate_of_evaluateIn_compiled hvalue⟩
  frame _ _ hrun := (bound_of_run h hrun).2
  bound answer s' hrun x hx := by
    obtain ⟨-, is, -, hassemble, -⟩ := exists_closed_of_compile h
    have hentries := hassemble.entries
    obtain ⟨⟨_, e⟩, hentry, rfl⟩ := List.mem_map.1 hx
    obtain ⟨v, hv, hvalue⟩ := (bound_of_run h hrun).1 _ _ hentry
    rw [hentries] at hentry
    obtain ⟨i, -, rfl, ha⟩ := mem_program.1 hentry
    exact ⟨e, v, entry?_name ha, hv, Formula.evaluate_of_evaluateIn_compiled hvalue⟩
  answer _ _ hrun := values_answer h hrun
  stale _ _ hrun _ hr := run_stale h hrun hr
  again answer s' hrun := run_stale h hrun (bound_of_run h hrun).2

/-- The scope holds another value under the name of the first entry, which is
overwritten and never read. -/
theorem effect_of_compile_capturing :
    capturedTable.compile (.one "f1") = .ok capturing ∧
      Effect capturedTable capturing capturedScope :=
  ⟨compile_captured, effect_of_compile compile_captured capturedScope⟩

end Table

end Gantry.Memo
