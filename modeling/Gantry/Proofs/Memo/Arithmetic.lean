import Gantry.Proofs.Formula.Arithmetic
import Gantry.Proofs.Memo.Agreement

/-!
Running evaluators with the arithmetic left open. With machine numbers this is
how evaluators run. Whatever the arithmetic, an evaluator returns the values
that the formulas its targets stand for have in the scope it is given.
-/

namespace Gantry.Memo

variable {ε α : Type} {A : Arithmetic ε α} {s s' : String → Option α}

namespace Evaluator

def bindAllOver (A : Arithmetic ε α) :
    List (String × Formula) → (String → Option α) → Except ε (String → Option α)
  | [], s => .ok s
  | (x, e) :: rest, s => do
    let v ← e.evaluateOver A s
    bindAllOver A rest (Function.update s x (some v))

/-- What is bound to the targets. -/
def results (ev : Evaluator) (s : String → Option α) : List (Option α) :=
  if ev.single then [s (ev.targets.headD "")] else ev.targets.map s

/-- Runs an evaluator in an arithmetic. -/
def runOver (A : Arithmetic ε α) (ev : Evaluator) (s : String → Option α) :
    Except ε (List (Option α)) :=
  match ev.inputs.filter fun x => (s x).isNone with
  | [] => (bindAllOver A ev.entries s).map ev.results
  | names => .error (A.unbound names)

/-! ### Machine numbers -/

theorem bindAllOver_arithmetic (entries : List (String × Formula)) (s : Scope) :
    bindAllOver Meaning.compiled.arithmetic entries (fun x => s[x]?) =
      (bindAll entries s).1.map fun _ x => (bindAll entries s).2[x]? := by
  induction entries generalizing s with
  | nil => rfl
  | cons entry entries ih =>
      obtain ⟨x, e⟩ := entry
      rw [bindAllOver, bindAll, Formula.evaluateOver_arithmetic]
      cases e.evaluateIn Meaning.compiled s with
      | error f => rfl
      | ok v =>
          have hinsert : Function.update (fun y => s[y]?) x (some v) =
              fun y => (s.insert x v)[y]? := by
            funext y
            rw [Std.HashMap.getElem?_insert, Function.update_apply]
            grind
          refine Eq.trans ?_ (ih (s.insert x v))
          rw [← hinsert]
          rfl

/-- With machine numbers an evaluator runs as it does anyway. -/
theorem runOver_arithmetic (ev : Evaluator) (s : Scope) :
    (ev.runOver Meaning.compiled.arithmetic fun x => s[x]?).map (List.map (Option.getD · none)) =
      (ev.run s).1.map Answer.values := by
  have hmissing : (ev.inputs.filter fun x => (s[x]?).isNone) = ev.missing s := by
    refine List.filter_congr fun x _ => ?_
    rw [Std.HashMap.contains_eq_isSome_getElem?, Option.not_isSome]
  rw [runOver, run_eq, hmissing]
  cases ev.missing s with
  | cons x names => rfl
  | nil =>
      dsimp only
      rw [bindAllOver_arithmetic]
      obtain ⟨result, s'⟩ := bindAll ev.entries s
      cases result with
      | error f => rfl
      | ok _ =>
          cases hsingle : ev.single <;>
            simp [Except.map, results, answer, hsingle, Answer.values, Function.comp_def]

end Evaluator

namespace Table

open Evaluator (bindAllOver)

variable {t : Table} {is : List Nat} {names : List String}

theorem bindAllOver_append (xs ys : List (String × Formula)) :
    bindAllOver A (xs ++ ys) s = bindAllOver A xs s >>= bindAllOver A ys := by
  induction xs generalizing s with
  | nil => rfl
  | cons entry xs ih =>
      obtain ⟨x, e⟩ := entry
      rw [List.cons_append, bindAllOver, bindAllOver, bind_assoc]
      exact congrArg _ (funext fun v => ih)

/-- A scope holds the values that the expansions of given entries have in
another one, and differs from it in nothing else. -/
structure ComputedOver (A : Arithmetic ε α) (t : Table) (is : List Nat)
    (s s' : String → Option α) : Prop where
  entry : ∀ i ∈ is, ∀ a, t.entries[i]? = some a →
    ∃ v, s' (t.name i) = some v ∧ (t.expand a).evaluateOver A s = .ok v
  frame : ∀ x, (∀ i ∈ is, t.name i ≠ x) → s' x = s x

theorem ComputedOver.evaluate (h : t.ComputedOver A is s s') (ht : t.Ordered)
    (hlt : ∀ i ∈ is, i < t.size) {e : Formula} (he : ∀ j ∈ t.references e, j ∈ is) :
    e.evaluateOver A s' = (t.expand e).evaluateOver A s := by
  rw [expand_eq ht]
  refine (Formula.evaluateOver_replace fun x hx => ?_).symm
  cases hentry : t.entry? x with
  | none =>
      have hframe : s' x = s x :=
        h.frame x fun j hj => name_ne_of_contains_eq_false (entry?_eq_none_iff.1 hentry) (hlt j hj)
      rw [Option.map_none, Option.getD_none, Formula.evaluateOver, Formula.evaluateOver, hframe]
  | some a =>
      obtain ⟨i, rfl, ha⟩ := entry?_eq_some_iff.1 hentry
      have hi := he i (mem_references.2 ⟨_, hx, index?_name (lt_size_of_getElem? ha)⟩)
      obtain ⟨v, hv, hvalue⟩ := h.entry i hi a ha
      rw [Option.map_some, Option.getD_some, hvalue]
      exact (Formula.evaluateOver_variable_eq_ok_iff.2 hv).symm

theorem ComputedOver.insert (h : t.ComputedOver A is s s') {i : Nat} {a : Formula} {v : α}
    (hi : ∀ j ∈ is, j < i) (ha : t.entries[i]? = some a)
    (hv : (t.expand a).evaluateOver A s = .ok v) :
    t.ComputedOver A (i :: is) s (Function.update s' (t.name i) (some v)) := by
  refine ⟨List.forall_mem_cons.2 ⟨?_, fun j hj b hb => ?_⟩, fun x hx => ?_⟩
  · intro b hb
    rw [ha] at hb
    cases hb
    exact ⟨v, Function.update_self _ _ _, hv⟩
  · have hne : t.name j ≠ t.name i := by
      intro hname
      have := name_inj hname
      have := hi j hj
      omega
    rw [Function.update_of_ne hne]
    exact h.entry j hj b hb
  · obtain ⟨hxi, hx⟩ := List.forall_mem_cons.1 hx
    rw [Function.update_of_ne (Ne.symm hxi)]
    exact h.frame x hx

/-- Entries whose expansions all have values are bound to these. -/
theorem exists_bindAllOver_program (ht : t.Ordered) (h : t.Closed is)
    (hvalues : ∀ i ∈ is, ∀ a, t.entries[i]? = some a → ∃ v, (t.expand a).evaluateOver A s = .ok v) :
    ∃ s', bindAllOver A (t.program is.reverse) s = .ok s' ∧ t.ComputedOver A is s s' := by
  induction is with
  | nil => exact ⟨s, rfl, by simp, fun _ _ => rfl⟩
  | cons i is ih =>
      obtain ⟨hclosed, hlt, hreferences⟩ := h.tail ht
      obtain ⟨hvalue, hvalues⟩ := List.forall_mem_cons.1 hvalues
      have hi := h.lt_size i List.mem_cons_self
      have ha : t.entries[i]? = some t.entries[i] := Array.getElem?_eq_getElem hi
      obtain ⟨v, hv⟩ := hvalue _ ha
      obtain ⟨s', hrun, hcomputed⟩ := ih hclosed hvalues
      -- All that the entry refers to is bound by now.
      have hentry := hcomputed.evaluate ht hclosed.lt_size (hreferences _ ha)
      have hprogram : t.program [i] = [(t.name i, t.entries[i])] := by simp [program, ha]
      refine ⟨_, ?_, hcomputed.insert hlt ha hv⟩
      rw [List.reverse_cons, program_append, hprogram, bindAllOver_append, hrun]
      exact Formula.bind_eq_ok_iff.2 ⟨s', rfl, Formula.bind_eq_ok_iff.2 ⟨v, hentry.trans hv, rfl⟩⟩

/-- If the names asked for have values, so has everything they depend on. -/
theorem exists_value_of_needed (ht : t.Ordered)
    (h : ∀ x ∈ names, ∃ v, (t.expand (.variable x)).evaluateOver A s = .ok v) :
    ∀ i ∈ t.needed names, ∀ a, t.entries[i]? = some a → ∃ v, (t.expand a).evaluateOver A s = .ok v := by
  refine dependencies_induction (fun {i b j} hi ha hj a hja => ?_) fun i hi a ha => ?_
  · obtain ⟨v, hv⟩ := hi _ ha
    obtain ⟨x, hx, hxj⟩ := mem_references.1 hj
    obtain ⟨-, rfl⟩ := index?_eq_some_iff.1 hxj
    rw [expand_eq ht] at hv
    obtain ⟨w, hw⟩ := Formula.exists_of_evaluateOver_replace hv hx
    rw [entry?_name hja] at hw
    exact ⟨w, hw⟩
  · obtain ⟨x, hx, hxi⟩ := List.mem_filterMap.1 hi
    obtain ⟨-, rfl⟩ := index?_eq_some_iff.1 hxi
    obtain ⟨v, hv⟩ := h _ hx
    exact ⟨v, expand_variable ht ha ▸ hv⟩

theorem runOver_compile {ev : Evaluator} {vs : List α} (hcompile : t.compile (.many names) = .ok ev)
    (h : List.Forall₂ (fun x v => (t.expand (.variable x)).evaluateOver A s = .ok v) names vs) :
    ev.runOver A s = .ok (vs.map some) := by
  obtain ⟨ht, hknown, hassemble⟩ := compile_eq_ok rfl hcompile
  obtain ⟨hentries, htargets, hsingle, hinputs⟩ := hassemble
  have hvalues : ∀ x ∈ names, ∃ v, (t.expand (.variable x)).evaluateOver A s = .ok v := by
    intro x hx
    obtain ⟨k, hk, rfl⟩ := List.getElem_of_mem hx
    exact ⟨_, h.get hk (h.length_eq ▸ hk)⟩
  have hneeded := exists_value_of_needed ht hvalues
  obtain ⟨s', hrun, hcomputed⟩ :=
    exists_bindAllOver_program ht (closed_dependencies ht (names.filterMap t.index?)) hneeded
  have hmissing : (ev.inputs.filter fun x => (s x).isNone) = [] := by
    refine List.filter_eq_nil_iff.2 fun x hx => ?_
    rw [hinputs] at hx
    obtain hx | ⟨houtside, entry, hentry, hmem⟩ := mem_inputs_iff.1 hx
    · cases hx
    · obtain ⟨i, hi, -, ha⟩ := mem_program.1 hentry
      obtain ⟨v, hv⟩ := hneeded i (List.mem_reverse.1 hi) _ ha
      rw [expand_eq ht] at hv
      obtain ⟨w, hw⟩ := Formula.exists_of_evaluateOver_replace hv hmem
      rw [entry?_eq_none_iff.2 houtside, Option.map_none, Option.getD_none,
        Formula.evaluateOver_variable_eq_ok_iff] at hw
      simp [hw]
  have hresults : ev.results s' = vs.map some := by
    rw [Evaluator.results, hsingle, htargets, if_neg Bool.false_ne_true]
    refine List.ext_getElem (by simp [h.length_eq]) fun k hk hk' => ?_
    rw [List.length_map] at hk hk'
    have hx := List.getElem_mem hk
    obtain ⟨i, hi, hname⟩ := contains_iff.1 (hknown _ hx)
    have ha : t.entries[i]? = some t.entries[i] := Array.getElem?_eq_getElem hi
    obtain ⟨v, hv, hvalue⟩ := hcomputed.entry i (mem_needed hi (hname ▸ hx)) _ ha
    have hget : (t.expand (.variable names[k])).evaluateOver A s = .ok vs[k] := h.get hk hk'
    rw [← hname, expand_variable ht ha, hvalue] at hget
    rw [List.getElem_map, List.getElem_map, ← hname, hv, Except.ok.inj hget]
  rw [Evaluator.runOver, hmissing, hentries]
  dsimp only
  rw [needed, hrun, Except.map, hresults]

end Table

end Gantry.Memo
