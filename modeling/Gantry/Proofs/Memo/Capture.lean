import Gantry.Proofs.Memo.Execution

/-!
Variables that are named like entries. A new table names its entries without
regard to the variables of the formula, and compiling notices a variable with
the name of an entry only if the entry comes too late. A variable with the name
of an earlier entry is taken for a reference to it, and its value in the scope
is lost.
-/

namespace Gantry

def Number.isWhole : Number → Bool
  | .int _ => true
  | .real _ => false

theorem Number.eq_of_same_of_isWhole {m n : Number} (hm : m.isWhole = true) (hn : n.isWhole = true)
    (h : m.same n = true) : m = n := by
  cases m with
  | real x => cases hm
  | int j =>
      cases n with
      | real x => cases hn
      | int k => exact congrArg Number.int (of_decide_eq_true h)

theorem Number.isFinite_of_isWhole {n : Number} (h : n.isWhole = true) : n.isFinite = true := by
  cases n with
  | int k => rfl
  | real x => cases h

namespace Memo.Table

variable {stem x : String} {e : Formula} {item : Item} {t : Table} {s : Scope}

theorem literalsIn_of_optimize [Stack] (hitem : item.formula = .ok e)
    (hwhole : ∀ n ∈ e.literals, n.isWhole = true)
    (hoptimize : (empty stem).optimize [item] = (.ok [x], t)) :
    t.LiteralsIn fun n => n.isWhole = true := by
  obtain ⟨rfl, -, hliterals⟩ := answered_single hitem hoptimize
  exact literalsIn_after (hliterals ▸ hwhole)

/-- The name that a formula of whole literals is given by a new table expands
to what the formula expands to. -/
theorem evaluate_expand_of_optimize [Stack] (hitem : item.formula = .ok e)
    (hwhole : ∀ n ∈ e.literals, n.isWhole = true)
    (hoptimize : (empty stem).optimize [item] = (.ok [x], t)) (ht : t.Ordered) (s : Scope) :
    (t.expand (.variable x)).evaluate s = (t.expand e).evaluate s := by
  have hentries := literalsIn_of_optimize hitem hwhole hoptimize
  obtain ⟨rfl, hanswered, -⟩ := answered_single hitem hoptimize
  have hsame := (respects_expand ht).answered (keyed_empty stem) (fun _ _ => trivial)
    (hanswered ▸ List.mem_cons_self)
  have hkey := Formula.eq_of_same (fun m n hm hn => Number.eq_of_same_of_isWhole hm hn) hsame
    (by simpa using forall_literals_expand hentries (by simp [Formula.literals]))
    (by simpa using forall_literals_expand hentries hwhole)
  exact Formula.evaluate_eq_of_key_eq hkey

/-- Whatever entries a formula refers to by its own variables, the entry of its
name depends on them. -/
theorem respects_references {N : Nat → Prop}
    (hN : ∀ {i a j}, N i → t.entries[i]? = some a → j ∈ t.references a → N j) :
    Respects t (fun _ => True) fun a b => (∀ j ∈ t.references a, N j) → ∀ j ∈ t.references b, N j := by
  have hmem {a b : Formula} (h : a.occurrences = b.occurrences) {j : Nat}
      (hj : j ∈ t.references b) : j ∈ t.references a := by
    obtain ⟨y, hy, hyj⟩ := mem_references.1 hj
    exact mem_references.2 ⟨y, h ▸ hy, hyj⟩
  refine ⟨fun hab hbc ha => hbc (hab ha), ?ofKey, ?node, ?entry⟩
  case ofKey =>
      intro a b hkey _ ha j hj
      refine ha j (hmem ?_ hj)
      rw [← Formula.occurrences_key a, hkey, Formula.occurrences_key]
  case node =>
      intro e parts htriv hlength hparts hall j hj
      obtain ⟨y, hy, hyj⟩ := mem_references.1 hj
      obtain ⟨c, hc, hyc⟩ := (Formula.mem_occurrences_iff_children htriv y).1 hy
      obtain ⟨k, hk, rfl⟩ := List.getElem_of_mem hc
      have hk' : k < parts.length := hlength ▸ hk
      refine hparts.get hk' hk (fun i hi => hall i ?_) j (mem_references.2 ⟨y, hyc, hyj⟩)
      obtain ⟨z, hz, hzi⟩ := mem_references.1 hi
      refine mem_references.2 ⟨z, ?_, hzi⟩
      exact (Formula.mem_occurrences_withChildren htriv hlength z).2 ⟨_, List.getElem_mem hk', hz⟩
  case entry =>
      intro i a e ha hsame _ hname j hj
      have hi : i ∈ t.references (.variable (t.name i)) :=
        mem_references.2 ⟨_, List.mem_singleton_self _, index?_name (lt_size_of_getElem? ha)⟩
      exact hN (hname i hi) ha (hmem (Formula.occurrences_eq_of_sameKey hsame) hj)

theorem references_of_optimize [Stack] (hitem : item.formula = .ok e)
    (hoptimize : (empty stem).optimize [item] = (.ok [x], t)) (ht : t.Ordered) :
    ∀ j ∈ t.references e, j ∈ t.needed [x] := by
  obtain ⟨rfl, hanswered, -⟩ := answered_single hitem hoptimize
  have hclosed := closed_dependencies ht (([x] : List String).filterMap
    ((empty stem).after [.listed [item]]).index?)
  have hrespects := respects_references fun hi ha hj => hclosed.references _ hi _ ha _ hj
  have hreferences := hrespects.answered (keyed_empty stem) (fun _ _ => trivial)
    (hanswered ▸ List.mem_cons_self)
  refine hreferences fun j hj => ?_
  obtain ⟨y, hy, hyj⟩ := mem_references.1 hj
  rw [Formula.occurrences, List.mem_singleton] at hy
  obtain ⟨hlt, rfl⟩ := index?_eq_some_iff.1 hyj
  exact mem_needed hlt (by rw [hy]; exact List.mem_cons_self)

/-- What a new table makes of one formula of whole literals: if it can be
optimized, compiled and run, the answer is the value of the formula in the scope
that the run leaves behind. This is its value in the scope before just when what
was bound to the names of entries makes no difference to it, and always if no
variable of the formula is named like an entry. -/
theorem run_one_iff [Stack] (hitem : item.formula = .ok e) (hwhole : ∀ n ∈ e.literals, n.isWhole = true)
    (hoptimize : (empty stem).optimize [item] = (.ok [x], t)) {ev : Evaluator}
    (hcompile : t.compile (.one x) = .ok ev) {answer : Answer}
    (hrun : (ev.run s).1 = .ok answer) :
    (∃ v, answer = .one v ∧ e.evaluate (ev.run s).2 = .ok v) ∧
      ((∃ v, answer = .one v ∧ e.evaluate s = .ok v) ↔
        e.evaluate (ev.run s).2 = e.evaluate s) ∧
      ((∀ y ∈ e.occurrences, t.contains y = false) →
        e.evaluate (ev.run s).2 = e.evaluate s) := by
  obtain ⟨ht, hknown, hassemble⟩ := compile_eq_ok rfl hcompile
  have htargets := hassemble.targets
  have hsingle := hassemble.single
  have hfinite : t.LiteralsIn fun n => n.isFinite = true := fun i a ha n hn =>
    Number.isFinite_of_isWhole (literalsIn_of_optimize hitem hwhole hoptimize ha n hn)
  obtain ⟨f, hf, -⟩ | ⟨hok, hcomputed⟩ := run_cases rfl hcompile hfinite s
  · rw [hf] at hrun
    cases hrun
  · have hlt : ∀ i ∈ t.needed [x], i < t.size := fun i hi => mem_of_mem_dependencies hi
    have hafter : e.evaluate (ev.run s).2 = .ok (((ev.run s).2[x]?).getD none) := by
      rw [hcomputed.evaluate ht hlt (references_of_optimize hitem hoptimize ht),
        ← evaluate_expand_of_optimize hitem hwhole hoptimize ht,
        hcomputed.evaluate_name ht List.mem_cons_self (hknown x List.mem_cons_self)]
    have hanswer : answer = .one (((ev.run s).2[x]?).getD none) := by
      rw [hok] at hrun
      rw [← Except.ok.inj hrun, Evaluator.answer, hsingle, htargets]
      rfl
    rw [hanswer, hafter]
    refine ⟨⟨_, rfl, rfl⟩, ⟨?_, fun he => ⟨_, rfl, he.symm⟩⟩, fun hy => ?_⟩
    · rintro ⟨v, hv, he⟩
      rw [he, Answer.one.inj hv]
    · rw [← hafter]
      refine Formula.evaluateIn_congr fun y hmem => hcomputed.frame y ?_
      rintro i hi rfl
      have houtside := hy _ hmem
      rw [contains_name (hlt i hi)] at houtside
      cases houtside

/-! ### A variable lost -/

/-- A formula whose variable `f0` is named like the entry of its second part. -/
def captured : Formula := .binary "+" (.variable "f0") (.call "abs" [.variable "x"])

def capturedTable : Table := ((empty "f").optimize [.tree captured]).2

/-- The evaluator for that formula, in which both operands are the entry. -/
def capturing : Evaluator where
  entries := [("f0", .call "abs" [.variable "x"]),
    ("f1", .binary "+" (.variable "f0") (.variable "f0"))]
  inputs := ["x"]
  targets := ["f1"]
  single := true
  listing := "def evaluate(scope):\n    scope['f0'] = _fn_abs(scope['x'])\n" ++
    "    scope['f1'] = _op_add(scope['f0'], scope['f0'])\n    return scope['f1']\n"
  script := {
    assignments := [("f0", .call "_fn_abs" [.item "x"]),
      ("f1", .call "_op_add" [.item "f0", .item "f0"])]
    returned := .item "f1" }
  written := by decide +kernel
  defined := by cbv
  found := by decide
  lone := by decide

def capturedScope : Scope :=
  (({} : Scope).insert "f0" (some (.real (Binary64.ofInt 1)))).insert "x"
    (some (.real (Binary64.ofInt 3)))

theorem optimize_captured :
    (empty "f").optimize [.tree captured] = (.ok ["f1"], capturedTable) := by
  with_unfolding_all rfl

theorem variableNames_abs_captured :
    (Formula.call "abs" [.variable "x"]).variableNames = ["x"] := by
  simp [Formula.variableNames, Formula.occurrences, Formula.dedupSorted]

theorem variableNames_sum_captured :
    (Formula.binary "+" (.variable "f0") (.variable "f0")).variableNames = ["f0"] := by
  have hsorted : (["f0", "f0"].mergeSort fun a b => decide (a ≤ b)) = ["f0", "f0"] :=
    List.mergeSort_of_pairwise (by decide +kernel)
  simp [Formula.variableNames, Formula.occurrences, hsorted, Formula.dedupSorted]

theorem compile_captured : capturedTable.compile (.one "f1") = .ok capturing := by
  have hentries : capturedTable.entries =
      #[.call "abs" [.variable "x"], .binary "+" (.variable "f0") (.variable "f0")] := by
    with_unfolding_all rfl
  have hsize : capturedTable.size = 2 := by decide +kernel
  -- The sum refers to the entry before it, which refers to none.
  have habs : capturedTable.references (.call "abs" [.variable "x"]) = [] := by
    rw [references, variableNames_abs_captured]
    decide +kernel
  have hsum : capturedTable.references (.binary "+" (.variable "f0") (.variable "f0")) = [0] := by
    rw [references, variableNames_sum_captured]
    decide +kernel
  have horder : capturedTable.checkOrder [0, 1] = .ok () := by
    simp [checkOrder_eq_ok_iff, hentries, habs, hsum]
  have hneeded : capturedTable.needed ["f1"] = [1, 0] := by
    have hindex : ["f1"].filterMap capturedTable.index? = [1] := by decide +kernel
    rw [needed, hindex, hsize]
    simp [dependencies, hentries, hsum]
  have hknown : ∀ x ∈ ["f1"], capturedTable.contains x = true := by decide +kernel
  have hinputs : capturedTable.addInputs [] (.call "abs" [.variable "x"]) = ["x"] := by
    rw [addInputs, variableNames_abs_captured]
    decide +kernel
  have hinputs' :
      capturedTable.addInputs ["x"] (.binary "+" (.variable "f0") (.variable "f0")) = ["x"] := by
    rw [addInputs, variableNames_sum_captured]
    decide +kernel
  have hprogram : capturedTable.program (capturedTable.needed ["f1"]).reverse = capturing.entries := by
    rw [hneeded]
    with_unfolding_all rfl
  have hnames : (Targets.one "f1").names? = some (["f1"], true) := rfl
  obtain ⟨hlone, hcompile⟩ := compile_eq (t := capturedTable) hnames
  rw [hcompile, if_neg (by omega), hsize]
  rw [show List.range 2 = [0, 1] from rfl, horder]
  dsimp only
  rw [select, dif_pos hknown]
  refine Assembles.assemble ⟨hprogram.symm, rfl, rfl, ?_⟩ _ _
  rw [hprogram]
  simp [capturing, hinputs, hinputs']

theorem evaluateIn_abs_captured {M : Meaning} (hM : M.function "abs" = .ok .abs) :
    (Formula.call "abs" [.variable "x"]).evaluateIn M capturedScope =
      .ok (some (.real (Binary64.ofInt 3))) := by
  refine Formula.evaluateIn_call_eq_ok_iff.2
    ⟨.abs, [some (.real (Binary64.ofInt 3))], hM, ?_, by decide +kernel⟩
  simp [Formula.evaluateAllIn, Formula.evaluateIn, capturedScope, bind, Except.bind, pure,
    Except.pure]

theorem run_capturing :
    (capturing.run capturedScope).1 = .ok (.one (some (.real (Binary64.ofInt 6)))) := by
  have habs := evaluateIn_abs_captured (M := Meaning.compiled) rfl
  have hsum : (Formula.binary "+" (.variable "f0") (.variable "f0")).evaluateIn Meaning.compiled
      (capturedScope.insert "f0" (some (.real (Binary64.ofInt 3)))) =
        .ok (some (.real (Binary64.ofInt 6))) := by
    have hvariable : (Formula.variable "f0").evaluateIn Meaning.compiled
        (capturedScope.insert "f0" (some (.real (Binary64.ofInt 3)))) =
          .ok (some (.real (Binary64.ofInt 3))) :=
      Formula.evaluateIn_variable_eq_ok_iff.2 Std.HashMap.getElem?_insert_self
    exact Formula.evaluateIn_binary_eq_ok_iff.2
      ⟨.add, _, _, rfl, hvariable, hvariable, by decide +kernel⟩
  have hbound : capturedScope.contains "x" = true := by simp [capturedScope]
  simp [Evaluator.run_eq, Evaluator.missing, Evaluator.bindAll, Evaluator.answer, capturing, habs,
    hsum, hbound]

theorem run_one_iff_captured :
    (empty "f").optimize [.tree captured] = (.ok ["f1"], capturedTable) ∧
      capturedTable.compile (.one "f1") = .ok capturing ∧
      ((∃ v, Answer.one (some (.real (Binary64.ofInt 6))) = .one v ∧
          captured.evaluate capturedScope = .ok v) ↔
        captured.evaluate (capturing.run capturedScope).2 = captured.evaluate capturedScope) :=
  ⟨optimize_captured, compile_captured,
    (run_one_iff rfl (by simp [captured, Formula.literals]) optimize_captured compile_captured
      run_capturing).2.1⟩

/-- With `f0` at 1 and `x` at 3, the formula `f0 + abs(x)` is 4, but a new
optimizer compiles it to an evaluator that returns 6. -/
theorem captured_variable_lost :
    ∃ (t : Table) (ev : Evaluator) (s : Scope) (v w : Operand),
      (empty "f").optimize [.tree captured] = (.ok ["f1"], t) ∧ t.compile (.one "f1") = .ok ev ∧
        (ev.run s).1 = .ok (.one v) ∧ captured.evaluate s = .ok w ∧ v ≠ w := by
  refine ⟨capturedTable, capturing, capturedScope, some (.real (Binary64.ofInt 6)),
    some (.real (Binary64.ofInt 4)), optimize_captured, compile_captured, run_capturing, ?_,
    by decide +kernel⟩
  have hvariable : (Formula.variable "f0").evaluateIn Meaning.direct capturedScope =
      .ok (some (.real (Binary64.ofInt 1))) :=
    Formula.evaluateIn_variable_eq_ok_iff.2 (by simp [capturedScope, Std.HashMap.getElem_insert])
  have habs := evaluateIn_abs_captured (M := Meaning.direct) rfl
  exact Formula.evaluateIn_binary_eq_ok_iff.2
    ⟨.add, _, _, rfl, hvariable, habs, by decide +kernel⟩

end Memo.Table

end Gantry
