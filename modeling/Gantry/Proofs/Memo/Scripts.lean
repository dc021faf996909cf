import Gantry.Memo.Evaluator
import Gantry.Proofs.Code.Agreement

/-!
Generated functions. The text of a function is read as the function it was
written for, provided that none of its expressions has too many brackets open at
a time, and running the function computes entries one after the other, each with
its meaning in compiled evaluators.
-/

namespace Gantry.Memo

open Formula (Coded)

variable {fuel : Nat} {entries : List (String × Formula)} {targets : List String} {single : Bool}
  {s : Scope}

/-! ### Reading what is returned -/

namespace Script

theorem item?_append {key : String} (hfuel : (itemText key).toList.length ≤ fuel)
    (rest : List Char) : Code.item? fuel ((itemText key).toList ++ rest) = some (key, rest) := by
  rw [Code.toList_itemText] at *
  simp only [List.length_append, List.length_cons] at hfuel
  rw [Code.item?, List.append_assoc, Code.behind?_append, Option.bind_some, List.cons_append,
    List.append_assoc, List.singleton_append, Code.key?_append (by omega)]

theorem exists_cons_itemText (key : String) : ∃ cs, (itemText key).toList = 's' :: cs :=
  ⟨_, by rw [Code.toList_itemText]; rfl⟩

theorem toList_returnText (keys : List String) : (returnText (.items keys)).toList =
    '[' :: ([',', ' '].intercalate (keys.map fun key => (itemText key).toList) ++ [']']) := by
  rw [returnText, String.toList_append, String.toList_append, String.toList_intercalate,
    List.map_map]
  rfl

theorem readReturned_returnText {returned : Returned}
    (hfuel : (returnText returned).toList.length < fuel) :
    readReturned fuel ((returnText returned).toList ++ ['\n']) = some returned := by
  cases returned with
  | item key =>
      have hitem := item?_append (Nat.le_of_lt hfuel) ['\n']
      obtain ⟨cs, hcs⟩ := exists_cons_itemText key
      rw [hcs] at hitem
      rw [returnText, hcs, List.cons_append, readReturned, ← List.cons_append, hitem]
      · rfl
      · rintro rest ⟨⟩
  | items keys =>
      have hheads : ∀ cs ∈ keys.map fun key => (itemText key).toList, ∃ c ∈ cs.head?, c ≠ ']' := by
        rw [List.forall_mem_map]
        intro key _
        obtain ⟨cs, hcs⟩ := exists_cons_itemText key
        exact ⟨'s', by rw [hcs]; rfl, by decide⟩
      have hlengths := (Code.length_add_one_le fun cs hcs hnil => by
        obtain ⟨c, hc, -⟩ := hheads cs hcs
        simp [hnil] at hc).2
      rw [toList_returnText] at *
      simp only [List.length_cons, List.length_append] at hfuel
      have hone : List.Forall₂ (fun cs key => ∀ rest, Code.Follows ']' rest →
          Code.item? fuel (cs ++ rest) = if True then some (key, rest) else none)
          (keys.map fun key => (itemText key).toList) keys := by
        refine List.forall₂_map_left_iff.2 (List.forall₂_same.2 fun key hkey rest _ => ?_)
        have := hlengths _ (List.mem_map_of_mem hkey)
        rw [if_pos trivial, item?_append (by omega)]
      have hlength : ([',', ' '].intercalate
          (keys.map fun key => (itemText key).toList)).length < fuel := by omega
      have hlisted := Code.listed_intercalate (by decide) hone hheads hlength ['\n']
      rw [if_pos fun _ _ => trivial] at hlisted
      rw [List.cons_append, List.append_assoc, List.singleton_append, readReturned, hlisted]
      rfl

/-! ### Reading lines -/

/-- A line of a function and the assignment it stands for. -/
def Assigns (line : String × String) (assignment : String × Code) : Prop :=
  assignment.1 = line.1 ∧ Code.Reads line.2.toList assignment.2

theorem toList_assignmentLine (key body : String) (rest : List Char) :
    (assignmentLine key body).toList ++ rest =
      "    ".toList ++ ((itemText key).toList ++
        (" = ".toList ++ (body.toList ++ (['\n'] ++ rest)))) := by
  simp only [assignmentLine, String.toList_append, List.append_assoc]
  rfl

theorem behind?_assignmentLine (key body : String) (rest : List Char) :
    Code.behind? "    return ".toList ((assignmentLine key body).toList ++ rest) = none := by
  obtain ⟨cs, hcs⟩ := exists_cons_itemText key
  rw [toList_assignmentLine, hcs]
  rfl

theorem readLines_assignmentLine {key body : String} {c : Code} (h : Code.Reads body.toList c)
    (hfuel : (assignmentLine key body).toList.length ≤ fuel) (rest : List Char) :
    readLines (fuel + 1) ((assignmentLine key body).toList ++ rest) =
      if c.nesting ≤ Code.bracketLimit then
        (readLines fuel rest).map fun script =>
          { script with assignments := (key, c) :: script.assignments }
      else none := by
  have hlength := congrArg List.length (toList_assignmentLine key body [])
  simp only [List.append_nil, List.length_append] at hlength
  have hitem := @item?_append fuel key (by omega)
  have hends : Code.Ends (['\n'] ++ rest) := by
    rintro _ ⟨⟩
    exact .inr (.inr rfl)
  have hread := h.read fuel Code.bracketLimit _ (by omega) hends
  rw [readLines, behind?_assignmentLine]
  dsimp only
  rw [toList_assignmentLine]
  simp only [Code.behind?_append, hitem, hread, Option.bind_eq_bind, Option.bind_some]
  split
  · simp only [Option.bind_some, Code.behind?_append]
    cases readLines fuel rest <;> rfl
  · rfl

/-- Lines are read one by one, unless one of them has too many brackets open at a time. -/
theorem readLines_append {lines : List (String × String)} {assignments : List (String × Code)}
    (h : List.Forall₂ Assigns lines assignments) {returned : Returned}
    (hfuel : (lines.flatMap fun line => (assignmentLine line.1 line.2).toList).length +
      (returnText returned).toList.length < fuel) :
    readLines (fuel + 1)
      ((lines.flatMap fun line => (assignmentLine line.1 line.2).toList) ++
        ("    return ".toList ++ ((returnText returned).toList ++ ['\n']))) =
      if ∀ a ∈ assignments, a.2.nesting ≤ Code.bracketLimit then some ⟨assignments, returned⟩
      else none := by
  induction h generalizing fuel with
  | nil =>
      rw [List.flatMap_nil, List.nil_append, readLines, Code.behind?_append]
      dsimp only
      rw [readReturned_returnText (by simpa using hfuel)]
      simp
  | @cons line assignment lines assignments hline _ ih =>
      obtain ⟨x, body⟩ := line
      obtain ⟨key, c⟩ := assignment
      obtain ⟨hkey, hbody⟩ := hline
      dsimp only at hkey hbody
      subst hkey
      have hpos : 2 ≤ (assignmentLine key body).toList.length := by
        have hlength := congrArg List.length (toList_assignmentLine key body [])
        simp only [List.append_nil, List.length_append, List.length_singleton] at hlength
        have : "    ".toList.length = 4 := rfl
        omega
      rw [List.flatMap_cons, List.length_append] at hfuel
      dsimp only at hfuel
      obtain ⟨fuel, rfl⟩ : ∃ n, fuel = n + 1 := Nat.exists_eq_succ_of_ne_zero (by omega)
      rw [List.flatMap_cons, List.append_assoc]
      dsimp only
      rw [readLines_assignmentLine hbody (by omega), ih (by omega)]
      simp only [List.forall_mem_cons (a := (key, c))]
      by_cases hc : c.nesting ≤ Code.bracketLimit
      · rw [if_pos hc]
        by_cases hall : ∀ a ∈ assignments, a.2.nesting ≤ Code.bracketLimit
        · rw [if_pos hall, if_pos ⟨hc, hall⟩]
          rfl
        · rw [if_neg hall, if_neg fun h => hall h.2]
          rfl
      · rw [if_neg hc, if_neg fun hall => hc hall.1]

theorem toList_text (lines : List (String × String)) (returned : Returned) :
    (text lines returned).toList = "def evaluate(scope):\n".toList ++
      ((lines.flatMap fun line => (assignmentLine line.1 line.2).toList) ++
        ("    return ".toList ++ ((returnText returned).toList ++ ['\n']))) := by
  have hnewline : "\n".toList = ['\n'] := rfl
  unfold text
  simp only [String.toList_append, String.toList_join, List.append_assoc, List.flatMap_map,
    hnewline]

/-- The text of a function is read as that function, unless an expression in it has too many
brackets open at a time. -/
theorem ofText?_text {lines : List (String × String)} {assignments : List (String × Code)}
    (h : List.Forall₂ Assigns lines assignments) (returned : Returned) :
    ofText? (text lines returned) =
      if ∀ a ∈ assignments, a.2.nesting ≤ Code.bracketLimit then some ⟨assignments, returned⟩
      else none := by
  unfold ofText?
  rw [toList_text, Code.behind?_append, Option.bind_some]
  generalize hrest : (lines.flatMap fun line => (assignmentLine line.1 line.2).toList) ++
    ("    return ".toList ++ ((returnText returned).toList ++ ['\n'])) = rest
  have hlength : (lines.flatMap fun line => (assignmentLine line.1 line.2).toList).length +
      (returnText returned).toList.length < rest.length := by
    simp only [← hrest, List.length_append, List.length_singleton]
    omega
  have hread := readLines_append h hlength
  rw [hrest] at hread
  exact hread

end Script

/-! ### Running -/

namespace Evaluator

/-- Computes entries in order, binding each in the scope, up to the first failure. -/
def bindAll : List (String × Formula) → Scope → Except EvalFailure Unit × Scope
  | [], scope => (.ok (), scope)
  | (name, e) :: rest, scope =>
    match e.evaluateIn Meaning.compiled scope with
    | .error f => (.error f, scope)
    | .ok v => bindAll rest (scope.insert name v)

end Evaluator

/-- Assignments compute entries. -/
def Computes (entry : String × Formula) (assignment : String × Code) : Prop :=
  assignment.1 = entry.1 ∧ assignment.2.nesting = entry.2.nesting ∧
    ∀ s, assignment.2.evaluate s = entry.2.evaluateIn Meaning.compiled s

theorem assign_eq {assignments : List (String × Code)}
    (h : List.Forall₂ Computes entries assignments) (s : Scope) :
    Script.assign assignments s = Evaluator.bindAll entries s := by
  induction h generalizing s with
  | nil => rfl
  | @cons entry assignment entries assignments hfirst _ ih =>
      obtain ⟨name, e⟩ := entry
      obtain ⟨key, c⟩ := assignment
      obtain ⟨hkey, -, hvalue⟩ := hfirst
      dsimp only at hkey hvalue
      rw [Script.assign, Evaluator.bindAll, hvalue, hkey]
      cases e.evaluateIn Meaning.compiled s with
      | error f => rfl
      | ok v => exact ih _

theorem listEntries_eq_ok_iff {lines : List (String × String)} : listEntries entries = .ok lines ↔
    List.Forall₂ (fun entry line => entry.1 = line.1 ∧
      entry.2.listing Script.itemText = .ok line.2) entries lines := by
  induction entries generalizing lines with
  | nil => cases lines <;> simp [listEntries]
  | cons entry entries ih =>
      obtain ⟨name, e⟩ := entry
      rw [listEntries, List.forall₂_cons_left_iff]
      simp only [← ih]
      cases e.listing Script.itemText <;> cases listEntries entries <;>
        simp [bind, Except.bind, pure, Except.pure, eq_comm]

/-- The lines for entries whose names are words stand for the entries. -/
theorem exists_assignments
    (hwords : ∀ entry ∈ entries, entry.2.Everywhere fun part => part.isWorded = true)
    {lines : List (String × String)} (h : listEntries entries = .ok lines) :
    ∃ assignments : List (String × Code), List.Forall₂ Script.Assigns lines assignments ∧
      List.Forall₂ Computes entries assignments := by
  have hlines := listEntries_eq_ok_iff.1 h
  clear h
  induction hlines with
  | nil => exact ⟨[], .nil, .nil⟩
  | @cons entry line entries lines hline _ ih =>
      obtain ⟨hentry, hentries⟩ := List.forall_mem_cons.1 hwords
      obtain ⟨hname, hlisting⟩ := hline
      obtain ⟨c, hreads, hnesting, hvalue⟩ := Formula.exists_coded hentry hlisting
      obtain ⟨assignments, hassigns, hcomputes⟩ := ih hentries
      exact ⟨(entry.1, c) :: assignments, .cons ⟨hname, hreads⟩ hassigns,
        .cons ⟨rfl, hnesting, hvalue⟩ hcomputes⟩

theorem forall_nesting_iff {assignments : List (String × Code)} {n : Nat}
    (h : List.Forall₂ Computes entries assignments) :
    (∀ a ∈ assignments, a.2.nesting ≤ n) ↔ ∀ entry ∈ entries, entry.2.nesting ≤ n := by
  induction h with
  | nil => simp
  | cons hfirst _ ih =>
      rw [List.forall_mem_cons, List.forall_mem_cons, ih, hfirst.2.1]

theorem all_isWorded_iff :
    (entries.all fun entry => entry.2.walk.all Formula.isWorded) = true ↔
      ∀ entry ∈ entries, entry.2.Everywhere fun part => part.isWorded = true := by
  simp only [List.all_eq_true, Formula.Everywhere]

/-- Whether the listing of a formula is read: its names are words, and it has not too many brackets
open at a time. -/
structure Readable (e : Formula) : Prop where
  words : e.Everywhere fun part => part.isWorded = true
  room : e.nesting ≤ Code.bracketLimit

/-- Computes entries in order, and then what is returned. -/
def walk (entries : List (String × Formula)) (returned : Returned) (s : Scope) :
    Except EvalFailure Answer × Scope :=
  match Evaluator.bindAll entries s with
  | (.error f, s) => (.error f, s)
  | (.ok (), s) => (Script.answer s returned, s)

/-- Entries whose names are words are described by a function that computes them in order, and that
is defined unless too many brackets are open at a time. -/
theorem exists_script {listing : String} (h : describe entries targets single = .ok listing)
    (hwords : ∀ entry ∈ entries, entry.2.Everywhere fun part => part.isWorded = true) :
    ∃ script : Script,
      (define entries listing = if ∀ entry ∈ entries, entry.2.nesting ≤ Code.bracketLimit
        then some script else none) ∧
      ∀ s, script.run s = walk entries (returnedFor targets single) s := by
  cases hlines : listEntries entries with
  | error f => simp [describe, hlines, Except.map] at h
  | ok lines =>
      obtain rfl : Script.text lines (returnedFor targets single) = listing := by
        simpa [describe, hlines, Except.map] using h
      obtain ⟨assignments, hassigns, hcomputes⟩ := exists_assignments hwords hlines
      refine ⟨⟨assignments, returnedFor targets single⟩, ?_, fun s => ?_⟩
      · rw [define, if_pos (all_isWorded_iff.2 hwords), Script.ofText?_text hassigns]
        exact if_congr (forall_nesting_iff hcomputes) rfl rfl
      · have hassign := assign_eq hcomputes s
        cases hresult : Evaluator.bindAll entries s with
        | mk result after =>
            rw [hresult] at hassign
            cases result <;> simp only [Script.run, walk, hassign, hresult]

theorem words_of_define {listing : String} {script : Script}
    (h : define entries listing = some script) :
    ∀ entry ∈ entries, entry.2.Everywhere fun part => part.isWorded = true := by
  rw [define, Option.ite_none_right_eq_some] at h
  exact all_isWorded_iff.1 h.1

/-- A function is defined for entries just if all of them are readable. -/
theorem exists_define_iff {listing : String} (h : describe entries targets single = .ok listing) :
    (∃ script, define entries listing = some script) ↔ ∀ entry ∈ entries, Readable entry.2 := by
  constructor
  · rintro ⟨script, hscript⟩
    have hwords := words_of_define hscript
    obtain ⟨_, hdefine, -⟩ := exists_script h hwords
    rw [hdefine, Option.ite_none_right_eq_some] at hscript
    exact fun entry hentry => ⟨hwords entry hentry, hscript.1 entry hentry⟩
  · intro hreadable
    obtain ⟨script, hdefine, -⟩ := exists_script h fun entry hentry => (hreadable entry hentry).words
    exact ⟨script, hdefine.trans (if_pos fun entry hentry => (hreadable entry hentry).room)⟩

namespace Evaluator

variable (ev : Evaluator)

/-- Evaluators compute their entries in order. -/
theorem script_run (s : Scope) :
    ev.script.run s = walk ev.entries (returnedFor ev.targets ev.single) s := by
  obtain ⟨script, hdefine, hrun⟩ := exists_script ev.written (words_of_define ev.defined)
  have hscript := ev.defined
  rw [hdefine, Option.ite_none_right_eq_some] at hscript
  rw [← Option.some.inj hscript.2, hrun]

theorem readable : ∀ entry ∈ ev.entries, Readable entry.2 :=
  (exists_define_iff ev.written).1 ⟨_, ev.defined⟩

/-! ### Answers -/

/-- What the scope holds for the targets. -/
def answer (scope : Scope) : Answer :=
  let value (name : String) : Operand := (scope[name]?).getD none
  if ev.single then .one (value (ev.targets.headD "")) else .many (ev.targets.map value)

theorem exists_of_bindAll {x : String} {s s' : Scope} (h : bindAll entries s = (.ok (), s'))
    (hx : x ∈ entries.map Prod.fst ∨ ∃ v, s[x]? = some v) : ∃ v, s'[x]? = some v := by
  induction entries generalizing s with
  | nil =>
      obtain ⟨-, rfl⟩ := Prod.mk.injEq .. ▸ h
      simpa using hx
  | cons entry entries ih =>
      obtain ⟨name, e⟩ := entry
      rw [bindAll] at h
      cases he : e.evaluateIn Meaning.compiled s with
      | error f => simp [he] at h
      | ok v =>
          rw [he] at h
          refine ih h ?_
          by_cases hname : name = x
          · exact .inr ⟨v, by rw [hname, Std.HashMap.getElem?_insert_self]⟩
          · rw [Std.HashMap.getElem?_insert, if_neg (by simpa using hname)]
            exact hx.imp_left fun hmem => (List.mem_cons.1 hmem).resolve_left fun heq =>
              hname heq.symm

theorem mapM_fetch {keys : List String} (h : ∀ x ∈ keys, ∃ v, s[x]? = some v) :
    keys.mapM (Script.fetch s) = .ok (keys.map fun x => (s[x]?).getD none) := by
  induction keys with
  | nil => rfl
  | cons x keys ih =>
      obtain ⟨⟨v, hv⟩, hkeys⟩ := List.forall_mem_cons.1 h
      rw [List.mapM_cons, ih hkeys, Script.fetch, hv, List.map_cons, hv]
      rfl

/-- The targets have been bound when they are returned. -/
theorem script_answer {s' : Scope} (h : bindAll ev.entries s = (.ok (), s')) :
    Script.answer s' (returnedFor ev.targets ev.single) = .ok (ev.answer s') := by
  have hbound : ∀ x ∈ ev.targets, ∃ v, s'[x]? = some v := fun x hx =>
    exists_of_bindAll h (.inl (ev.found x hx))
  cases hsingle : ev.single with
  | true =>
      obtain ⟨x, xs, htargets⟩ := List.exists_cons_of_ne_nil (ev.lone hsingle)
      obtain ⟨v, hv⟩ := hbound x (by simp [htargets])
      simp [returnedFor, Script.answer, Script.fetch, answer, htargets, hsingle, hv, Except.map]
  | false => simp [returnedFor, Script.answer, mapM_fetch hbound, answer, hsingle, Except.map]

/-- A run needs the inputs, computes the entries in order, and returns what is bound to the
targets. -/
theorem run_eq (s : Scope) : ev.run s =
    match ev.missing s with
    | [] =>
      match bindAll ev.entries s with
      | (.error f, s) => (.error f, s)
      | (.ok (), s) => (.ok (ev.answer s), s)
    | names => (.error (.unbound names), s) := by
  rw [run]
  cases ev.missing s with
  | cons x names => rfl
  | nil =>
      dsimp only
      rw [script_run, walk]
      cases hbind : bindAll ev.entries s with
      | mk outcome s' =>
          cases outcome with
          | error f => rfl
          | ok u =>
              dsimp only
              rw [script_answer ev hbind]

end Evaluator

end Gantry.Memo
