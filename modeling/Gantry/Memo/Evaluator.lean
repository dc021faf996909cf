import Gantry.Memo.Optimize
import Gantry.Memo.Script

/-!
Compiled evaluators. Compiling selects the entries of a memo table that the
targets depend on and the variables these need from outside, writes a function
that computes them and reads it. Running an evaluator runs that function, which
binds each entry in the scope it is given, so a failure half way leaves what was
computed before it.
-/

namespace Gantry.Memo

/-- What an evaluator is to return. -/
inductive Targets where
  /-- The newest entry, with all entries evaluated. -/
  | newest
  | one (name : String)
  | many (names : List String)
  deriving Inhabited

/-- The bodies of the assignments to entries. -/
def listEntries : List (String × Formula) → Except Formula.WriteFailure (List (String × String))
  | [] => .ok []
  | (name, e) :: rest => do
    let body ← e.listing Script.itemText
    let lines ← listEntries rest
    return (name, body) :: lines

/-- What an evaluator returns for its targets. -/
def returnedFor (targets : List String) (single : Bool) : Returned :=
  if single then .item (targets.headD "") else .items targets

/-- The function that computes entries, in text. -/
def describe (entries : List (String × Formula)) (targets : List String) (single : Bool) :
    Except Formula.WriteFailure String :=
  (listEntries entries).map fun lines => Script.text lines (returnedFor targets single)

/-- The function that the listing of entries defines. Only words are read as the
names of functions and constants; other letters could be taken for those of a word
that looks alike. -/
def define (entries : List (String × Formula)) (listing : String) : Option Script :=
  if entries.all fun entry => entry.2.walk.all Formula.isWorded then Script.ofText? listing
  else none

/-- Evaluators hold a function that is read from the text written for their
entries. -/
structure Evaluator where
  /-- The entries to evaluate, in order. -/
  entries : List (String × Formula)
  /-- The variables taken from the scope, in the order they are met. -/
  inputs : List String
  targets : List String
  /-- Whether the result is the value of the only target. -/
  single : Bool
  /-- The text of the function that computes the entries. -/
  listing : String
  /-- The function that the text defines. -/
  script : Script
  written : describe entries targets single = .ok listing
  defined : define entries listing = some script
  found : ∀ x ∈ targets, x ∈ entries.map Prod.fst
  lone : single = true → targets ≠ []

namespace Table

/-- The entries a formula refers to. -/
def references (t : Table) (e : Formula) : List Nat := e.variableNames.filterMap t.index?

/-- The first reference of an entry to itself or a later one. -/
def misplaced? (t : Table) (i : Nat) (e : Formula) : Option String :=
  e.variableNames.find? fun x => (t.index? x).any fun j => decide (i ≤ j)

def checkOrder (t : Table) : List Nat → Except Failure Unit
  | [] => .ok ()
  | i :: is =>
    match t.entries[i]? >>= t.misplaced? i with
    | some x => .error (.outOfOrder (t.name i) x)
    | none => t.checkOrder is

/-- The marked entries below `n` and all that they depend on, last first. -/
def dependencies (t : Table) : Nat → List Nat → List Nat
  | 0, _ => []
  | i + 1, marked =>
    if marked.contains i then
      i :: t.dependencies i (((t.entries[i]?).map t.references).getD [] ++ marked)
    else t.dependencies i marked

/-- Adds the variables of an entry that come from outside the table. -/
def addInputs (t : Table) (inputs : List String) (e : Formula) : List String :=
  e.variableNames.foldl (fun found x =>
    if t.contains x || found.contains x then found else found ++ [x]) inputs

/-- The given entries with their names. -/
def program (t : Table) (indices : List Nat) : List (String × Formula) :=
  indices.filterMap fun i => (t.entries[i]?).map fun e => (t.name i, e)

theorem mem_dependencies_of_marked {t : Table} {n i : Nat} {marked : List Nat} (hi : i < n)
    (h : i ∈ marked) : i ∈ t.dependencies n marked := by
  induction n generalizing marked with
  | zero => omega
  | succ n ih =>
      rw [dependencies]
      by_cases hin : i = n
      · rw [if_pos (by simpa [← hin] using h), hin]
        exact List.mem_cons_self
      · split
        · exact List.mem_cons_of_mem _ (ih (by omega) (List.mem_append_right _ h))
        · exact ih (by omega) h

/-- Whether names are those of given entries. -/
def Names (t : Table) (indices : List Nat) (names : List String) : Prop :=
  ∀ x ∈ names, ∃ i ∈ indices, i < t.size ∧ t.name i = x

theorem Names.mem_program {t : Table} {indices : List Nat} {names : List String}
    (h : t.Names indices names) : ∀ x ∈ names, x ∈ (t.program indices).map Prod.fst := by
  intro x hx
  obtain ⟨i, hi, hlt, rfl⟩ := h x hx
  refine List.mem_map_of_mem (f := Prod.fst) (a := (t.name i, t.entries[i])) ?_
  exact List.mem_filterMap.2 ⟨i, hi, by rw [Array.getElem?_eq_getElem hlt]; rfl⟩

theorem names_newest {t : Table} (h : ¬t.size = 0) :
    t.Names (List.range t.size) [t.name (t.size - 1)] := by
  intro x hx
  have hlt : t.size - 1 < t.size := by omega
  exact ⟨t.size - 1, List.mem_range.2 hlt, hlt, (List.mem_singleton.1 hx).symm⟩

theorem names_dependencies {t : Table} {wanted : List String}
    (h : ∀ x ∈ wanted, t.contains x = true) :
    t.Names (t.dependencies t.size (wanted.filterMap t.index?)).reverse wanted := by
  intro x hx
  obtain ⟨i, hi⟩ := Option.isSome_iff_exists.1 (h x hx)
  obtain ⟨hlt, hname⟩ := of_index?_eq_some hi
  have hmarked : i ∈ wanted.filterMap t.index? := List.mem_filterMap.2 ⟨x, hx, hi⟩
  exact ⟨i, List.mem_reverse.2 (mem_dependencies_of_marked hlt hmarked), hlt, hname⟩

/-- Compiles given entries for targets among them. -/
def assemble (t : Table) (indices : List Nat) (targets : List String) (single : Bool)
    (hnames : t.Names indices targets) (hlone : single = true → targets ≠ []) :
    Except Failure Evaluator :=
  let entries := t.program indices
  match hwritten : describe entries targets single with
  | .error f => .error (.listing f)
  | .ok listing =>
    match hdefined : define entries listing with
    | none => .error .unreadable
    | some script =>
      .ok {
        entries, targets, single, listing, script
        inputs := entries.foldl (fun inputs entry => t.addInputs inputs entry.2) []
        written := hwritten
        defined := hdefined
        found := hnames.mem_program
        lone := hlone }

/-- Compiles what the wanted names depend on. -/
def select (t : Table) (wanted : List String) (single : Bool)
    (hlone : single = true → wanted ≠ []) : Except Failure Evaluator :=
  if h : ∀ x ∈ wanted, t.contains x = true then
    t.assemble (t.dependencies t.size (wanted.filterMap t.index?)).reverse wanted single
      (names_dependencies h) hlone
  else .error (.unknownNames (wanted.filter fun name => !t.contains name))

def compile (t : Table) (targets : Targets) : Except Failure Evaluator :=
  if h : t.size = 0 then .error .emptyTable
  else
    match t.checkOrder (List.range t.size) with
    | .error f => .error f
    | .ok () =>
      match targets with
      | .newest =>
        t.assemble (List.range t.size) [t.name (t.size - 1)] true (names_newest h) (by simp)
      | .one name => t.select [name] true (by simp)
      | .many names => t.select names false (by simp)

end Table

namespace Evaluator

def names (ev : Evaluator) : List String := ev.entries.map Prod.fst

def missing (ev : Evaluator) (scope : Scope) : List String :=
  ev.inputs.filter fun name => !scope.contains name

/-- Runs an evaluator, returning the scope as it is afterwards. -/
def run (ev : Evaluator) (scope : Scope) : Except EvalFailure Answer × Scope :=
  match ev.missing scope with
  | [] => ev.script.run scope
  | names => (.error (.unbound names), scope)

/-- A summary of an evaluator in one line. -/
def summary (ev : Evaluator) : String :=
  "Evaluator(entries=" ++ toString ev.entries.length ++ ", inputs=" ++ Text.quotedList ev.inputs ++
    ", targets=" ++ Text.quotedList ev.targets ++ ")"

end Evaluator

end Gantry.Memo
