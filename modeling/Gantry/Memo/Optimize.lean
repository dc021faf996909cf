import Gantry.Memo.Table
import Gantry.Formula.Reader
import Gantry.Formula.Text

/-!
Sharing of common subformulas. A formula is condensed from the leaves up:
every group and every call becomes an entry of the memo table and is replaced
by a reference, and so is any other part that is already an entry. A batch
either succeeds as a whole or leaves the table as it was. How deep a formula may
be is up to the stack.
-/

namespace Gantry.Memo

/-- What a batch is made of. -/
inductive Item where
  | text (s : String)
  | tree (e : Formula)
  /-- Something else, known by the name of its type. -/
  | other (typeName : String)
  deriving Inhabited

inductive Failure where
  | parse (f : ParseFailure)
  | notFormula (typeName : String)
  /-- A formula is nested more deeply than can be walked. -/
  | tooDeep
  | invalidStem
  | emptyTable
  | unknownNames (names : List String)
  /-- An entry refers to a name that is not defined before it. -/
  | outOfOrder (entry reference : String)
  /-- An entry has no listing. -/
  | listing (f : Formula.WriteFailure)
  /-- The text of an evaluator is not read. -/
  | unreadable
  deriving DecidableEq, Inhabited

def Failure.fault : Failure → Fault
  | .parse f => f.fault
  | .notFormula typeName => .type (some ("expected formula text or Expression, got " ++ typeName))
  | .tooDeep => .tooDeep
  | .invalidStem => .value (some "prefix must be a valid identifier")
  | .emptyTable => .value (some "nothing to compile: the memo table is empty")
  | .unknownNames names => .value (some ("unknown memo name(s): " ++ ", ".intercalate names))
  | .outOfOrder entry reference =>
    .value (some ("memo entry " ++ entry ++ " references " ++ reference ++
      ", which is not defined before it"))
  | .listing f => f.fault
  | .unreadable => .unreadable

/-- The stack that formulas are walked on. -/
class Stack where
  /-- The levels of a formula there is room for. -/
  depthLimit : Nat

export Stack (depthLimit)

/-- Room for a thousand calls, of which up to three go to a level. -/
instance Stack.standard : Stack := ⟨330⟩

variable [Stack]

def Item.formula : Item → Except Failure Formula
  | .text s =>
    match Formula.parse s with
    | .ok e => .ok e
    | .error f => .error (.parse f)
  | .tree e => .ok e
  | .other typeName => .error (.notFormula typeName)

def Item.formulas : List Item → Except Failure (List Formula)
  | [] => .ok []
  | i :: is =>
    match i.formula with
    | .error f => .error f
    | .ok e =>
      match Item.formulas is with
      | .error f => .error f
      | .ok es => .ok (e :: es)

namespace Table

/-- A memo table for the given stem. -/
def new (stem : String) : Except Failure Table :=
  if Text.isIdentifier stem then .ok (empty stem) else .error .invalidStem

/-- A reference in place of a node; a group keeps its parentheses. -/
def reference (node : Formula) (name : String) : Formula :=
  match node with
  | .group _ => .group (.variable name)
  | _ => .variable name

/-- Whether a node becomes an entry of its own. -/
def isShared : Formula → Bool
  | .group _ | .call _ _ => true
  | _ => false

/-- Replaces a node whose parts are condensed by a reference, if it is known
or is to be shared. -/
def share (t : Table) (node : Formula) : Formula × Table :=
  if node.key.isTrivial then (node, t)
  else
    match t.find? node.key with
    | some name => (reference node name, t)
    | none =>
      if isShared node then
        let (name, t) := t.memoize node
        (reference node name, t)
      else (node, t)

mutual

/-- Condenses a formula of at most `budget` levels. Nothing is returned for a
deeper one, but entries found before that are in the table. -/
def condense (budget : Nat) (t : Table) (e : Formula) : Option Formula × Table :=
  match budget with
  | 0 => (none, t)
  | budget + 1 =>
    match e with
    | .number n => (some (.number n), t)
    | .constant c => (some (.constant c), t)
    | .variable x => (some (.variable x), t)
    | .group a =>
      match condense budget t a with
      | (some a, t) => let (node, t) := t.share (.group a); (some node, t)
      | (none, t) => (none, t)
    | .unary op a =>
      match condense budget t a with
      | (some a, t) => let (node, t) := t.share (.unary op a); (some node, t)
      | (none, t) => (none, t)
    | .binary op a b =>
      match condense budget t a with
      | (none, t) => (none, t)
      | (some a, t) =>
        match condense budget t b with
        | (none, t) => (none, t)
        | (some b, t) => let (node, t) := t.share (.binary op a b); (some node, t)
    | .call f args =>
      match condenseAll budget t args with
      | (some args, t) => let (node, t) := t.share (.call f args); (some node, t)
      | (none, t) => (none, t)

def condenseAll (budget : Nat) (t : Table) (es : List Formula) : Option (List Formula) × Table :=
  match es with
  | [] => (some [], t)
  | e :: es =>
    match condense budget t e with
    | (none, t) => (none, t)
    | (some e, t) =>
      match condenseAll budget t es with
      | (none, t) => (none, t)
      | (some es, t) => (some (e :: es), t)

end

/-- The name of a condensed formula, which becomes an entry unless it is one
or is a reference to one. -/
def rootName (t : Table) (root : Formula) : String × Table :=
  let lookup := match t.find? root.key with
    | some name => (name, t)
    | none => t.memoize root
  match root.key with
  | .variable x => if t.contains x then (x, t) else lookup
  | _ => lookup

def optimizeTree (t : Table) (e : Formula) : Except Failure String × Table :=
  match t.condense depthLimit e with
  | (none, t) => (.error .tooDeep, t)
  | (some root, t) => let (name, t) := t.rootName root; (.ok name, t)

def optimizeTrees (t : Table) : List Formula → Except Failure (List String) × Table
  | [] => (.ok [], t)
  | e :: es =>
    match t.optimizeTree e with
    | (.error f, t) => (.error f, t)
    | (.ok name, t) =>
      match t.optimizeTrees es with
      | (.error f, t) => (.error f, t)
      | (.ok names, t) => (.ok (name :: names), t)

/-- Optimizes a batch. All of it is read before the table is touched, and a
failure after that forgets what the batch has added. -/
def optimize (t : Table) (items : List Item) : Except Failure (List String) × Table :=
  match Item.formulas items with
  | .error f => (.error f, t)
  | .ok trees =>
    match t.optimizeTrees trees with
    | (.ok names, grown) => (.ok names, grown)
    | (.error f, grown) => (.error f, grown.truncate t.size)

/-- Optimizes a named batch, giving each key the name of its formula. -/
def optimizeAll (t : Table) (items : List (String × Item)) :
    Except Failure (List (String × String)) × Table :=
  match t.optimize (items.map Prod.snd) with
  | (.ok names, t) => (.ok ((items.map Prod.fst).zip names), t)
  | (.error f, t) => (.error f, t)

end Table

end Gantry.Memo
