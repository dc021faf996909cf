import Gantry.Code.Reader

/-!
Generated functions. A function takes a scope, computes assignments to its
items in order and returns one item or a list of them. It is written line by
line and gets its meaning from being read again.
-/

namespace Gantry.Memo

inductive Answer where
  | one (v : Operand)
  | many (vs : List Operand)
  deriving DecidableEq, Inhabited

def Answer.values : Answer → List Operand
  | .one v => [v]
  | .many vs => vs

/-- What a function returns. -/
inductive Returned where
  | item (key : String)
  | items (keys : List String)
  deriving DecidableEq, Inhabited

/-- A function of a scope. -/
structure Script where
  assignments : List (String × Code)
  returned : Returned
  deriving Inhabited

namespace Script

/-! ### Running -/

/-- Computes assignments in order, binding each in the scope, up to the first
failure. -/
def assign : List (String × Code) → Scope → Except EvalFailure Unit × Scope
  | [], scope => (.ok (), scope)
  | (key, c) :: rest, scope =>
    match c.evaluate scope with
    | .error f => (.error f, scope)
    | .ok v => assign rest (scope.insert key v)

def fetch (scope : Scope) (key : String) : Except EvalFailure Operand :=
  match scope[key]? with
  | some v => .ok v
  | none => .error (.absent key)

def answer (scope : Scope) : Returned → Except EvalFailure Answer
  | .item key => (fetch scope key).map .one
  | .items keys => (keys.mapM (fetch scope)).map .many

/-- Calls a function, returning the scope as it is afterwards. -/
def run (script : Script) (scope : Scope) : Except EvalFailure Answer × Scope :=
  match assign script.assignments scope with
  | (.error f, scope) => (.error f, scope)
  | (.ok (), scope) => (answer scope script.returned, scope)

/-! ### Writing -/

def itemText (key : String) : String := "scope[" ++ Text.quoted key ++ "]"

def assignmentLine (key body : String) : String := "    " ++ itemText key ++ " = " ++ body ++ "\n"

def returnText : Returned → String
  | .item key => itemText key
  | .items keys => "[" ++ ", ".intercalate (keys.map itemText) ++ "]"

/-- The lines of a function whose assignments are written already. -/
def text (assignments : List (String × String)) (returned : Returned) : String :=
  "def evaluate(scope):\n" ++
    String.join (assignments.map fun (key, body) => assignmentLine key body) ++
    "    return " ++ returnText returned ++ "\n"

/-! ### Reading -/

/-- Reads what is returned, which is the end of a function. -/
def readReturned (fuel : Nat) (cs : List Char) : Option Returned :=
  match cs with
  | '[' :: rest =>
    match Code.listed ']' (Code.item? fuel) fuel rest with
    | some (keys, ['\n']) => some (.items keys)
    | _ => none
  | cs =>
    match Code.item? fuel cs with
    | some (key, ['\n']) => some (.item key)
    | _ => none

def readLines : Nat → List Char → Option Script
  | 0, _ => none
  | fuel + 1, cs =>
    match Code.behind? "    return ".toList cs with
    | some rest => (readReturned fuel rest).map fun returned => ⟨[], returned⟩
    | none => do
      let rest ← Code.behind? "    ".toList cs
      let (key, rest) ← Code.item? fuel rest
      let rest ← Code.behind? " = ".toList rest
      let (c, rest) ← Code.read? fuel Code.bracketLimit rest
      let rest ← Code.behind? ['\n'] rest
      let script ← readLines fuel rest
      return { script with assignments := (key, c) :: script.assignments }

/-- The function that a text defines. -/
def ofText? (s : String) : Option Script :=
  (Code.behind? "def evaluate(scope):\n".toList s.toList).bind fun rest =>
    readLines (rest.length + 1) rest

end Script

end Gantry.Memo
