import Gantry.Number
import Gantry.Fault
import Gantry.Text.Quoted

/-!
Data as they stand in documents: numbers, texts, flags, lists, and objects
whose members keep their order. A member written twice keeps its first place
and its last value.
-/

namespace Gantry

inductive Datum where
  | null
  | flag (b : Bool)
  | number (n : Number)
  | text (s : String)
  | list (items : List Datum)
  | object (members : List (String × Datum))
  deriving Inhabited

namespace Datum

def ofNat (n : Nat) : Datum := .number (.int n)
def ofReal (x : Binary64) : Datum := .number (.real x)
def ofReals (xs : List Binary64) : Datum := .list (xs.map ofReal)

/-- Sets a member of an object. -/
def put (key : String) (value : Datum) : List (String × Datum) → List (String × Datum)
  | [] => [(key, value)]
  | (k, v) :: rest => if k = key then (k, value) :: rest else (k, v) :: put key value rest

/-- The members of an object; nothing else has any. -/
def members : Datum → Except Fault (List (String × Datum))
  | .object ms => .ok ms
  | _ => .error .attribute

/-- A member that has to be there. -/
def require (ms : List (String × Datum)) (key : String) : Except Fault Datum :=
  match ms.lookup key with
  | some v => .ok v
  | none => .error (.key none)

/-- The double that a number or a numeral in a text stands for. -/
def toReal : Datum → Except Fault Binary64
  | .number n =>
    match n.toBinary64? with
    | some x => .ok x
    | none => .error .overflow
  | .flag b => .ok (if b then Binary64.one else Binary64.zero)
  | .text s =>
    match Decimal.readReal? s with
    | some x => .ok x
    | none => .error (.value none)
  | _ => .error (.type none)

/-- The number that a number or a flag is. -/
def toNumber : Datum → Except Fault Number
  | .number n => .ok n
  | .flag b => .ok (.int (if b then 1 else 0))
  | _ => .error (.type none)

/-- What a condition makes of a datum: zero and everything empty is false. -/
def isTrue : Datum → Bool
  | .null => false
  | .flag b => b
  | .number n => !n.same (.int 0)
  | .text s => !s.isEmpty
  | .list items => !items.isEmpty
  | .object ms => !ms.isEmpty

mutual

/-- A datum written as a literal. -/
def literal : Datum → String
  | .null => "None"
  | .flag b => if b then "True" else "False"
  | .number n => n.text
  | .text s => Text.quoted s
  | .list items => "[" ++ ", ".intercalate (literals items) ++ "]"
  | .object ms => "\x7b" ++ ", ".intercalate (memberLiterals ms) ++ "\x7d"

def literals : List Datum → List String
  | [] => []
  | d :: ds => d.literal :: literals ds

def memberLiterals : List (String × Datum) → List String
  | [] => []
  | (k, d) :: ms => (Text.quoted k ++ ": " ++ d.literal) :: memberLiterals ms

end

/-- A datum as it appears in a message. -/
def shown : Datum → String
  | .text s => s
  | d => d.literal

end Datum

end Gantry
