import Gantry.Code.Basic
import Gantry.Formula.Grammar
import Gantry.Text.Quoted
import Gantry.Text.Digit

/-!
Reading generated code from text, in the layout it is written in. Only so many
brackets may be open at a time. Every reader takes what it reads from the front
of a text and returns the rest; its fuel is at least the length of the text.
-/

namespace Gantry.Code

/-- Brackets that may be open at a time. -/
def bracketLimit : Nat := 200

/-- What is left of a text behind a given beginning. -/
def behind? (start cs : List Char) : Option (List Char) :=
  if start.isPrefixOf cs then some (cs.drop start.length) else none

/-! ### Quoted text -/

/-- A character by the hexadecimal digits of its code point. -/
def codePoint? (width : Nat) (cs : List Char) : Option (Char × List Char) :=
  (Text.hexValue? (cs.take width)).map fun n => (Char.ofNat n, cs.drop width)

/-- The character that stands behind a backslash. -/
def escaped? : List Char → Option (Char × List Char)
  | 'n' :: rest => some ('\n', rest)
  | 'r' :: rest => some ('\r', rest)
  | 't' :: rest => some ('\t', rest)
  | 'x' :: rest => codePoint? 2 rest
  | 'u' :: rest => codePoint? 4 rest
  | 'U' :: rest => codePoint? 8 rest
  | c :: rest => if c = '\\' ∨ c = '\'' ∨ c = '"' then some (c, rest) else none
  | [] => none

/-- The rest of a quoted text, up to the mark that closes it. -/
def quotedRest (mark : Char) : Nat → List Char → Option (List Char × List Char)
  | 0, _ => none
  | _ + 1, [] => none
  | fuel + 1, c :: rest =>
    if c = mark then some ([], rest)
    else if c = '\n' then none
    else do
      let (c, rest) ← if c = '\\' then escaped? rest else some (c, rest)
      let (inside, after) ← quotedRest mark fuel rest
      return (c :: inside, after)

def quoted? (fuel : Nat) : List Char → Option (String × List Char)
  | mark :: rest =>
    if mark = '\'' ∨ mark = '"' then
      (quotedRest mark fuel rest).map fun (inside, after) => (String.ofList inside, after)
    else none
  | [] => none

/-- The key of an item of the scope, the name of which has been read. -/
def key? (fuel : Nat) : List Char → Option (String × List Char)
  | '[' :: rest =>
    match quoted? fuel rest with
    | some (key, ']' :: rest) => some (key, rest)
    | _ => none
  | _ => none

/-- An item of the scope. -/
def item? (fuel : Nat) (cs : List Char) : Option (String × List Char) :=
  (behind? "scope".toList cs).bind (key? fuel)

/-! ### Sequences -/

/-- Reads one thing or more, with commas between them, up to a closing bracket. -/
def separated {α : Type} (close : Char) (one : List Char → Option (α × List Char)) :
    Nat → List Char → Option (List α × List Char)
  | 0, _ => none
  | fuel + 1, cs => do
    let (a, rest) ← one cs
    match rest with
    | ',' :: ' ' :: rest => do
      let (more, rest) ← separated close one fuel rest
      return (a :: more, rest)
    | c :: rest => if c = close then some ([a], rest) else none
    | [] => none

/-- Reads any number of things, with commas between them, up to a closing bracket. -/
def listed {α : Type} (close : Char) (one : List Char → Option (α × List Char)) (fuel : Nat) :
    List Char → Option (List α × List Char)
  | c :: rest => if c = close then some ([], rest) else separated close one fuel (c :: rest)
  | [] => none

/-! ### Expressions -/

/-- Reads what a name begins: a call, an item of the scope, or the name alone. -/
def named (args : List Char → Option (List Code × List Char)) (fuel room : Nat) (name : String) :
    List Char → Option (Code × List Char)
  | '(' :: rest =>
    if room = 0 then none
    else (args rest).map fun (args, rest) => (.call name args, rest)
  | '[' :: rest =>
    if room = 0 ∨ name ≠ "scope" then none
    else (key? fuel ('[' :: rest)).map fun (key, rest) => (.item key, rest)
  | rest => some (.name name, rest)

/-- Reads an expression in which at most `room` brackets are open at a time. -/
def read? (fuel room : Nat) (cs : List Char) : Option (Code × List Char) :=
  match fuel with
  | 0 => none
  | fuel + 1 =>
    match cs with
    | '-' :: rest => (read? fuel room rest).map fun (c, rest) => (.minus c, rest)
    | cs =>
      match Formula.front? cs with
      | some (.number, n) =>
        (Formula.numberValue? (String.ofList (cs.take n))).map fun value =>
          (.literal value, cs.drop n)
      | some (.name, n) =>
        named (listed ')' (read? fuel (room - 1)) fuel) fuel room (String.ofList (cs.take n))
          (cs.drop n)
      | _ => none

end Gantry.Code
