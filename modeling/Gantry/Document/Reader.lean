import Gantry.Document.Datum
import Gantry.Text.Digit

/-!
Reading a datum from text. Besides the usual notation the words for infinity
and not-a-number are accepted; a number without point and exponent is whole.
Control characters inside quotes are not accepted.
-/

namespace Gantry.Datum

def isSpace (c : Char) : Bool := c == ' ' || c == '\t' || c == '\n' || c == '\r'

def skipSpace (cs : List Char) : List Char := cs.dropWhile isSpace

/-- Four hexadecimal digits. -/
def hexQuad? (cs : List Char) : Option (Nat × List Char) :=
  if (cs.take 4).length = 4 then (Text.hexValue? (cs.take 4)).map fun n => (n, cs.drop 4) else none

/-- A code unit, joined with a second one where they form a pair. -/
def escapedChar? (cs : List Char) : Option (Char × List Char) := do
  let (high, rest) ← hexQuad? cs
  match rest with
  | '\\' :: 'u' :: more =>
    match hexQuad? more with
    | some (low, after) =>
      if 0xd800 ≤ high ∧ high < 0xdc00 ∧ 0xdc00 ≤ low ∧ low < 0xe000 then
        return (Char.ofNat (0x10000 + (high - 0xd800) * 0x400 + (low - 0xdc00)), after)
      else return (Char.ofNat high, rest)
    | none => return (Char.ofNat high, rest)
  | _ => return (Char.ofNat high, rest)

def simpleEscape? : Char → Option Char
  | '"' => some '"'
  | '\\' => some '\\'
  | '/' => some '/'
  | 'b' => some '\x08'
  | 'f' => some '\x0c'
  | 'n' => some '\n'
  | 'r' => some '\r'
  | 't' => some '\t'
  | _ => none

/-- The rest of a quoted text, up to its closing quote. -/
def quotedRest : Nat → List Char → Option (List Char × List Char)
  | 0, _ => none
  | fuel + 1, cs =>
    match cs with
    | '"' :: rest => some ([], rest)
    | '\\' :: 'u' :: rest => do
      let (c, rest) ← escapedChar? rest
      let (inside, after) ← quotedRest fuel rest
      return (c :: inside, after)
    | '\\' :: e :: rest => do
      let c ← simpleEscape? e
      let (inside, after) ← quotedRest fuel rest
      return (c :: inside, after)
    | c :: rest =>
      if c.toNat < 0x20 ∨ c = '\\' then none
      else do
        let (inside, after) ← quotedRest fuel rest
        return (c :: inside, after)
    | [] => none

/-- Digits of a whole part: a zero stands alone. -/
def wholeRun (cs : List Char) : List Char :=
  match cs with
  | '0' :: _ => ['0']
  | cs => cs.takeWhile Char.isDigit

/-- Length of the fraction at the front of a text. -/
def fractionLength : List Char → Nat
  | '.' :: cs =>
    match (cs.takeWhile Char.isDigit).length with
    | 0 => 0
    | n + 1 => n + 2
  | _ => 0

def exponentLength : List Char → Nat
  | c :: cs =>
    if c = 'e' ∨ c = 'E' then
      let sign := match cs with
        | '+' :: _ | '-' :: _ => 1
        | _ => 0
      match ((cs.drop sign).takeWhile Char.isDigit).length with
      | 0 => 0
      | n + 1 => n + 2 + sign
    else 0
  | [] => 0

def readNumber? (cs : List Char) : Option (Number × List Char) :=
  let sign := match cs with
    | '-' :: _ => 1
    | _ => 0
  match (wholeRun (cs.drop sign)).length with
  | 0 => none
  | n + 1 =>
    let whole := sign + (n + 1)
    let fraction := fractionLength (cs.drop whole)
    let exponent := exponentLength (cs.drop (whole + fraction))
    let length := whole + fraction + exponent
    let numeral := String.ofList (cs.take length)
    let value? : Option Number :=
      if fraction + exponent = 0 then
        if wholeDigitLimit < n + 1 then none else (Decimal.readInt? numeral).map .int
      else (Decimal.readReal? numeral).map .real
    value?.map fun v => (v, cs.drop length)

/-- What follows a word at the front of a text. -/
def afterWord? : List Char → List Char → Option (List Char)
  | [], cs => some cs
  | w :: ws, c :: cs => if w = c then afterWord? ws cs else none
  | _ :: _, [] => none

def words : List (List Char × Datum) :=
  [("null".toList, .null), ("true".toList, .flag true), ("false".toList, .flag false),
   ("NaN".toList, .ofReal Binary64.nan), ("Infinity".toList, .ofReal Binary64.infinity),
   ("-Infinity".toList, .ofReal Binary64.negInfinity)]

mutual

def readValue : Nat → List Char → Option (Datum × List Char)
  | 0, _ => none
  | fuel + 1, cs =>
    match cs with
    | '"' :: rest => (quotedRest (rest.length + 1) rest).map fun (t, after) =>
      (.text (String.ofList t), after)
    | '[' :: rest =>
      match skipSpace rest with
      | ']' :: after => some (.list [], after)
      | rest => (readItems fuel rest).map fun (items, after) => (.list items, after)
    | '\x7b' :: rest =>
      match skipSpace rest with
      | '\x7d' :: after => some (.object [], after)
      | rest => (readMembers fuel [] rest).map fun (ms, after) => (.object ms, after)
    | cs =>
      match words.findSome? fun (w, d) => (afterWord? w cs).map fun after => (d, after) with
      | some found => some found
      | none => (readNumber? cs).map fun (n, after) => (.number n, after)

/-- The items of a list, with its closing bracket. -/
def readItems : Nat → List Char → Option (List Datum × List Char)
  | 0, _ => none
  | fuel + 1, cs => do
    let (d, rest) ← readValue fuel (skipSpace cs)
    match skipSpace rest with
    | ',' :: more =>
      let (ds, after) ← readItems fuel more
      return (d :: ds, after)
    | ']' :: after => return ([d], after)
    | _ => none

/-- The members of an object, with its closing brace. -/
def readMembers : Nat → List (String × Datum) → List Char →
    Option (List (String × Datum) × List Char)
  | 0, _, _ => none
  | fuel + 1, known, cs =>
    match skipSpace cs with
    | '"' :: rest => do
      let (key, rest) ← quotedRest (rest.length + 1) rest
      match skipSpace rest with
      | ':' :: rest =>
        let (d, rest) ← readValue fuel (skipSpace rest)
        let known := put (String.ofList key) d known
        match skipSpace rest with
        | ',' :: more => readMembers fuel known more
        | '\x7d' :: after => return (known, after)
        | _ => none
      | _ => none
    | _ => none

end

/-- Reads a datum that makes up a whole text. -/
def read? (s : String) : Option Datum :=
  let cs := s.toList
  match readValue (2 * cs.length + 2) (skipSpace cs) with
  | some (d, rest) => if (skipSpace rest).isEmpty then some d else none
  | none => none

def read (s : String) : Except Fault Datum :=
  match read? s with
  | some d => .ok d
  | none => .error (.value none)

end Gantry.Datum
