import Gantry.Document.Datum
import Gantry.Sorting

/-!
Writing a datum as text. A style says how items are separated and indented;
by default everything stands on one line and other than basic characters are
escaped.
-/

namespace Gantry.Datum

/-- The choices of a written document. -/
structure Style where
  /-- One level of indentation, if items stand on lines of their own. -/
  indent : Option String
  itemSeparator : String
  keySeparator : String
  sortKeys : Bool
  basicOnly : Bool
  /-- Whether infinities and not-a-number may be written. -/
  allowSpecial : Bool

def Style.plain : Style := ⟨none, ", ", ": ", false, true, true⟩

def hexChar (n : Nat) : Char := Char.ofNat (if n < 10 then 48 + n else 87 + n)

def hexQuad (n : Nat) : List Char :=
  [hexChar (n / 4096 % 16), hexChar (n / 256 % 16), hexChar (n / 16 % 16), hexChar (n % 16)]

/-- A character above the basic plane takes two code units. -/
def escapeUnits (n : Nat) : List Char :=
  if n < 0x10000 then '\\' :: 'u' :: hexQuad n
  else
    let m := n - 0x10000
    '\\' :: 'u' :: hexQuad (0xd800 + m / 0x400) ++ '\\' :: 'u' :: hexQuad (0xdc00 + m % 0x400)

def quotedChar (basicOnly : Bool) (c : Char) : List Char :=
  match c with
  | '"' => ['\\', '"']
  | '\\' => ['\\', '\\']
  | '\n' => ['\\', 'n']
  | '\r' => ['\\', 'r']
  | '\t' => ['\\', 't']
  | '\x08' => ['\\', 'b']
  | '\x0c' => ['\\', 'f']
  | c =>
    if c.toNat < 0x20 ∨ (basicOnly ∧ 0x7e < c.toNat) then escapeUnits c.toNat else [c]

def quotedText (basicOnly : Bool) (s : String) : String :=
  String.ofList ('"' :: s.toList.flatMap (quotedChar basicOnly) ++ ['"'])

def numberText : Number → String
  | .int n => toString n
  | .real x =>
    if x.isNaN then "NaN"
    else if x.isInfinite then (if x.signBit then "-Infinity" else "Infinity")
    else Decimal.literalText x

/-- Sets items between brackets, on one line or on lines of their own. -/
def enclosed (style : Style) (level : Nat) (opening closing : String) (items : List String) : String :=
  if items.isEmpty then opening ++ closing
  else
    match style.indent with
    | none => opening ++ style.itemSeparator.intercalate items ++ closing
    | some unit =>
      let line (n : Nat) := "\n" ++ String.join (List.replicate n unit)
      opening ++ line (level + 1)
        ++ (style.itemSeparator ++ line (level + 1)).intercalate items ++ line level ++ closing

mutual

def writeAt (style : Style) (level : Nat) : Datum → Except Fault String
  | .null => .ok "null"
  | .flag b => .ok (if b then "true" else "false")
  | .number n =>
    match n with
    | .real x =>
      if x.isFinite || style.allowSpecial then .ok (numberText n) else .error (.value none)
    | n => .ok (numberText n)
  | .text s => .ok (quotedText style.basicOnly s)
  | .list items => do
    let texts ← writeItems style (level + 1) items
    return enclosed style level "[" "]" texts
  | .object ms => do
    let texts ← writeMembers style (level + 1) ms
    let texts := if style.sortKeys then sortBy (fun a b => decide (a.1 ≤ b.1)) texts else texts
    return enclosed style level "\x7b" "\x7d" (texts.map Prod.snd)

def writeItems (style : Style) (level : Nat) : List Datum → Except Fault (List String)
  | [] => .ok []
  | d :: ds => do
    let text ← writeAt style level d
    let texts ← writeItems style level ds
    return text :: texts

/-- The members of an object, each with its key. -/
def writeMembers (style : Style) (level : Nat) :
    List (String × Datum) → Except Fault (List (String × String))
  | [] => .ok []
  | (k, d) :: ms => do
    let text ← writeAt style level d
    let texts ← writeMembers style level ms
    return (k, quotedText style.basicOnly k ++ style.keySeparator ++ text) :: texts

end

def writeWith (style : Style) (d : Datum) : Except Fault String := writeAt style 0 d

/-- A datum on one line. -/
def write (d : Datum) : String := (writeWith .plain d).toOption.getD ""

end Gantry.Datum
