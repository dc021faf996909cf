import Gantry.Text.Printable

/-!
Quoted text. Single quotes are used unless the text holds one and no double
quote; the quote in use and the backslash are escaped, and what is not
printable is written by its code point.
-/

namespace Gantry.Text

def hexDigits (width n : Nat) : List Char :=
  let ds := Nat.toDigits 16 n
  List.replicate (width - ds.length) '0' ++ ds

/-- The quote mark that encloses a text. -/
def quoteMark (cs : List Char) : Char :=
  if cs.contains '\'' && !cs.contains '"' then '"' else '\''

def escapeChar (mark c : Char) : List Char :=
  if c = mark ∨ c = '\\' then ['\\', c]
  else if c = '\n' then ['\\', 'n']
  else if c = '\r' then ['\\', 'r']
  else if c = '\t' then ['\\', 't']
  else if isPrintable c then [c]
  else if c.toNat < 0x100 then '\\' :: 'x' :: hexDigits 2 c.toNat
  else if c.toNat < 0x10000 then '\\' :: 'u' :: hexDigits 4 c.toNat
  else '\\' :: 'U' :: hexDigits 8 c.toNat

def quoted (s : String) : String :=
  let mark := quoteMark s.toList
  String.ofList (mark :: (s.toList.flatMap (escapeChar mark) ++ [mark]))

/-- A list of quoted texts in brackets. -/
def quotedList (items : List String) : String := "[" ++ ", ".intercalate (items.map quoted) ++ "]"

end Gantry.Text
