import Gantry.Text.Blank
import Gantry.Text.Digit
import Gantry.Text.Quoted

/-!
Tokens of formula text. A number, a name or an operator is taken as long as
it can be; blanks separate tokens and are otherwise ignored, and a double star
is read as the power sign. The last token marks the end of the text.
-/

namespace Gantry.Formula

open Gantry.Text

inductive TokenKind where
  | number | name | op | stop
  deriving DecidableEq, Inhabited

structure Token where
  kind : TokenKind
  text : String
  /-- Index of the first character in the formula. -/
  position : Nat
  deriving DecidableEq, Inhabited

def isNameStart (c : Char) : Bool := c.isAlpha || c == '_'
def isNamePart (c : Char) : Bool := c.isAlphanum || c == '_'
def isOperator (c : Char) : Bool := "-+*/^(),".toList.contains c

/-- Length of an exponent part at the front of a text, zero if there is none. -/
def exponentLength (cs : List Char) : Nat :=
  match cs with
  | c :: rest =>
    if c = 'e' ∨ c = 'E' then
      let sign := match rest with
        | s :: _ => if s = '+' ∨ s = '-' then 1 else 0
        | [] => 0
      match ((rest.drop sign).takeWhile isDigit).length with
      | 0 => 0
      | n + 1 => 1 + sign + (n + 1)
    else 0
  | [] => 0

/-- Length of the digits and the point of a number at the front of a text. -/
def mantissaLength (cs : List Char) : Nat :=
  match (cs.takeWhile isDigit).length with
  | 0 =>
    match cs with
    | '.' :: rest =>
      match (rest.takeWhile isDigit).length with
      | 0 => 0
      | n + 1 => 1 + (n + 1)
    | _ => 0
  | n + 1 =>
    match cs.drop (n + 1) with
    | '.' :: rest => (n + 1) + 1 + (rest.takeWhile isDigit).length
    | _ => n + 1

def numberLength (cs : List Char) : Nat :=
  match mantissaLength cs with
  | 0 => 0
  | n + 1 => (n + 1) + exponentLength (cs.drop (n + 1))

def nameLength (cs : List Char) : Nat :=
  match cs with
  | c :: rest => if isNameStart c then 1 + (rest.takeWhile isNamePart).length else 0
  | [] => 0

def operatorLength : List Char → Nat
  | '*' :: '*' :: _ => 2
  | c :: _ => if isOperator c then 1 else 0
  | [] => 0

/-- Kind and length of the token at the front of a text. -/
def front? (cs : List Char) : Option (TokenKind × Nat) :=
  if 0 < numberLength cs then some (.number, numberLength cs)
  else if 0 < nameLength cs then some (.name, nameLength cs)
  else if 0 < operatorLength cs then some (.op, operatorLength cs)
  else none

theorem length_pos_of_front? {cs : List Char} {kind : TokenKind} {n : Nat}
    (h : front? cs = some (kind, n)) : 0 < n := by
  unfold front? at h
  split at h
  · next hp => cases h; exact hp
  · split at h
    · next hp => cases h; exact hp
    · split at h
      · next hp => cases h; exact hp
      · cases h

/-- The text a token is known by. -/
def tokenText (kind : TokenKind) (cs : List Char) : String :=
  if kind = .op ∧ cs = ['*', '*'] then "^" else String.ofList cs

/-- Splits text into tokens, the first character standing at `position`.
Fails at the first character that begins no token. -/
def tokensFrom (position : Nat) (cs : List Char) : Except Nat (List Token) :=
  match cs with
  | [] => .ok []
  | c :: rest =>
    if isBlank c then tokensFrom (position + 1) rest
    else
      match _h : front? (c :: rest) with
      | none => .error position
      | some (kind, n) => do
        let tokens ← tokensFrom (position + n) ((c :: rest).drop n)
        return ⟨kind, tokenText kind ((c :: rest).take n), position⟩ :: tokens
termination_by cs.length
decreasing_by
  · simp
  · have := length_pos_of_front? _h
    simp only [List.length_drop, List.length_cons]
    omega

/-- Number of characters up to the last one that is not blank. -/
def textEnd (cs : List Char) : Nat := (cs.reverse.dropWhile isBlank).length

/-- The tokens of a formula, closed by an end token. -/
def tokenize (cs : List Char) : Except Nat (List Token) :=
  (tokensFrom 0 cs).map (· ++ [⟨.stop, "", textEnd cs⟩])

end Gantry.Formula
