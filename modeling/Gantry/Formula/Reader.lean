import Gantry.Formula.Grammar
import Gantry.Fault

/-!
Reading a formula from text, and what is said when that fails. The message
names the place as an index into the text and quotes the text.
-/

namespace Gantry

structure ParseFailure where
  formula : String
  cause : Formula.ParseCause
  /-- Missing just when the formula is empty or blank. -/
  position : Option Nat
  deriving DecidableEq, Inhabited

namespace Formula

def ParseCause.wording : ParseCause → String
  | .empty => "empty formula"
  | .badCharacter => "unexpected character"
  | .unexpected text => "unexpected " ++ Text.quoted text
  | .unexpectedEnd => "unexpected end of formula"
  | .expected text => "expected " ++ Text.quoted text
  | .unknownFunction name => "unknown function " ++ Text.quoted name
  | .argumentCount name arity given =>
    name ++ "() takes " ++ toString arity ++ " argument(s), got " ++ toString given
  | .numberTooLong => "number too long"

end Formula

def ParseFailure.message (f : ParseFailure) : String :=
  match f.position with
  | some p =>
    f.cause.wording ++ " at position " ++ toString p ++ " in " ++ Text.quoted f.formula
  | none =>
    if f.formula.isEmpty then f.cause.wording
    else f.cause.wording ++ " in " ++ Text.quoted f.formula

def ParseFailure.fault (f : ParseFailure) : Fault :=
  match f.cause with
  | .numberTooLong => .value none
  | _ => .parse f.message f.formula f.position

namespace Formula

/-- Reads a formula whose calls are those of a signature. -/
def parseWith (σ : Signature) (s : String) : Except ParseFailure Formula :=
  match tokenize s.toList with
  | .error position => .error ⟨s, .badCharacter, some position⟩
  | .ok tokens =>
    match parseTokens σ tokens with
    | .ok e => .ok e
    | .error stop =>
      .error ⟨s, stop.cause, if stop.cause = .empty then none else some stop.position⟩

/-- Reads a formula. -/
def parse (s : String) : Except ParseFailure Formula := parseWith .formulas s

end Formula

end Gantry
