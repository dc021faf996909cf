import Gantry.Formula.Basic
import Gantry.Fault

/-!
The text of a formula. Parentheses are written where a part binds less tightly
than its place requires, and wherever the formula holds a group. Powers
associate to the right, the other operators to the left. A tree with an
unknown binary operator or with too long a whole number has no text.
-/

namespace Gantry.Formula

/-- Binding strengths, weakest first. -/
def sumLevel : Nat := 1
def productLevel : Nat := 2
def signLevel : Nat := 3
def powerLevel : Nat := 4
def atomLevel : Nat := 5

def operatorLevel? : String → Option Nat
  | "+" | "-" => some sumLevel
  | "*" | "/" => some productLevel
  | "^" => some powerLevel
  | _ => none

/-- How tightly the text of a formula holds together. -/
def level? : Formula → Option Nat
  | .number n => some (if n.isNegative then signLevel else atomLevel)
  | .unary _ _ => some signLevel
  | .binary op _ _ => operatorLevel? op
  | _ => some atomLevel

def enclose (cs : List Char) : List Char := '(' :: (cs ++ [')'])

/-- Text of an operand of level `inner` in a place of level `outer`; a tight
place does not take an operand of its own level bare. -/
def operandText (outer : Nat) (tight : Bool) (inner : Nat) (cs : List Char) : List Char :=
  if inner < outer ∨ (tight = true ∧ inner = outer) then enclose cs else cs

/-- Why a formula is not written. -/
inductive WriteFailure where
  | unknownOperator
  /-- A whole number has more digits than are written. -/
  | numberTooLong
  deriving DecidableEq, Inhabited

def WriteFailure.fault : WriteFailure → Fault
  | .unknownOperator => .key none
  | .numberTooLong => .value none

/-- What is known of an operator, which has to be known itself. -/
def known {α : Type} : Option α → Except WriteFailure α
  | some a => .ok a
  | none => .error .unknownOperator

def literal (n : Number) : Except WriteFailure String :=
  match n.text? with
  | some s => .ok s
  | none => .error .numberTooLong

mutual

def chars : Formula → Except WriteFailure (List Char)
  | .number n => (literal n).map String.toList
  | .constant c => .ok c.toList
  | .variable x => .ok x.toList
  | .group e => e.chars.map enclose
  | .unary op e => do
    let cs ← e.chars
    let inner ← known e.level?
    return op.toList ++ operandText signLevel false inner cs
  | .binary op l r => do
    let ls ← l.chars
    let left ← known l.level?
    let outer ← known (operatorLevel? op)
    let rs ← r.chars
    let right ← known r.level?
    let toRight := op == "^"
    return operandText outer toRight left ls ++ ' ' :: op.toList ++
      ' ' :: operandText outer (!toRight) right rs
  | .call f args => do
    let inside ← argsChars args
    return f.toList ++ enclose inside

def argsChars : List Formula → Except WriteFailure (List Char)
  | [] => .ok []
  | [e] => e.chars
  | e :: es => do
    let cs ← e.chars
    let rest ← argsChars es
    return cs ++ ',' :: ' ' :: rest

end

/-- The text of a formula. -/
def write (e : Formula) : Except WriteFailure String := e.chars.map String.ofList

end Gantry.Formula
