import Gantry.Formula.Operation

/-!
Formula trees. Parentheses written in a formula are kept as groups, so that
its text can be reproduced, and erased in its key, which is what the formula
is identified by. Operators, functions and constants are held by name; a name
without a meaning is noticed where the tree is used.
-/

namespace Gantry

inductive Formula where
  | number (n : Number)
  | constant (name : String)
  | variable (name : String)
  | group (inner : Formula)
  | unary (op : String) (operand : Formula)
  | binary (op : String) (left right : Formula)
  | call (name : String) (args : List Formula)
  deriving Inhabited

namespace Formula

/-- The parts of a formula, left to right. -/
def children : Formula → List Formula
  | .number _ | .constant _ | .variable _ => []
  | .group e => [e]
  | .unary _ e => [e]
  | .binary _ l r => [l, r]
  | .call _ args => args

/-- Literals, constants and variables. -/
def isTrivial : Formula → Bool
  | .number _ | .constant _ | .variable _ => true
  | _ => false

mutual

/-- The formula without its groups. -/
def key : Formula → Formula
  | .number n => .number n
  | .constant c => .constant c
  | .variable x => .variable x
  | .group e => e.key
  | .unary op e => .unary op e.key
  | .binary op l r => .binary op l.key r.key
  | .call f args => .call f (keyAll args)

def keyAll : List Formula → List Formula
  | [] => []
  | e :: es => e.key :: keyAll es

end

mutual

/-- Equality of trees, numbers compared as literals. -/
def same : Formula → Formula → Bool
  | .number m, .number n => m.agrees n
  | .constant a, .constant b => a == b
  | .variable a, .variable b => a == b
  | .group a, .group b => a.same b
  | .unary o a, .unary p b => o == p && a.same b
  | .binary o a b, .binary p c d => o == p && a.same c && b.same d
  | .call f as, .call g bs => f == g && sameAll as bs
  | _, _ => false

def sameAll : List Formula → List Formula → Bool
  | [], [] => true
  | a :: as, b :: bs => a.same b && sameAll as bs
  | _, _ => false

end

mutual

/-- All parts of a formula and the formula itself, each after its own parts. -/
def walk : Formula → List Formula
  | .number n => [.number n]
  | .constant c => [.constant c]
  | .variable x => [.variable x]
  | .group e => e.walk ++ [.group e]
  | .unary op e => e.walk ++ [.unary op e]
  | .binary op l r => l.walk ++ r.walk ++ [.binary op l r]
  | .call f args => walkAll args ++ [.call f args]

def walkAll : List Formula → List Formula
  | [] => []
  | e :: es => e.walk ++ walkAll es

end

mutual

/-- The variables of a formula as they occur. -/
def occurrences : Formula → List String
  | .number _ | .constant _ => []
  | .variable x => [x]
  | .group e => e.occurrences
  | .unary _ e => e.occurrences
  | .binary _ l r => l.occurrences ++ r.occurrences
  | .call _ args => occurrencesAll args

def occurrencesAll : List Formula → List String
  | [] => []
  | e :: es => e.occurrences ++ occurrencesAll es

end

mutual

/-- Number of levels of a tree. -/
def depth : Formula → Nat
  | .number _ | .constant _ | .variable _ => 1
  | .group e => e.depth + 1
  | .unary _ e => e.depth + 1
  | .binary _ l r => Nat.max l.depth r.depth + 1
  | .call _ args => depthAll args + 1

def depthAll : List Formula → Nat
  | [] => 0
  | e :: es => Nat.max e.depth (depthAll es)

end

/-- Removes repetitions from a sorted list. -/
def dedupSorted : List String → List String
  | a :: b :: rest => if a = b then dedupSorted (b :: rest) else a :: dedupSorted (b :: rest)
  | xs => xs

/-- The variables of a formula in code-point order, each once. -/
def variableNames (e : Formula) : List String :=
  dedupSorted (e.occurrences.mergeSort fun a b => decide (a ≤ b))

/-- Equality up to groups. -/
def sameKey (a b : Formula) : Bool := a.key.same b.key

end Formula

end Gantry
