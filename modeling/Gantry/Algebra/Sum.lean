import Gantry.Algebra.Sign

/-!
Sums in canonical form: like terms are collected, numbers come together in
front, and a number is distributed over a sum it multiplies alone. Further
terms next to an infinity disappear when they are known to be finite.
-/

namespace Gantry.Algebra.Expr

/-- Adds `c` times the term `t` to terms collected so far. -/
def addTerm (t : Expr) (c : Coefficient) : List (Expr × Coefficient) → List (Expr × Coefficient)
  | [] => [(t, c)]
  | (s, d) :: rest => if s == t then (s, d.add c) :: rest else (s, d) :: addTerm t c rest

structure Collected where
  number : Coefficient
  terms : List (Expr × Coefficient)
  deriving Inhabited

/-- Collects the terms of a sum by what they are multiples of. -/
def collect (known : Collected) : List Expr → Collected
  | [] => known
  | .number c :: ts => collect { known with number := known.number.add c } ts
  | t :: ts =>
    let (c, s) := t.splitCoefficient
    collect { known with terms := addTerm s c known.terms } ts

/-- Whether a term vanishes beside an infinite number. -/
def absorbed : Coefficient → Expr → Bool
  | .infinite _, t => t.isReal
  | .unsignedInfinite, t => t.isReal
  | _, _ => false

def rebuildTerm : Expr × Coefficient → Option Expr
  | (t, c) => if c.isZero then none else some (withCoefficient c t)

/-- The sum of expressions. -/
def sumOf (es : List Expr) : Expr :=
  match es.filter (!·.isZero) with
  | [] => zero
  | [e] => e
  | es =>
    let found := collect ⟨.zero, []⟩ (es.flatMap terms)
    if found.number == .undefined || found.terms.any (·.2 == .undefined) then .number .undefined
    else
      let ts := sortParts ((found.terms.filterMap rebuildTerm).filter (!absorbed found.number ·))
      if found.number.isZero then ofTerms ts else ofTerms (.number found.number :: ts)

/-- A term multiplied by a number, as it appears in a sum. -/
def scaleTerm (c : Coefficient) (t : Expr) : Expr :=
  match t with
  | .number d => .number (c.mul d)
  | t =>
    let (d, s) := t.splitCoefficient
    withCoefficient (c.mul d) s

/-- A number distributed over terms. -/
def distribute (c : Coefficient) (ts : List Expr) : Expr :=
  let scaled := ts.map (scaleTerm c)
  let numbers := scaled.filterMap number?
  let others := sortParts (scaled.filter fun t => t.number?.isNone)
  let total := numbers.foldl Coefficient.add .zero
  if total.isZero then ofTerms others else ofTerms (.number total :: others)

/-- A multiple of an expression. A sum is multiplied term by term, unless it
already has a number before it. -/
def scale (c : Coefficient) (e : Expr) : Expr :=
  if c.isOne then e
  else
    match e with
    | .sum ts => distribute c ts
    | e => scaleTerm c e

/-- The opposite of an expression. -/
def negated (e : Expr) : Expr := scale (.ofInt (-1)) e

def minus (a b : Expr) : Expr := sumOf [a, negated b]

end Gantry.Algebra.Expr
