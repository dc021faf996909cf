import Gantry.Algebra.Derivative
import Gantry.Algebra.Reader

/-!
The algebra that expressions are built with. An algebra simplifies what it puts
together, and which form it chooses is its own affair; the standard one follows
the rules of this directory. Gradients are derivatives without their impulses.
-/

namespace Gantry.Algebra

/-- What expressions are put together, differentiated and read with. -/
class Engine where
  sumOf : List Expr → Expr
  productOf : List Expr → Expr
  powerOf : Expr → Expr → Expr
  negated : Expr → Expr
  applied : Head → List Expr → Expr
  /-- The derivative by a symbol, impulses included. -/
  derivative : String → Expr → Expr
  /-- The expression of a text in which some names stand for expressions. -/
  read : List (String × Expr) → String → Except ReadFailure Expr

namespace Engine

instance standard : Engine where
  sumOf := Expr.sumOf
  productOf := Expr.productOf
  powerOf := Expr.powerOf
  negated := Expr.negated
  applied := Expr.applied
  derivative := Expr.derivative
  read := Expr.read

variable [Engine]

def minus (a b : Expr) : Expr := sumOf [a, negated b]

def quotientOf (a b : Expr) : Expr :=
  if a.isOne then powerOf b Expr.minusOne else productOf [a, powerOf b Expr.minusOne]

mutual

/-- An expression with its impulses replaced by zero, and whether it had any. -/
def dropImpulses : Expr → Expr × Bool
  | .sum ts => let (ts', changed) := dropAllImpulses ts; (if changed then sumOf ts' else .sum ts, changed)
  | .product fs =>
    let (fs', changed) := dropAllImpulses fs
    (if changed then productOf fs' else .product fs, changed)
  | .power b e =>
    let (b', c) := dropImpulses b
    let (e', d) := dropImpulses e
    (if c || d then powerOf b' e' else .power b e, c || d)
  | .apply .impulse _ => (Expr.zero, true)
  | .apply f args =>
    let (args', changed) := dropAllImpulses args
    (if changed then applied f args' else .apply f args, changed)
  | e => (e, false)

def dropAllImpulses : List Expr → List Expr × Bool
  | [] => ([], false)
  | e :: es =>
    let (e', c) := dropImpulses e
    let (es', d) := dropAllImpulses es
    (e' :: es', c || d)

end

/-- The derivative by the symbol `x` almost everywhere. -/
def gradient (x : String) (e : Expr) : Expr := (dropImpulses (derivative x e)).1

end Engine

end Gantry.Algebra
