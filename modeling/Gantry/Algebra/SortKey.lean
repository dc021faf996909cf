import Gantry.Algebra.Sum

/-!
The order in which parts of an expression are shown. Every expression has a
key: the kind of its base, the keys of its parts, its exponent and its numeric
coefficient, compared in this order. The terms of a sum are shown by
descending monomials in the bases that occur in it.
-/

namespace Gantry.Algebra

/-- A display key. A key with a label has it as its only part. -/
inductive SortKey where
  | node (kind group : Nat) (name : String) (label : Option String) (parts : List SortKey)
      (exponent : Option SortKey) (coefficient : Coefficient)
  deriving Inhabited

namespace SortKey

def coefficient : SortKey → Coefficient
  | .node _ _ _ _ _ _ c => c

def withCoefficient (c : Coefficient) : SortKey → SortKey
  | .node k g n l ps e _ => .node k g n l ps e c

def exponent : SortKey → Option SortKey
  | .node _ _ _ _ _ e _ => e

def withExponent : SortKey → SortKey → SortKey
  | .node k g n l ps _ c, e => .node k g n l ps (some e) c

def ofNumber (c : Coefficient) : SortKey := .node 1 0 "Number" none [] none c

def one : SortKey := ofNumber .one

def ofAtom (name label : String) : SortKey := .node 2 0 name (some label) [] (some one) .one

def partCount (label : Option String) (parts : List SortKey) : Nat :=
  if label.isSome then 1 else parts.length

mutual

def compare : SortKey → SortKey → Ordering
  | .node k₁ g₁ n₁ l₁ ps₁ e₁ c₁, .node k₂ g₂ n₂ l₂ ps₂ e₂ c₂ =>
    ((Ord.compare k₁ k₂).then ((Ord.compare g₁ g₂).then (Ord.compare n₁ n₂))).then <|
    ((Ord.compare (partCount l₁ ps₁) (partCount l₂ ps₂)).then
      (Ord.compare (l₁.getD "") (l₂.getD ""))).then <|
    (compareAll ps₁ ps₂).then <|
    (match e₁, e₂ with
      | some a, some b => compare a b
      | _, _ => .eq).then (c₁.compare c₂)

def compareAll : List SortKey → List SortKey → Ordering
  | a :: as, b :: bs => (compare a b).then (compareAll as bs)
  | _, _ => .eq

end

def le (a b : SortKey) : Bool := compare a b != .gt

/-- Group of a function among the named ones. -/
def group : Head → Nat
  | .exp => 10
  | .log => 11
  | .sin => 20
  | .cos => 21
  | .tan => 22
  | .sinh => 30
  | .cosh => 31
  | .tanh => 32
  | .other _ => 0
  | _ => 10000

/-- Key of a function applied to parts. -/
def ofHead (f : Head) (parts : List SortKey) : SortKey :=
  match f with
  | .larger | .smaller => .node 5 0 f.name none parts (some one) .one
  | f => .node 4 (group f) f.name none parts (some one) .one

/-- The base a factor is a power of, and how often. Roots belong to the
base, and so do exponents that are not numbers, up to their coefficient. -/
def monomial (isExp : Bool) (factor : SortKey) : SortKey × Int :=
  let exponent? : Option SortKey :=
    if isExp then (match factor with | .node _ _ _ _ ps _ _ => ps.head?) else factor.exponent
  let withRoot (c : Coefficient) : SortKey :=
    if isExp then
      (match factor with
        | .node k g n l ps e d => .node k g n l (ps.map (·.withCoefficient c)) e d)
    else
      match factor.exponent with
      | some e => factor.withExponent (e.withCoefficient c)
      | none => factor
  match exponent?.map coefficient with
  | some (.exact q) => if q = 0 then (factor, 1) else (withRoot (.exact (mkRat 1 q.den)), q.num)
  | _ => (factor, 1)

def insertMonomial (m : SortKey × Int) : List (SortKey × Int) → List (SortKey × Int) :=
  insertSorted (fun a b => le a.1 b.1) m

/-- Compares monomials by their exponents, base by base; higher ones come
first. -/
def compareMonomials : List (SortKey × Int) → List (SortKey × Int) → Ordering
  | [], [] => .eq
  | (_, m) :: _, [] => if 0 < m then .lt else .gt
  | [], (_, n) :: _ => if 0 < n then .gt else .lt
  | (a, m) :: as, (b, n) :: bs =>
    match compare a b with
    | .lt => if 0 < m then .lt else .gt
    | .gt => if 0 < n then .gt else .lt
    | .eq => if n < m then .lt else if m < n then .gt else compareMonomials as bs

end SortKey

namespace Expr

/-- What decides the place of a term in a sum. -/
structure TermKey where
  monomial : List (SortKey × Int)
  coefficient : Binary64
  deriving Inhabited

def TermKey.le (a b : TermKey) : Bool :=
  match SortKey.compareMonomials a.monomial b.monomial with
  | .lt => true
  | .gt => false
  | .eq => !b.coefficient.lt a.coefficient

def isExponential : Expr → Bool
  | .apply .exp _ => true
  | _ => false

/-- Adds a factor to a term. Numbers go into the coefficient, unless they are
not real. -/
def TermKey.addFactor (t : TermKey) (f : Expr) (k : SortKey) : TermKey :=
  if f.isConstant then
    match f.approximate? with
    | some x => { t with coefficient := t.coefficient * x }
    | none => t
  else { t with monomial := SortKey.insertMonomial (k.monomial f.isExponential) t.monomial }

def TermKey.ofFactors (fs : List Expr) (ks : List SortKey) : TermKey :=
  (fs.zip ks).foldl (fun t (f, k) => t.addFactor f k) ⟨[], Binary64.one⟩

def TermKey.ofTerm (t : Expr) (ks : List SortKey) : TermKey := .ofFactors t.factors ks

/-- Whether a term is a number or a named constant. -/
def isPlainNumber : Expr → Bool
  | .number c => c.isNumber
  | .constant .imaginary => false
  | .constant _ => true
  | _ => false

/-- A positive number and a product of a negative number with something else
are shown in this order. -/
def numberFirst? : Expr → Expr → Bool
  | .number c, .product [.number d, e] => c.isPositive && d.isNegative && !e.isPlainNumber
  | .constant .imaginary, _ => false
  | .constant _, .product [.number d, e] => d.isNegative && !e.isPlainNumber
  | _, _ => false

/-- Puts terms, each with something that belongs to it, into the order in
which they are shown. -/
def orderTermsWith {α : Type} (ts : List (Expr × TermKey × α)) : List (Expr × α) :=
  match ts with
  | [(a, _, x), (b, _, y)] =>
    if numberFirst? a b then [(a, x), (b, y)]
    else if numberFirst? b a then [(b, y), (a, x)]
    else (sortBy (fun p q => p.2.1.le q.2.1) ts).map fun (t, _, z) => (t, z)
  | ts => (sortBy (fun p q => p.2.1.le q.2.1) ts).map fun (t, _, z) => (t, z)

def zip3 {α β γ : Type} : List α → List β → List γ → List (α × β × γ)
  | a :: as, b :: bs, c :: cs => (a, b, c) :: zip3 as bs cs
  | _, _, _ => []

/-- Name of the kind of a constant, and its text. -/
def NamedConstant.kindAndText : NamedConstant → String × String
  | .pi => ("Pi", "pi")
  | .e => ("Exp1", "E")
  | .imaginary => ("ImaginaryUnit", "I")

/-- The key of a product without coefficient, from the keys of its factors. -/
def productKey (ks : List SortKey) : SortKey :=
  .node 3 0 "Mul" none (sortBy SortKey.le ks) (some .one) .one

/-- The key of a sum, from its terms with their keys and those of their
factors. -/
def sumKey (ts : List Expr) (factorKeys : List (List SortKey)) (keys : List SortKey) : SortKey :=
  let triples := zip3 ts ((ts.zip factorKeys).map fun (t, ks) => TermKey.ofTerm t ks) keys
  .node 3 1 "Add" none ((orderTermsWith triples).map Prod.snd) (some .one) .one

def numberOrAtomKey (c : Coefficient) : SortKey :=
  match c with
  | .unsignedInfinite => .ofAtom "ComplexInfinity" "zoo"
  | c => .ofNumber c

/-- The key of a product from its factors and their keys. -/
def splitProductKey (fs : List Expr) (ks : List SortKey) : SortKey :=
  match fs, ks with
  | [.number c, _], [_, k] => if c.isNumber then k.withCoefficient c else productKey ks
  | .number c :: _, _ :: rest =>
    if c.isNumber then (productKey rest).withCoefficient c else productKey ks
  | _, _ => productKey ks

mutual

/-- The display key of an expression. -/
def sortKey : Expr → SortKey
  | .number c => numberOrAtomKey c
  | .constant c => let (kind, text) := NamedConstant.kindAndText c; .ofAtom kind text
  | .symbol name _ => .ofAtom "Symbol" name
  | .sum ts => sumKey ts (factorSortKeys ts) (sortKeys ts)
  | .product fs => splitProductKey fs (sortKeys fs)
  | .power b e => (bareSortKey b).withExponent (sortKey e)
  | .apply f args => .ofHead f (sortKeys args)

/-- The key of the base of a power, whose coefficient and exponent are not
split off. -/
def bareSortKey : Expr → SortKey
  | .number c => .node 1 0 "Number" (some (c.text false)) [] (some .one) .one
  | .constant c => let (kind, text) := NamedConstant.kindAndText c; .ofAtom kind text
  | .symbol name _ => .ofAtom "Symbol" name
  | .sum ts => sumKey ts (factorSortKeys ts) (sortKeys ts)
  | .product fs => productKey (sortKeys fs)
  | .power b e => .node 3 2 "Pow" none [sortKey b, sortKey e] (some .one) .one
  | .apply f args => .ofHead f (sortKeys args)

def sortKeys : List Expr → List SortKey
  | [] => []
  | e :: es => sortKey e :: sortKeys es

/-- The keys of the factors of each term. -/
def factorSortKeys : List Expr → List (List SortKey)
  | [] => []
  | .product fs :: ts => sortKeys fs :: factorSortKeys ts
  | t :: ts => [sortKey t] :: factorSortKeys ts

end

/-- The terms of a sum in the order in which they are shown. -/
def orderedTerms (ts : List Expr) : List Expr :=
  (orderTermsWith (ts.map fun t => (t, TermKey.ofTerm t (sortKeys t.factors), ()))).map Prod.fst

/-- Parts in the order of their keys. -/
def orderedByKey (es : List Expr) : List Expr :=
  (sortBy (fun a b => SortKey.le a.2 b.2) (es.map fun e => (e, e.sortKey))).map Prod.fst

/-- Whether a minus sign is taken out of a term. -/
def termLeadsWithMinus : Expr → Bool
  | .number c => c.isNegative
  | .product (.number c :: _) => c.isNegative
  | _ => false

/-- Whether a minus sign is taken out of an expression: of a sum when most of
its terms have one, and in a draw when that gives the later key. -/
def leadsWithMinus (e : Expr) : Bool :=
  match e with
  | .sum ts =>
    let minus := (ts.filter termLeadsWithMinus).length
    if ts.length < 2 * minus then true
    else if 2 * minus < ts.length then false
    else e.sortKey.compare (negated e).sortKey == .lt
  | e => termLeadsWithMinus e

end Expr

end Gantry.Algebra
