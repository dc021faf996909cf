import Gantry.Algebra.Expr

/-!
Rational powers of numbers. A power is written as a rational coefficient, a
product of radicals with exponents between zero and one, and a power of minus
one. Products of radicals are brought together by their common divisors.
-/

namespace Gantry.Algebra

/-- `base ^ exponent`, for bases above one and exponents between zero and
one. -/
structure Radical where
  base : Nat
  exponent : Rat
  deriving DecidableEq, Inhabited

namespace Radical

def expr (r : Radical) : Expr := .power (.number (.exact (r.base : Rat))) (.number (.exact r.exponent))

/-- How often `p` divides `n`, with the cofactor. -/
def multiplicity (p : Nat) : Nat → Nat → Nat × Nat
  | 0, n => (0, n)
  | fuel + 1, n =>
    if n % p = 0 then
      let (k, m) := multiplicity p fuel (n / p)
      (k + 1, m)
    else (0, n)

/-- Divides out the numbers from `p` on as long as their squares do not exceed
what is left. What remains after the last trial counts as prime. -/
def trialFactors : Nat → Nat → Nat → List (Nat × Nat)
  | 0, _, n => if n = 1 then [] else [(n, 1)]
  | fuel + 1, p, n =>
    if n = 1 then []
    else if n < p * p then [(n, 1)]
    else
      match multiplicity p (Nat.log2 n + 1) n with
      | (0, _) => trialFactors fuel (p + 1) n
      | (k, m) => (p, k) :: trialFactors fuel (p + 1) m

/-- Number of trial divisors. -/
def trialLimit : Nat := 32768

/-- Prime factors with their multiplicities. -/
def factors (n : Nat) : List (Nat × Nat) := trialFactors trialLimit 2 n

/-- `n ^ exponent` for a positive exponent: a whole coefficient and radicals. -/
def ofPower (n : Nat) (exponent : Rat) : Nat × List Radical :=
  let p := exponent.num.natAbs
  let q := exponent.den
  let primes := (factors n).map fun (b, k) => (b, k * p / q, k * p % q)
  let outside : Nat := primes.foldl (fun acc (b, whole, _) => acc * Nat.pow b whole) 1
  let shared := primes.filterMap fun (b, _, left) =>
    let g := Nat.gcd left q
    if left = 0 ∨ g = 1 then none else some ⟨b, mkRat (left / g) (q / g)⟩
  let single := primes.filterMap fun (b, _, left) =>
    if left = 0 ∨ Nat.gcd left q ≠ 1 then none else some (b, left)
  let common := single.foldl (fun g (_, left) => Nat.gcd g left) 0
  let inside : Nat := single.foldl (fun acc (b, left) => acc * Nat.pow b (left / common)) 1
  (outside, shared ++ (if inside = 1 then [] else [⟨inside, mkRat common q⟩]))

/-- Adds a radical to those gathered by base. -/
def gatherBase (r : Radical) : List Radical → List Radical
  | [] => [r]
  | s :: rest =>
    if s.base = r.base then { s with exponent := s.exponent + r.exponent } :: rest
    else s :: gatherBase r rest

/-- Adds a radical to those gathered by exponent. -/
def gatherExponent (r : Radical) : List Radical → List Radical
  | [] => [r]
  | s :: rest =>
    if s.exponent = r.exponent then { s with base := s.base * r.base } :: rest
    else s :: gatherExponent r rest

/-- Splits the whole part off an exponent. -/
def reduce (r : Radical) : Nat × List Radical :=
  let whole := r.exponent.floor.toNat
  let rest := r.exponent - whole
  (Nat.pow r.base whole, if rest = 0 ∨ r.base = 1 then [] else [{ r with exponent := rest }])

/-- Takes the common divisors of one radical with others out of both. -/
def shareDivisors (r : Radical) : List Radical → Radical × List Radical × List Radical
  | [] => (r, [], [])
  | s :: rest =>
    let g := Nat.gcd r.base s.base
    let (r', rest', grown) := shareDivisors { r with base := r.base / g } rest
    (r', { s with base := s.base / g } :: rest',
      if g = 1 then grown else ⟨g, r.exponent + s.exponent⟩ :: grown)

/-- Makes the bases of radicals coprime. -/
def separate : Nat → List Radical → Nat × List Radical
  | 0, rs => (1, rs)
  | _ + 1, [] => (1, [])
  | fuel + 1, r :: rest =>
    let (r', rest', grown) := shareDivisors r rest
    let reduced := grown.map reduce
    let (n, rs) := separate fuel
      (rest'.filter (·.base ≠ 1) ++ reduced.flatMap Prod.snd)
    (reduced.foldl (fun acc x => acc * x.1) n, if r'.base = 1 then rs else r' :: rs)

/-- The product of radicals: a whole coefficient and fewer radicals. -/
def combine (rs : List Radical) : Nat × List Radical :=
  let byBase := rs.foldl (fun acc r => gatherBase r acc) []
  let byExponent := byBase.foldl (fun acc r => gatherExponent r acc) []
  let reduced := byExponent.map reduce
  let (n, separated) := separate 50 (reduced.flatMap Prod.snd)
  let roots := separated.map fun r => ofPower r.base r.exponent
  (roots.foldl (fun acc x => acc * x.1) (reduced.foldl (fun acc x => acc * x.1) n),
    (roots.flatMap Prod.snd).foldl (fun acc r => gatherExponent r acc) [])

end Radical

/-- A rational power written out. -/
structure RationalPower where
  coefficient : Rat
  radicals : List Radical
  /-- The exponent of minus one. -/
  turns : Rat
  deriving Inhabited

/-- `n ^ e` for positive `n` and `e`. -/
def naturalPower (n : Nat) (e : Rat) : Rat × List Radical :=
  let (c, rs) := Radical.ofPower n e
  ((c : Rat), rs)

/-- A power of a nonzero rational with an exponent that is not whole. -/
def rationalPower (b e : Rat) : RationalPower :=
  let turns := if b < 0 then e else 0
  let size := if b < 0 then -b else b
  let (base, e) := if e < 0 then (1 / size, -e) else (size, e)
  let (top, above) := naturalPower base.num.natAbs e
  if base.den = 1 then ⟨top, above, turns⟩
  else
    let whole := e.floor.toNat + 1
    let (bottom, under) := naturalPower base.den (whole - e)
    let (n, rs) := Radical.combine (above ++ under)
    ⟨top * bottom * n / (base.den : Rat) ^ whole, rs, turns⟩

end Gantry.Algebra
