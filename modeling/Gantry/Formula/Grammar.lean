import Gantry.Formula.Basic
import Gantry.Formula.Token

/-!
The grammar of formulas, read from tokens: sums of products of signed powers
of atoms. Sums and products associate to the left; the exponent of a power is
a signed power, so powers associate to the right and bind tighter than a sign
before them but looser than one after. Each rule returns the tokens it leaves.
-/

namespace Gantry.Formula

/-- Why formula text cannot be read. -/
inductive ParseCause where
  | empty
  | badCharacter
  | unexpected (text : String)
  | unexpectedEnd
  | expected (text : String)
  | unknownFunction (name : String)
  | argumentCount (name : String) (arity given : Nat)
  /-- A whole number with more digits than are read. -/
  | numberTooLong
  deriving DecidableEq, Inhabited

/-- A cause and the place it is noticed at. -/
structure ParseStop where
  cause : ParseCause
  position : Nat
  deriving DecidableEq, Inhabited

/-- Tokens left over after reading at least one token of `ts`. -/
abbrev Shorter (ts : List Token) := { rest : List Token // rest.length < ts.length }

/-- Tokens left over after reading any number of tokens of `ts`. -/
abbrev Remaining (ts : List Token) := { rest : List Token // rest.length ≤ ts.length }

/-- Whether the tokens begin with the operator `text`. -/
def startsWith (text : String) : List Token → Bool
  | t :: _ => t.kind == .op && t.text == text
  | [] => false

/-- The value of a number token: whole unless it has a point or an exponent.
Only a whole number that is too long has none. -/
def numberValue? (text : String) : Option Number :=
  if text.toList.any fun c => c == '.' || c == 'e' || c == 'E' then
    some (.real ((Decimal.readReal? text).getD Binary64.zero))
  else if wholeDigitLimit < text.length then none
  else some (.int (Text.digitsValue text.toList))

/-- The functions that may be called, each with its number of arguments where
that is fixed. -/
abbrev Signature := String → Option (Option Nat)

/-- The functions of formulas. -/
def Signature.formulas : Signature := fun name =>
  (Function.ofName? name).map fun f => some f.arity

/-- Every name, with any number of arguments. -/
def Signature.any : Signature := fun _ => some none

/-- What a name that is not called stands for. -/
def nameValue (name : String) : Formula :=
  match constant? name with
  | some _ => .constant name
  | none => .variable name

mutual

def parseSum (σ : Signature) (ts : List Token) : Except ParseStop (Formula × Shorter ts) :=
  match parseProduct σ ts with
  | .error e => .error e
  | .ok (left, ⟨rest, h⟩) =>
    match parseTerms σ left rest with
    | .error e => .error e
    | .ok (sum, ⟨rest', h'⟩) => .ok (sum, ⟨rest', Nat.lt_of_le_of_lt h' h⟩)
termination_by (ts.length, 5)

/-- Further terms of a sum that begins with `left`. -/
def parseTerms (σ : Signature) (left : Formula) (ts : List Token) : Except ParseStop (Formula × Remaining ts) :=
  match ts with
  | [] => .ok (left, ⟨[], Nat.le_refl _⟩)
  | t :: more =>
    if t.kind = .op ∧ (t.text = "+" ∨ t.text = "-") then
      match parseProduct σ more with
      | .error e => .error e
      | .ok (right, ⟨rest, h⟩) =>
        match parseTerms σ (.binary t.text left right) rest with
        | .error e => .error e
        | .ok (sum, ⟨rest', h'⟩) =>
          .ok (sum, ⟨rest', Nat.le_of_lt (Nat.lt_succ_of_lt (Nat.lt_of_le_of_lt h' h))⟩)
    else .ok (left, ⟨t :: more, Nat.le_refl _⟩)
termination_by (ts.length, 0)
decreasing_by
  · decreasing_tactic
  · simp only [List.length_cons, Prod.lex_def]
    omega

def parseProduct (σ : Signature) (ts : List Token) : Except ParseStop (Formula × Shorter ts) :=
  match parseSigned σ ts with
  | .error e => .error e
  | .ok (left, ⟨rest, h⟩) =>
    match parseFactors σ left rest with
    | .error e => .error e
    | .ok (product, ⟨rest', h'⟩) => .ok (product, ⟨rest', Nat.lt_of_le_of_lt h' h⟩)
termination_by (ts.length, 4)

/-- Further factors of a product that begins with `left`. -/
def parseFactors (σ : Signature) (left : Formula) (ts : List Token) :
    Except ParseStop (Formula × Remaining ts) :=
  match ts with
  | [] => .ok (left, ⟨[], Nat.le_refl _⟩)
  | t :: more =>
    if t.kind = .op ∧ (t.text = "*" ∨ t.text = "/") then
      match parseSigned σ more with
      | .error e => .error e
      | .ok (right, ⟨rest, h⟩) =>
        match parseFactors σ (.binary t.text left right) rest with
        | .error e => .error e
        | .ok (product, ⟨rest', h'⟩) =>
          .ok (product, ⟨rest', Nat.le_of_lt (Nat.lt_succ_of_lt (Nat.lt_of_le_of_lt h' h))⟩)
    else .ok (left, ⟨t :: more, Nat.le_refl _⟩)
termination_by (ts.length, 0)
decreasing_by
  · decreasing_tactic
  · simp only [List.length_cons, Prod.lex_def]
    omega

def parseSigned (σ : Signature) (ts : List Token) : Except ParseStop (Formula × Shorter ts) :=
  match ts with
  | [] => .error ⟨.unexpectedEnd, 0⟩
  | t :: more =>
    if t.kind = .op ∧ (t.text = "-" ∨ t.text = "+") then
      match parseSigned σ more with
      | .error e => .error e
      | .ok (operand, ⟨rest, h⟩) => .ok (.unary t.text operand, ⟨rest, Nat.lt_succ_of_lt h⟩)
    else parsePower σ (t :: more)
termination_by (ts.length, 3)

def parsePower (σ : Signature) (ts : List Token) : Except ParseStop (Formula × Shorter ts) :=
  match parseAtom σ ts with
  | .error e => .error e
  | .ok (base, ⟨[], h⟩) => .ok (base, ⟨[], h⟩)
  | .ok (base, ⟨t :: more, h⟩) =>
    if t.kind = .op ∧ t.text = "^" then
      match parseSigned σ more with
      | .error e => .error e
      | .ok (exponent, ⟨rest, h'⟩) =>
        .ok (.binary "^" base exponent, ⟨rest, Nat.lt_trans (Nat.lt_succ_of_lt h') h⟩)
    else .ok (base, ⟨t :: more, h⟩)
termination_by (ts.length, 2)
decreasing_by
  · decreasing_tactic
  · simp only [List.length_cons] at h
    simp only [Prod.lex_def]
    omega

def parseAtom (σ : Signature) (ts : List Token) : Except ParseStop (Formula × Shorter ts) :=
  match ts with
  | [] => .error ⟨.unexpectedEnd, 0⟩
  | t :: more =>
    match t.kind with
    | .number =>
      match numberValue? t.text with
      | some n => .ok (.number n, ⟨more, Nat.lt_succ_self _⟩)
      | none => .error ⟨.numberTooLong, t.position⟩
    | .name =>
      match more with
      | [] => .ok (nameValue t.text, ⟨[], Nat.lt_succ_self _⟩)
      | p :: inside =>
        if p.kind = .op ∧ p.text = "(" then
          match σ t.text with
          | none => .error ⟨.unknownFunction t.text, t.position⟩
          | some arity =>
            match parseArguments σ inside with
            | .error e => .error e
            | .ok (args, ⟨rest, h⟩) =>
              if arity.all (· == args.length) then
                .ok (.call t.text args, ⟨rest, Nat.lt_succ_of_lt (Nat.lt_succ_of_lt h)⟩)
              else .error ⟨.argumentCount t.text (arity.getD 0) args.length, t.position⟩
        else .ok (nameValue t.text, ⟨p :: inside, Nat.lt_succ_self _⟩)
    | .op =>
      if t.text = "(" then
        match parseSum σ more with
        | .error e => .error e
        | .ok (inner, ⟨rest, h⟩) =>
          match rest with
          | [] => .error ⟨.expected ")", 0⟩
          | c :: after =>
            if c.kind = .op ∧ c.text = ")" then
              .ok (.group inner, ⟨after, Nat.lt_succ_of_lt (Nat.lt_of_succ_lt h)⟩)
            else .error ⟨.expected ")", c.position⟩
      else .error ⟨.unexpected t.text, t.position⟩
    | .stop => .error ⟨.unexpectedEnd, t.position⟩
termination_by (ts.length, 1)

/-- The arguments of a call, after its opening parenthesis. -/
def parseArguments (σ : Signature) (ts : List Token) : Except ParseStop (List Formula × Shorter ts) :=
  match ts with
  | [] => .error ⟨.unexpectedEnd, 0⟩
  | t :: more =>
    if t.kind = .op ∧ t.text = ")" then .ok ([], ⟨more, Nat.lt_succ_self _⟩)
    else parseArgumentList σ (t :: more)
termination_by (ts.length, 7)

/-- One or more arguments separated by commas, with the closing parenthesis. -/
def parseArgumentList (σ : Signature) (ts : List Token) : Except ParseStop (List Formula × Shorter ts) :=
  match parseSum σ ts with
  | .error e => .error e
  | .ok (_, ⟨[], _⟩) => .error ⟨.expected ")", 0⟩
  | .ok (first, ⟨t :: more, h⟩) =>
    if t.kind = .op ∧ t.text = "," then
      match parseArgumentList σ more with
      | .error e => .error e
      | .ok (others, ⟨rest, h'⟩) =>
        .ok (first :: others, ⟨rest, Nat.lt_trans (Nat.lt_succ_of_lt h') h⟩)
    else if t.kind = .op ∧ t.text = ")" then
      .ok ([first], ⟨more, Nat.lt_of_succ_lt h⟩)
    else .error ⟨.expected ")", t.position⟩
termination_by (ts.length, 6)
decreasing_by
  · decreasing_tactic
  · simp only [List.length_cons] at h
    simp only [Prod.lex_def]
    omega

end

/-- Reads a whole list of tokens, up to the end token. -/
def parseTokens (σ : Signature) (ts : List Token) : Except ParseStop Formula :=
  match ts with
  | [] => .error ⟨.empty, 0⟩
  | t :: _ =>
    if t.kind = .stop then .error ⟨.empty, t.position⟩
    else
      match parseSum σ ts with
      | .error e => .error e
      | .ok (_, ⟨[], _⟩) => .error ⟨.unexpectedEnd, 0⟩
      | .ok (e, ⟨u :: _, _⟩) =>
        if u.kind = .stop then .ok e else .error ⟨.unexpected u.text, u.position⟩

end Gantry.Formula
