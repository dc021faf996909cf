import Gantry.Formula.Grammar

/-!
The grammar of formulas as a matter of tokens alone. Each rule relates the
tokens of a phrase to its tree and says nothing of how the phrase is found;
a derivation accounts for all of its tokens.
-/

namespace Gantry.Formula

/-- Whether a token is the operator with a given text. -/
def Token.Is (t : Token) (text : String) : Prop := t.kind = .op ∧ t.text = text

instance (t : Token) (text : String) : Decidable (t.Is text) :=
  inferInstanceAs (Decidable (_ ∧ _))

/-- Whether a name may be called with `n` arguments. -/
def Signature.Accepts (σ : Signature) (name : String) (n : Nat) : Prop :=
  ∃ arity, σ name = some arity ∧ arity.all (· == n) = true

/-- The functions of formulas are called with as many arguments as they have. -/
theorem accepts_formulas_iff {name : String} {n : Nat} :
    Signature.formulas.Accepts name n ↔ ∃ f, Function.ofName? name = some f ∧ f.arity = n := by
  constructor
  · rintro ⟨arity, harity, hn⟩
    obtain ⟨f, hf, rfl⟩ := Option.map_eq_some_iff.1 harity
    exact ⟨f, hf, by simpa using hn⟩
  · rintro ⟨f, hf, rfl⟩
    exact ⟨some f.arity, by rw [Signature.formulas, hf, Option.map_some], by simp⟩

section

variable (σ : Signature)

mutual

/-- `sum := product (('+' | '-') product)*`, to the left. -/
inductive IsSum : List Token → Formula → Prop
  | product {ts : List Token} {e : Formula} : IsProduct ts e → IsSum ts e
  | term {ts us : List Token} {t : Token} {a b : Formula} :
      IsSum ts a → t.Is "+" ∨ t.Is "-" → IsProduct us b → IsSum (ts ++ t :: us) (.binary t.text a b)

/-- `product := signed (('*' | '/') signed)*`, to the left. -/
inductive IsProduct : List Token → Formula → Prop
  | signed {ts : List Token} {e : Formula} : IsSigned ts e → IsProduct ts e
  | factor {ts us : List Token} {t : Token} {a b : Formula} :
      IsProduct ts a → t.Is "*" ∨ t.Is "/" → IsSigned us b →
        IsProduct (ts ++ t :: us) (.binary t.text a b)

/-- `signed := ('-' | '+') signed | power`. -/
inductive IsSigned : List Token → Formula → Prop
  | power {ts : List Token} {e : Formula} : IsPower ts e → IsSigned ts e
  | sign {ts : List Token} {t : Token} {e : Formula} :
      t.Is "-" ∨ t.Is "+" → IsSigned ts e → IsSigned (t :: ts) (.unary t.text e)

/-- `power := atom ['^' signed]`. -/
inductive IsPower : List Token → Formula → Prop
  | atom {ts : List Token} {e : Formula} : IsAtom ts e → IsPower ts e
  | power {ts us : List Token} {t : Token} {a b : Formula} :
      IsAtom ts a → t.Is "^" → IsSigned us b → IsPower (ts ++ t :: us) (.binary "^" a b)

/-- `atom := number | constant | variable | '(' sum ')' | name '(' arguments ')'`.
A number token with no value derives nothing, and so does a call that the
signature does not accept. -/
inductive IsAtom : List Token → Formula → Prop
  | number {t : Token} {n : Number} :
      t.kind = .number → numberValue? t.text = some n → IsAtom [t] (.number n)
  | constant {t : Token} :
      t.kind = .name → (constant? t.text).isSome = true → IsAtom [t] (.constant t.text)
  | var {t : Token} : t.kind = .name → constant? t.text = none → IsAtom [t] (.variable t.text)
  | group {ts : List Token} {p q : Token} {e : Formula} :
      p.Is "(" → IsSum ts e → q.Is ")" → IsAtom (p :: (ts ++ [q])) (.group e)
  | call {ts : List Token} {f p q : Token} {args : List Formula} :
      f.kind = .name → p.Is "(" → AreArguments ts args → q.Is ")" →
        σ.Accepts f.text args.length → IsAtom (f :: p :: (ts ++ [q])) (.call f.text args)

/-- `arguments := [sum (',' sum)*]`. -/
inductive AreArguments : List Token → List Formula → Prop
  | none : AreArguments [] []
  | last {ts : List Token} {e : Formula} : IsSum ts e → AreArguments ts [e]
  | more {ts us : List Token} {t : Token} {a b : Formula} {es : List Formula} :
      IsSum ts a → t.Is "," → AreArguments us (b :: es) →
        AreArguments (ts ++ t :: us) (a :: b :: es)

end

end

variable {σ : Signature} {xs ys zs : List Token} {x y z : Formula} {s p q : Token}

/-- A product is built from its first factor, one factor after the other. -/
@[elab_as_elim]
theorem IsProduct.induction {motive : ∀ ts e, IsProduct σ ts e → Prop}
    (signed : ∀ {ts : List Token} {e : Formula} (h : IsSigned σ ts e), motive ts e (.signed h))
    (factor : ∀ {ts us : List Token} {t : Token} {a b : Formula} (ha : IsProduct σ ts a)
      (hop : t.Is "*" ∨ t.Is "/") (hb : IsSigned σ us b),
      motive ts a ha → motive (ts ++ t :: us) (.binary t.text a b) (.factor ha hop hb)) :
    ∀ {ts : List Token} {e : Formula} (h : IsProduct σ ts e), motive ts e h
  | _, _, .signed h => signed h
  | _, _, .factor ha hop hb => factor ha hop hb (IsProduct.induction signed factor ha)

theorem nameValue_of_isSome {name : String} (h : (constant? name).isSome = true) :
    nameValue name = .constant name := by
  obtain ⟨v, hv⟩ := Option.isSome_iff_exists.1 h
  rw [nameValue, hv]

theorem nameValue_of_none {name : String} (h : constant? name = none) :
    nameValue name = .variable name := by
  rw [nameValue, h]

theorem isAtom_name {t : Token} (h : t.kind = .name) : IsAtom σ [t] (nameValue t.text) := by
  unfold nameValue
  split
  · next hconstant => exact .constant h (by simp [hconstant])
  · next hconstant => exact .var h hconstant

theorem IsPower.isSum (h : IsPower σ xs x) : IsSum σ xs x := .product (.signed (.power h))

/-- A sign stands before the whole power that follows it. -/
theorem isSum_sign_power (hs : s.Is "-") (hx : IsAtom σ xs x) (hp : p.Is "^")
    (hy : IsAtom σ ys y) : IsSum σ (s :: (xs ++ p :: ys)) (.unary "-" (.binary "^" x y)) := by
  have hpower : IsSigned σ (xs ++ p :: ys) (.binary "^" x y) :=
    .power (.power hx hp (.power (.atom hy)))
  exact hs.2 ▸ .product (.signed (.sign (.inl hs) hpower))

/-- An exponent may have a sign, and is then a power itself. -/
theorem isSum_power_sign_power (hx : IsAtom σ xs x) (hp : p.Is "^") (hs : s.Is "-")
    (hy : IsAtom σ ys y) (hq : q.Is "^") (hz : IsAtom σ zs z) :
    IsSum σ (xs ++ p :: s :: (ys ++ q :: zs))
      (.binary "^" x (.unary "-" (.binary "^" y z))) := by
  have hpower : IsSigned σ (ys ++ q :: zs) (.binary "^" y z) :=
    .power (.power hy hq (.power (.atom hz)))
  have hexponent : IsSigned σ (s :: (ys ++ q :: zs)) (.unary "-" (.binary "^" y z)) :=
    hs.2 ▸ .sign (.inl hs) hpower
  exact (IsPower.power hx hp hexponent).isSum

/-- Powers associate to the right. -/
theorem isSum_power_power (hx : IsAtom σ xs x) (hp : p.Is "^") (hy : IsAtom σ ys y)
    (hq : q.Is "^") (hz : IsAtom σ zs z) :
    IsSum σ (xs ++ p :: (ys ++ q :: zs)) (.binary "^" x (.binary "^" y z)) := by
  have hexponent : IsSigned σ (ys ++ q :: zs) (.binary "^" y z) :=
    .power (.power hy hq (.power (.atom hz)))
  exact (IsPower.power hx hp hexponent).isSum

end Gantry.Formula
