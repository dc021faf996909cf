import Gantry.Proofs.Formula.Evaluation

/-!
How whole numbers are held. Operations put a whole number into the signed word it fits, so it makes
no difference to them whether it comes as it was given or in that word, unless it meets an unsigned
word. There are no unsigned words where none is made of a literal or taken from the scope.
-/

namespace Gantry

variable {a b a' b' v : Operand} {p q : Quantity} {k n : Int} {vs ws : List Operand}

/-! ### Whole numbers in signed words -/

theorem Whole.toInt_ofInt (hk : isSigned k = true) : (Int64.ofInt k).toInt = k := by
  rw [isSigned, Bool.and_eq_true, decide_eq_true_iff, decide_eq_true_iff] at hk
  exact Int64.toInt_ofInt_of_le hk.1 hk.2

theorem Whole.signed?_eq_some (hk : isSigned k = true) : signed? k = some (.ofInt k) := if_pos hk

/-- An operand that is given as a whole number where another has the signed word. -/
def Recast (a b : Operand) : Prop :=
  a = b ∨ ∃ k, Whole.isSigned k = true ∧ a = some (.given (.int k)) ∧ b = some (.signed (.ofInt k))

theorem Recast.refl (a : Operand) : Recast a a := .inl rfl

theorem Recast.value_eq (h : Recast a b) : Operand.value a = Operand.value b := by
  obtain rfl | ⟨k, hk, rfl, rfl⟩ := h
  · rfl
  · simp [Operand.value, Quantity.number, Whole.toInt_ofInt hk]

/-- Operands that are in no unsigned word. -/
def Operand.NotUnsigned (a : Operand) : Prop := ∀ w, a ≠ some (.unsigned w)

namespace Quantity

variable {signed : Int64 → Int64 → Int64} {unsigned : UInt64 → UInt64 → UInt64}
  {fractional : Binary64 → Binary64 → Binary64}

theorem number_given (hk : Whole.isSigned k = true) :
    (given (.int k)).number = (Quantity.signed (.ofInt k)).number := by
  rw [number, number, Whole.toInt_ofInt hk]

theorem map_given (f : Int64 → Int64) (g : UInt64 → UInt64) (whole : Int → Int)
    (h : Binary64 → Binary64) (hk : Whole.isSigned k = true) :
    (given (.int k)).map f g whole h = (Quantity.signed (.ofInt k)).map f g whole h := if_pos hk

theorem combineReals_given_left (hk : Whole.isSigned k = true) :
    combineReals fractional (given (.int k)) q =
      combineReals fractional (Quantity.signed (.ofInt k)) q := by
  rw [combineReals, combineReals, number_given hk]

theorem combineReals_given_right (hk : Whole.isSigned k = true) :
    combineReals fractional p (given (.int k)) =
      combineReals fractional p (Quantity.signed (.ofInt k)) := by
  rw [combineReals, combineReals, number_given hk]

theorem combine_given_left (hk : Whole.isSigned k = true) (hq : ∀ w, q ≠ .unsigned w) :
    combine signed unsigned fractional (given (.int k)) q =
      combine signed unsigned fractional (Quantity.signed (.ofInt k)) q := by
  cases q with
  | given m =>
      cases m with
      | int m => rw [combine, combine, Whole.signed?_eq_some hk]
      | real x => exact combineReals_given_left hk
  | signed w => rw [combine, combine, Whole.signed?_eq_some hk]
  | unsigned w => exact absurd rfl (hq w)

theorem combine_given_right (hk : Whole.isSigned k = true) (hp : ∀ w, p ≠ .unsigned w) :
    combine signed unsigned fractional p (given (.int k)) =
      combine signed unsigned fractional p (Quantity.signed (.ofInt k)) := by
  cases p with
  | given m =>
      cases m with
      | int m => rw [combine, combine, Whole.signed?_eq_some hk]
      | real x => exact combineReals_given_right hk
  | signed w => rw [combine, combine, Whole.signed?_eq_some hk]
  | unsigned w => exact absurd rfl (hp w)

end Quantity

/-! ### Operations -/

/-- The operations that work in words. -/
def BinaryOp.joinsWords : BinaryOp → Bool
  | .add | .sub | .mul => true
  | .div | .pow => false

def Function.joinsWords : Function → Bool
  | .larger | .smaller => true
  | _ => false

theorem UnaryOp.onQuantity_given (o : UnaryOp) (hk : Whole.isSigned k = true) :
    o.onQuantity (.given (.int k)) = o.onQuantity (.signed (.ofInt k)) := by
  cases o <;> simp only [onQuantity, Quantity.map_given _ _ _ _ hk]

theorem BinaryOp.onQuantities_given_left (o : BinaryOp) (hk : Whole.isSigned k = true)
    (hq : o.joinsWords = true → ∀ w, q ≠ .unsigned w) :
    o.onQuantities (.given (.int k)) q = o.onQuantities (.signed (.ofInt k)) q := by
  cases o with
  | add | sub | mul => exact Quantity.combine_given_left hk (hq rfl)
  | div | pow => exact Quantity.combineReals_given_left hk

theorem BinaryOp.onQuantities_given_right (o : BinaryOp) (hk : Whole.isSigned k = true)
    (hp : o.joinsWords = true → ∀ w, p ≠ .unsigned w) :
    o.onQuantities p (.given (.int k)) = o.onQuantities p (.signed (.ofInt k)) := by
  cases o with
  | add | sub | mul => exact Quantity.combine_given_right hk (hp rfl)
  | div | pow => exact Quantity.combineReals_given_right hk

theorem Function.onQuantity_given (f : Function) (hk : Whole.isSigned k = true) :
    f.onQuantity (.given (.int k)) = f.onQuantity (.signed (.ofInt k)) := by
  cases f with
  | elementary e =>
      have hword : Whole.toReal? k = some (Binary64.ofInt k) := by simp [Whole.toReal?, hk]
      simp only [onQuantity, hword, ← Quantity.number_given hk]
      rfl
  | abs | floor | ceiling | sign => simp only [onQuantity, Quantity.map_given _ _ _ _ hk]
  | step => simp only [onQuantity, Quantity.number_given hk]
  | atan2 | larger | smaller => rfl

theorem Function.onQuantities_given_left (f : Function) (hk : Whole.isSigned k = true)
    (hq : f.joinsWords = true → ∀ w, q ≠ .unsigned w) :
    f.onQuantities (.given (.int k)) q = f.onQuantities (.signed (.ofInt k)) q := by
  cases f with
  | larger | smaller => exact Quantity.combine_given_left hk (hq rfl)
  | atan2 => exact Quantity.combineReals_given_left hk
  | _ => rfl

theorem Function.onQuantities_given_right (f : Function) (hk : Whole.isSigned k = true)
    (hp : f.joinsWords = true → ∀ w, p ≠ .unsigned w) :
    f.onQuantities p (.given (.int k)) = f.onQuantities p (.signed (.ofInt k)) := by
  cases f with
  | larger | smaller => exact Quantity.combine_given_right hk (hp rfl)
  | atan2 => exact Quantity.combineReals_given_right hk
  | _ => rfl

/-! ### Operands -/

theorem UnaryOp.apply_recast (o : UnaryOp) (h : Recast a b) : o.apply a = o.apply b := by
  obtain rfl | ⟨k, hk, rfl, rfl⟩ := h
  · rfl
  · rw [apply, apply, o.onQuantity_given hk]

/-- Two operands may be recast one after the other. -/
theorem eq_of_recast {γ : Type} {f : Operand → Operand → γ} {joins : Bool}
    (hleft : ∀ k b, Whole.isSigned k = true → (joins = true → Operand.NotUnsigned b) →
      f (some (.given (.int k))) b = f (some (.signed (.ofInt k))) b)
    (hright : ∀ a k, Whole.isSigned k = true → (joins = true → Operand.NotUnsigned a) →
      f a (some (.given (.int k))) = f a (some (.signed (.ofInt k))))
    (ha : Recast a a') (hb : Recast b b')
    (h : joins = true → a = a' ∧ b = b' ∨ a'.NotUnsigned ∧ b.NotUnsigned) : f a b = f a' b' := by
  have hfirst : f a b = f a' b := by
    obtain rfl | ⟨k, hk, rfl, rfl⟩ := ha
    · rfl
    · refine hleft k b hk fun hjoins => ?_
      obtain ⟨heq, -⟩ | ⟨-, hclear⟩ := h hjoins
      · cases heq
      · exact hclear
  rw [hfirst]
  obtain rfl | ⟨k, hk, rfl, rfl⟩ := hb
  · rfl
  · refine hright a' k hk fun hjoins => ?_
    obtain ⟨-, heq⟩ | ⟨hclear, -⟩ := h hjoins
    · cases heq
    · exact hclear

theorem BinaryOp.apply_recast (o : BinaryOp) (ha : Recast a a') (hb : Recast b b')
    (h : o.joinsWords = true → a = a' ∧ b = b' ∨ a'.NotUnsigned ∧ b.NotUnsigned) :
    o.apply a b = o.apply a' b' := by
  refine eq_of_recast (f := o.apply) (fun k b hk hclear => ?_)
    (fun a k hk hclear => ?_) ha hb h
  · rcases b with _ | q
    · rfl
    · have hq (hjoins : o.joinsWords = true) (w : UInt64) : q ≠ .unsigned w :=
        fun heq => hclear hjoins w (congrArg some heq)
      rw [apply, apply, o.onQuantities_given_left hk hq]
  · rcases a with _ | p
    · rfl
    · have hp (hjoins : o.joinsWords = true) (w : UInt64) : p ≠ .unsigned w :=
        fun heq => hclear hjoins w (congrArg some heq)
      rw [apply, apply, o.onQuantities_given_right hk hp]

theorem Function.apply_one (f : Function) (a : Operand) (hcount : f.arity = 1) :
    f.apply [a] = match a with
      | some p => (f.onQuantity p).map some
      | none => .error .absent := by
  unfold apply
  rw [if_neg (by simp [hcount])]
  cases a <;> rfl

theorem Function.apply_two (f : Function) (a b : Operand) (hcount : f.arity = 2) :
    f.apply [a, b] = match a, b with
      | some p, some q => (f.onQuantities p q).map some
      | _, _ => .error .absent := by
  unfold apply
  rw [if_neg (by simp [hcount])]
  cases a <;> cases b <;> rfl

theorem Function.apply_recast (f : Function) (hs : List.Forall₂ Recast vs ws)
    (h : f.joinsWords = true → vs = ws ∨
      (∀ v ∈ vs, Operand.NotUnsigned v) ∧ ∀ w ∈ ws, Operand.NotUnsigned w) :
    f.apply vs = f.apply ws := by
  by_cases hcount : vs.length = f.arity
  · cases hs with
    | nil => rfl
    | @cons a a' as as' ha hs =>
        cases hs with
        | nil =>
            rw [apply_one _ _ hcount.symm, apply_one _ _ hcount.symm]
            obtain rfl | ⟨k, hk, rfl, rfl⟩ := ha
            · rfl
            · simp only [f.onQuantity_given hk]
        | @cons b b' bs bs' hb hs =>
            obtain rfl : bs = [] := by
              have harity : f.arity ≤ 2 := by cases f <;> simp [arity]
              simp only [List.length_cons] at hcount
              exact List.length_eq_zero_iff.1 (by omega)
            cases hs
            rw [apply_two _ _ _ hcount.symm, apply_two _ _ _ hcount.symm]
            refine eq_of_recast (f := fun a b : Operand => match a, b with
              | some p, some q => (f.onQuantities p q).map some
              | _, _ => .error .absent) (fun k b hk hclear => ?_)
              (fun a k hk hclear => ?_) ha hb fun (hjoins : f.joinsWords = true) => ?_
            · rcases b with _ | q
              · rfl
              · have hq (hjoins : f.joinsWords = true) (w : UInt64) : q ≠ .unsigned w :=
                  fun heq => hclear hjoins w (congrArg some heq)
                simp only [f.onQuantities_given_left hk hq]
            · rcases a with _ | p
              · rfl
              · have hp (hjoins : f.joinsWords = true) (w : UInt64) : p ≠ .unsigned w :=
                  fun heq => hclear hjoins w (congrArg some heq)
                simp only [f.onQuantities_given_right hk hp]
            · refine (h hjoins).imp (fun heq => ?_) fun hclear => ?_
              · simpa using heq
              · exact ⟨hclear.2 a' (by simp), hclear.1 b (by simp)⟩
  · unfold apply
    rw [if_pos hcount, if_pos (hs.length_eq ▸ hcount)]

/-! ### Where no unsigned words are made -/

/-- Numbers of which nothing is put into an unsigned word: whole ones fit a signed word, or no
word either with their sign or without it. -/
def Number.Settled : Number → Prop
  | .int k => Whole.isSigned k = true ∨ Whole.unsignedEnd ≤ k.natAbs
  | .real _ => True

def Quantity.Settled : Quantity → Prop
  | .given n => n.Settled
  | .signed _ => True
  | .unsigned _ => False

def Operand.Settled (a : Operand) : Prop := ∀ q ∈ a, q.Settled

theorem Operand.Settled.notUnsigned (h : a.Settled) : a.NotUnsigned := by
  rintro w rfl
  exact h _ rfl

theorem Operand.settled_some : Operand.Settled (some p) ↔ p.Settled := by
  simp [Operand.Settled]

namespace Quantity

theorem Settled.map (h : p.Settled) (f : Int64 → Int64) (g : UInt64 → UInt64) {whole : Int → Int}
    (fractional : Binary64 → Binary64)
    (hwhole : ∀ n : Int, Whole.unsignedEnd ≤ n.natAbs → Number.Settled (.int (whole n))) :
    (p.map f g whole fractional).Settled := by
  cases p with
  | signed w => trivial
  | unsigned w => exact h.elim
  | given n =>
      cases n with
      | real x => trivial
      | int n =>
          rw [Quantity.map]
          split
          · trivial
          · next hsigned =>
            have hlarge : Whole.unsignedEnd ≤ n.natAbs := h.resolve_left hsigned
            rw [if_neg]
            · exact hwhole n hlarge
            · rw [Whole.isUnsigned, Bool.and_eq_true, decide_eq_true_iff, decide_eq_true_iff]
              simp only [Whole.signedEnd, Whole.unsignedEnd] at *
              omega

theorem settled_combineReals {f : Binary64 → Binary64 → Binary64} {r : Quantity}
    (h : combineReals f p q = .ok r) : r.Settled := by
  unfold combineReals at h
  split at h <;> cases h
  trivial

theorem settled_combineSigned {f : Int64 → Int64 → Int64} {x y : Option Int64} {r : Quantity}
    (h : combineSigned f x y = .ok r) : r.Settled := by
  unfold combineSigned at h
  split at h <;> cases h
  trivial

theorem Settled.combine (hp : p.Settled) (hq : q.Settled) {f : Int64 → Int64 → Int64}
    {g : UInt64 → UInt64 → UInt64} {fractional : Binary64 → Binary64 → Binary64} {r : Quantity}
    (h : combine f g fractional p q = .ok r) : r.Settled := by
  unfold Quantity.combine at h
  split at h
  · exact settled_combineSigned h
  · exact settled_combineSigned h
  · exact settled_combineSigned h
  · exact settled_combineSigned h
  · exact hq.elim
  · exact hp.elim
  · exact hp.elim
  · exact settled_combineReals h

end Quantity

theorem Number.settled_neg (h : Whole.unsignedEnd ≤ n.natAbs) : Number.Settled (.int (-n)) :=
  .inr (by rwa [Int.natAbs_neg])

theorem Number.settled_sign (n : Int) : Number.Settled (.int n.sign) := by
  refine .inl ?_
  obtain h | h | h := Int.sign_trichotomy n <;> rw [h] <;> decide

theorem UnaryOp.settled_apply {o : UnaryOp} (ha : Operand.Settled a) (h : o.apply a = .ok v) :
    Operand.Settled v := by
  rcases a with _ | p
  · cases h
  · obtain rfl := Except.ok.inj h
    have hp := Operand.settled_some.1 ha
    refine Operand.settled_some.2 ?_
    cases o with
    | neg => exact hp.map _ _ _ fun n hn => Number.settled_neg hn
    | pos => exact hp.map _ _ _ fun n hn => .inr hn

theorem map_some_eq_ok {x : Except OperandFailure Quantity} (h : x.map some = .ok v) :
    ∃ r, v = some r ∧ x = .ok r := by
  cases x with
  | error f => cases h
  | ok r => exact ⟨r, (Except.ok.inj h).symm, rfl⟩

theorem BinaryOp.settled_apply {o : BinaryOp} (ha : Operand.Settled a) (hb : Operand.Settled b)
    (h : o.apply a b = .ok v) : Operand.Settled v := by
  rcases a with _ | p
  · cases h
  · rcases b with _ | q
    · cases h
    · obtain ⟨r, rfl, hr⟩ := map_some_eq_ok h
      have hp := Operand.settled_some.1 ha
      have hq := Operand.settled_some.1 hb
      refine Operand.settled_some.2 ?_
      cases o with
      | add | sub | mul => exact hp.combine hq hr
      | div | pow => exact Quantity.settled_combineReals hr

theorem Function.settled_onQuantity {f : Function} {r : Quantity} (hp : p.Settled)
    (h : f.onQuantity p = .ok r) : r.Settled := by
  unfold onQuantity at h
  split at h
  · split at h <;> cases h
    trivial
  · cases h
    trivial
  · cases h
    exact hp.map _ _ _ fun n hn => .inr (by rwa [Int.natAbs_natCast])
  · cases h
    exact hp.map _ _ _ fun n hn => .inr hn
  · cases h
    exact hp.map _ _ _ fun n hn => .inr hn
  · cases h
    exact hp.map _ _ _ fun n _ => Number.settled_sign n
  · split at h <;> cases h
    trivial
  · cases h

theorem Function.settled_apply {f : Function} (hvs : ∀ v ∈ vs, Operand.Settled v)
    (h : f.apply vs = .ok v) : Operand.Settled v := by
  unfold apply at h
  split at h
  · cases h
  · split at h
    · next p _ =>
      obtain ⟨r, rfl, hr⟩ := map_some_eq_ok h
      exact Operand.settled_some.2
        (settled_onQuantity (Operand.settled_some.1 (hvs _ (by simp))) hr)
    · next p q _ =>
      obtain ⟨r, rfl, hr⟩ := map_some_eq_ok h
      have hp := Operand.settled_some.1 (hvs (some p) (by simp))
      have hq := Operand.settled_some.1 (hvs (some q) (by simp))
      refine Operand.settled_some.2 ?_
      cases f with
      | larger | smaller => exact hp.combine hq hr
      | atan2 => exact Quantity.settled_combineReals hr
      | _ => cases hr
    · cases h

/-- A formula of settled literals makes no unsigned word in a scope that holds none. -/
theorem Formula.settled_of_evaluate {e : Formula} {s : Scope}
    (hliterals : ∀ n ∈ e.literals, n.Settled)
    (hscope : ∀ x ∈ e.occurrences, ∀ v, s[x]? = some v → Operand.Settled v)
    (h : e.evaluate s = .ok v) : Operand.Settled v := by
  unfold evaluate at h
  induction e generalizing v with
  | number n =>
      obtain rfl := Except.ok.inj h
      exact Operand.settled_some.2 (hliterals n (by simp [literals]))
  | constant c =>
      simp only [evaluateIn, Meaning.direct] at h
      split at h <;> cases h
      exact Operand.settled_some.2 trivial
  | var x => exact hscope x (by simp [occurrences]) v (evaluateIn_variable_eq_ok_iff.1 h)
  | group e ih => exact ih hliterals hscope h
  | unary op e ih =>
      obtain ⟨o, a, -, ha, hv⟩ := evaluateIn_unary_eq_ok_iff.1 h
      exact UnaryOp.settled_apply (ih hliterals hscope ha) hv
  | binary op l r ihl ihr =>
      obtain ⟨o, a, b, -, ha, hb, hv⟩ := evaluateIn_binary_eq_ok_iff.1 h
      simp only [literals, List.mem_append, or_imp, forall_and] at hliterals
      simp only [occurrences, List.mem_append, or_imp, forall_and] at hscope
      exact BinaryOp.settled_apply (ihl hliterals.1 hscope.1 ha) (ihr hliterals.2 hscope.2 hb) hv
  | call f args ih =>
      obtain ⟨g, vs, -, hvs, hv⟩ := evaluateIn_call_eq_ok_iff.1 h
      rw [evaluateAllIn_eq_ok_iff] at hvs
      refine Function.settled_apply (fun w hw => ?_) hv
      obtain ⟨i, hi, rfl⟩ := List.getElem_of_mem hw
      have hi' : i < args.length := hvs.length_eq ▸ hi
      have ha : args[i] ∈ args := List.getElem_mem hi'
      refine ih args[i] ha (fun n hn => hliterals n ?_) (fun x hx => hscope x ?_) (hvs.get hi' hi)
      · rw [literals, literalsAll_eq]
        exact List.mem_flatMap.2 ⟨_, ha, hn⟩
      · exact mem_occurrences_call.2 ⟨_, ha, hx⟩

end Gantry
