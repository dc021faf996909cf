import Gantry.Proofs.Formula.RoundTrip

/-!
What a signature does for the reading of a formula. It only decides about
calls: a text is read with a signature just if it is read with any functions
and all its calls are accepted. What is read has no other names and literals
than the text.
-/

namespace Gantry.Formula

variable {σ τ : Signature} {M N : String → Prop} {ts us : List Token} {e : Formula} {s : String}

/-- What a node of a formula is for a signature and for some names: its calls
are accepted, and its leaves have these names. -/
def Admitted (σ : Signature) (N : String → Prop) : Formula → Prop
  | .variable x | .constant x => N x
  | .call f args => σ.Accepts f args.length
  | _ => True

/-- The names among tokens are of some kind. -/
def Named (N : String → Prop) (ts : List Token) : Prop := ∀ t ∈ ts, t.kind = .name → N t.text

@[simp] theorem named_cons {t : Token} :
    Named N (t :: ts) ↔ (t.kind = .name → N t.text) ∧ Named N ts := by
  simp only [Named, List.mem_cons, forall_eq_or_imp]

/-! ### Derivations with one signature and another -/

@[simp] theorem everywhere_admitted_number {n : Number} : (number n).Everywhere (Admitted σ N) :=
  (everywhere_iff _ _).2 ⟨trivial, by simp [children]⟩

@[simp] theorem everywhere_admitted_variable {x : String} :
    (Formula.variable x).Everywhere (Admitted σ N) ↔ N x := by
  rw [everywhere_iff]
  simp [children, Admitted]

@[simp] theorem everywhere_admitted_constant {x : String} :
    (constant x).Everywhere (Admitted σ N) ↔ N x := by
  rw [everywhere_iff]
  simp [children, Admitted]

@[simp] theorem everywhere_admitted_group :
    (group e).Everywhere (Admitted σ N) ↔ e.Everywhere (Admitted σ N) := by
  rw [everywhere_iff]
  simp [children, Admitted]

@[simp] theorem everywhere_admitted_unary {op : String} :
    (unary op e).Everywhere (Admitted σ N) ↔ e.Everywhere (Admitted σ N) := by
  rw [everywhere_iff]
  simp [children, Admitted]

@[simp] theorem everywhere_admitted_binary {op : String} {l r : Formula} :
    (binary op l r).Everywhere (Admitted σ N) ↔
      l.Everywhere (Admitted σ N) ∧ r.Everywhere (Admitted σ N) := by
  rw [everywhere_iff]
  simp [children, Admitted]

@[simp] theorem everywhere_admitted_call {f : String} {args : List Formula} :
    (call f args).Everywhere (Admitted σ N) ↔
      σ.Accepts f args.length ∧ ∀ a ∈ args, a.Everywhere (Admitted σ N) := by
  rw [everywhere_iff]
  simp [children, Admitted]

mutual

/-- What is derived is derived with every signature that accepts its calls. -/
theorem IsSum.transfer : ∀ {ts : List Token} {e : Formula}, IsSum σ ts e →
    e.Everywhere (Admitted τ N) → IsSum τ ts e
  | _, _, .product h, he => .product (h.transfer he)
  | _, _, .term ha ht hb, he => by
      rw [everywhere_admitted_binary] at he
      exact .term (ha.transfer he.1) ht (hb.transfer he.2)

theorem IsProduct.transfer : ∀ {ts : List Token} {e : Formula}, IsProduct σ ts e →
    e.Everywhere (Admitted τ N) → IsProduct τ ts e
  | _, _, .signed h, he => .signed (h.transfer he)
  | _, _, .factor ha ht hb, he => by
      rw [everywhere_admitted_binary] at he
      exact .factor (ha.transfer he.1) ht (hb.transfer he.2)

theorem IsSigned.transfer : ∀ {ts : List Token} {e : Formula}, IsSigned σ ts e →
    e.Everywhere (Admitted τ N) → IsSigned τ ts e
  | _, _, .power h, he => .power (h.transfer he)
  | _, _, .sign ht h, he => .sign ht (h.transfer (everywhere_admitted_unary.1 he))

theorem IsPower.transfer : ∀ {ts : List Token} {e : Formula}, IsPower σ ts e →
    e.Everywhere (Admitted τ N) → IsPower τ ts e
  | _, _, .atom h, he => .atom (h.transfer he)
  | _, _, .power ha ht hb, he => by
      rw [everywhere_admitted_binary] at he
      exact .power (ha.transfer he.1) ht (hb.transfer he.2)

theorem IsAtom.transfer : ∀ {ts : List Token} {e : Formula}, IsAtom σ ts e →
    e.Everywhere (Admitted τ N) → IsAtom τ ts e
  | _, _, .number hkind hn, _ => .number hkind hn
  | _, _, .constant hkind hc, _ => .constant hkind hc
  | _, _, .var hkind hx, _ => .var hkind hx
  | _, _, .group hp h hq, he => .group hp (h.transfer (everywhere_admitted_group.1 he)) hq
  | _, _, .call hkind hp h hq _, he => by
      rw [everywhere_admitted_call] at he
      exact .call hkind hp (h.transfer he.2) hq he.1

theorem AreArguments.transfer : ∀ {ts : List Token} {args : List Formula}, AreArguments σ ts args →
    (∀ a ∈ args, a.Everywhere (Admitted τ N)) → AreArguments τ ts args
  | _, _, .none, _ => .none
  | _, _, .last h, he => .last (h.transfer (he _ List.mem_cons_self))
  | _, _, .more ha ht hb, he => by
      rw [List.forall_mem_cons] at he
      exact .more (ha.transfer he.1) ht (hb.transfer he.2)

end

/-! ### What a derivation makes -/

/-- What a node of a formula is that was derived from tokens: its leaves come from them, its
operators mean something and its calls are accepted. -/
def Derived (σ : Signature) (ts : List Token) : Formula → Prop
  | .number n => ∃ t ∈ ts, t.kind = .number ∧ numberValue? t.text = some n
  | .constant c => (∃ t ∈ ts, t.kind = .name ∧ t.text = c) ∧ (constant? c).isSome = true
  | .variable x => (∃ t ∈ ts, t.kind = .name ∧ t.text = x) ∧ constant? x = none
  | .group _ => True
  | .unary op _ => (UnaryOp.ofSymbol? op).isSome = true
  | .binary op _ _ => (BinaryOp.ofSymbol? op).isSome = true
  | .call f args => σ.Accepts f args.length

theorem Derived.mono (h : Derived σ ts e) (hsub : ts ⊆ us) : Derived σ us e := by
  cases e with
  | number n =>
      obtain ⟨t, ht, hvalue⟩ := h
      exact ⟨t, hsub ht, hvalue⟩
  | constant c =>
      obtain ⟨⟨t, ht, hname⟩, hc⟩ := h
      exact ⟨⟨t, hsub ht, hname⟩, hc⟩
  | var x =>
      obtain ⟨⟨t, ht, hname⟩, hx⟩ := h
      exact ⟨⟨t, hsub ht, hname⟩, hx⟩
  | group e => trivial
  | unary op e => exact h
  | binary op l r => exact h
  | call f args => exact h

theorem everywhere_derived_mono (h : e.Everywhere (Derived σ ts)) (hsub : ts ⊆ us) :
    e.Everywhere (Derived σ us) := fun part hpart => (h part hpart).mono hsub

theorem everywhere_derived_leaf (htriv : e.isTrivial = true) (h : Derived σ ts e) :
    e.Everywhere (Derived σ ts) := by
  refine (everywhere_iff _ _).2 ⟨h, ?_⟩
  cases e <;> simp_all [children, isTrivial]

theorem everywhere_derived_unary {t : Token} (ht : t.Is "-" ∨ t.Is "+")
    (h : e.Everywhere (Derived σ ts)) : (unary t.text e).Everywhere (Derived σ (t :: ts)) := by
  refine (everywhere_iff _ _).2 ⟨?_, ?_⟩
  · obtain ht | ht := ht <;> rw [ht.2] <;> rfl
  · simpa [children] using everywhere_derived_mono h (List.subset_cons_self t ts)

/-- The operands of an operator have their tokens on either side of it. -/
theorem everywhere_derived_binary {op : String} {l r : Formula} {t : Token}
    (hop : (BinaryOp.ofSymbol? op).isSome = true) (hl : l.Everywhere (Derived σ ts))
    (hr : r.Everywhere (Derived σ us)) :
    (binary op l r).Everywhere (Derived σ (ts ++ t :: us)) := by
  have hleft := everywhere_derived_mono hl (List.subset_append_left ts (t :: us))
  have hright := everywhere_derived_mono hr
    (List.Subset.trans (List.subset_cons_self t us) (List.subset_append_right ts (t :: us)))
  exact (everywhere_iff _ _).2 ⟨hop, by simpa [children] using ⟨hleft, hright⟩⟩

mutual

theorem IsSum.derived : ∀ {ts : List Token} {e : Formula}, IsSum σ ts e →
    e.Everywhere (Derived σ ts)
  | _, _, .product h => h.derived
  | _, _, .term ha ht hb => everywhere_derived_binary
      (by obtain ht | ht := ht <;> rw [ht.2] <;> rfl) ha.derived hb.derived

theorem IsProduct.derived : ∀ {ts : List Token} {e : Formula}, IsProduct σ ts e →
    e.Everywhere (Derived σ ts)
  | _, _, .signed h => h.derived
  | _, _, .factor ha ht hb => everywhere_derived_binary
      (by obtain ht | ht := ht <;> rw [ht.2] <;> rfl) ha.derived hb.derived

theorem IsSigned.derived : ∀ {ts : List Token} {e : Formula}, IsSigned σ ts e →
    e.Everywhere (Derived σ ts)
  | _, _, .power h => h.derived
  | _, _, .sign ht h => everywhere_derived_unary ht h.derived

theorem IsPower.derived : ∀ {ts : List Token} {e : Formula}, IsPower σ ts e →
    e.Everywhere (Derived σ ts)
  | _, _, .atom h => h.derived
  | _, _, .power ha _ hb => everywhere_derived_binary rfl ha.derived hb.derived

theorem IsAtom.derived : ∀ {ts : List Token} {e : Formula}, IsAtom σ ts e →
    e.Everywhere (Derived σ ts)
  | _, _, .number hkind hn =>
      everywhere_derived_leaf rfl ⟨_, List.mem_singleton_self _, hkind, hn⟩
  | _, _, .constant hkind hc =>
      everywhere_derived_leaf rfl ⟨⟨_, List.mem_singleton_self _, hkind, rfl⟩, hc⟩
  | _, _, .var hkind hx =>
      everywhere_derived_leaf rfl ⟨⟨_, List.mem_singleton_self _, hkind, rfl⟩, hx⟩
  | _, _, .group _ h _ => by
      refine (everywhere_iff _ _).2 ⟨trivial, List.forall_mem_singleton.2 ?_⟩
      exact everywhere_derived_mono h.derived
        (List.subset_cons_of_subset _ (List.subset_append_left _ _))
  | _, _, .call _ _ h _ haccepts => by
      refine (everywhere_iff _ _).2 ⟨haccepts, fun a ha => ?_⟩
      exact everywhere_derived_mono (h.derived a ha) (List.subset_cons_of_subset _
        (List.subset_cons_of_subset _ (List.subset_append_left _ _)))

theorem AreArguments.derived : ∀ {ts : List Token} {args : List Formula}, AreArguments σ ts args →
    ∀ a ∈ args, a.Everywhere (Derived σ ts)
  | _, _, .none => nofun
  | _, _, .last h => List.forall_mem_singleton.2 h.derived
  | _, _, .more ha _ hb => by
      refine List.forall_mem_cons.2 ⟨?_, fun a hmem => ?_⟩
      · exact everywhere_derived_mono ha.derived (List.subset_append_left _ _)
      · exact everywhere_derived_mono (hb.derived a hmem)
          (List.subset_append_of_subset_right _ (List.subset_cons_self _ _))

end

/-- A derivation goes by its signature, and its leaves have the names of its tokens. -/
theorem IsSum.admitted (h : IsSum σ ts e) (hts : Named N ts) : e.Everywhere (Admitted σ N) := by
  intro part hpart
  have hderived := h.derived part hpart
  cases part with
  | constant c =>
      obtain ⟨⟨t, ht, hkind, rfl⟩, -⟩ := hderived
      exact hts t ht hkind
  | var x =>
      obtain ⟨⟨t, ht, hkind, rfl⟩, -⟩ := hderived
      exact hts t ht hkind
  | call f args => exact hderived
  | _ => trivial

theorem everywhere_admitted_any : (e.Everywhere (Admitted .any fun _ => True)) := by
  intro part _
  cases part with
  | call f args => exact ⟨none, rfl, rfl⟩
  | _ => trivial

/-- A derivation with any functions is one with a signature just if the
signature accepts its calls. -/
theorem isSum_iff_admitted : IsSum σ ts e ↔
    IsSum .any ts e ∧ e.Everywhere (Admitted σ fun _ => True) :=
  ⟨fun h => ⟨h.transfer everywhere_admitted_any, h.admitted fun _ _ _ => trivial⟩,
    fun h => h.1.transfer h.2⟩

/-- A text that is read as a formula is read in the same way with any functions. -/
theorem parseWith_any (h : parse s = .ok e) : parseWith .any s = .ok e := by
  obtain ⟨ts, htokens, hsum⟩ := parseWith_eq_ok_iff.1 h
  exact parseWith_eq_ok_iff.2 ⟨ts, htokens, (isSum_iff_admitted.1 hsum).1⟩

/-! ### Names in a text -/

theorem isName_take_nameLength {cs : List Char} (h : 0 < nameLength cs) :
    isName (String.ofList (cs.take (nameLength cs))) = true := by
  unfold nameLength at h ⊢
  cases cs with
  | nil => simp at h
  | cons c rest =>
      have hc : isNameStart c = true := by
        by_contra hc
        simp [hc] at h
      have htake : rest.take (rest.takeWhile isNamePart).length = rest.takeWhile isNamePart :=
        List.prefix_iff_eq_take.1 (List.takeWhile_prefix _) |>.symm
      simp [isName, hc, Nat.add_comm 1, htake]

theorem isName_of_front? {cs : List Char} {n : Nat} (h : front? cs = some (.name, n)) :
    isName (tokenText .name (cs.take n)) = true := by
  unfold front? at h
  split at h
  · cases h
  · split at h
    · next hpos =>
      cases h
      exact isName_take_nameLength hpos
    · split at h <;> cases h

theorem named_of_tokensFrom {position : Nat} {cs : List Char}
    (h : tokensFrom position cs = .ok ts) : Named (isName · = true) ts := by
  fun_induction tokensFrom position cs generalizing ts with
  | case1 position =>
      cases h
      simp [Named]
  | case2 position c rest hblank ih => exact ih h
  | case3 => cases h
  | case4 position c rest hblank kind n hfront ih =>
      cases htail : tokensFrom (position + n) ((c :: rest).drop n) with
      | error p =>
          rw [htail] at h
          cases h
      | ok tail =>
          rw [htail] at h
          cases h
          refine named_cons.2 ⟨?_, ih htail⟩
          rintro (rfl : kind = .name)
          exact isName_of_front? hfront

/-- What is read with a signature has calls that it accepts and names that are
names. -/
theorem everywhere_admitted_of_parseWith (h : parseWith σ s = .ok e) :
    e.Everywhere (Admitted σ (isName · = true)) := by
  obtain ⟨ts, htokens, hsum⟩ := parseWith_eq_ok_iff.1 h
  exact hsum.admitted (named_of_tokensFrom htokens)

end Gantry.Formula
