import Gantry.Proofs.Formula.Structure
import Gantry.Proofs.Number.Equality

/-!
When formulas count as the same. Equality of trees compares literals by value,
except that a literal is always itself, so it is an equivalence, and plain
equality where literals that are the same are identical. Keys compare formulas up to
their groups, and taking the key leaves literals and variables in place.
-/

namespace Gantry.Formula

/-! ### Keys -/

@[simp] theorem key_key (e : Formula) : e.key.key = e.key := by
  induction e with
  | number n => rfl
  | constant c => rfl
  | var x => rfl
  | group e ih => exact ih
  | unary op e ih => simp only [key, ih]
  | binary op l r ihl ihr => simp only [key, ihl, ihr]
  | call f args ih =>
      simp only [key, keyAll_eq, List.map_map, call.injEq, true_and]
      exact List.map_congr_left ih

@[simp] theorem occurrences_key (e : Formula) : e.key.occurrences = e.occurrences := by
  induction e with
  | number n => rfl
  | constant c => rfl
  | var x => rfl
  | group e ih => exact ih
  | unary op e ih => exact ih
  | binary op l r ihl ihr => simp only [key, occurrences, ihl, ihr]
  | call f args ih =>
      simp only [key, keyAll_eq, occurrences, occurrencesAll_eq, List.flatMap_map]
      exact List.flatMap_congr ih

@[simp] theorem literals_key (e : Formula) : e.key.literals = e.literals := by
  induction e with
  | number n => rfl
  | constant c => rfl
  | var x => rfl
  | group e ih => exact ih
  | unary op e ih => exact ih
  | binary op l r ihl ihr => simp only [key, literals, ihl, ihr]
  | call f args ih =>
      simp only [key, keyAll_eq, literals, literalsAll_eq, List.flatMap_map]
      exact List.flatMap_congr ih

theorem key_of_isTrivial {e : Formula} (h : e.isTrivial = true) : e.key = e := by
  cases e <;> first | rfl | cases h

/-- The key of a node that is no group is made of the keys of its parts. -/
theorem key_withChildren {e : Formula} {parts : List Formula} (h : e.isTrivial = false)
    (hgroup : ∀ a, e ≠ .group a) (hparts : parts.length = e.children.length) :
    (e.withChildren parts).key.isTrivial = false ∧
      (e.withChildren parts).key.children = parts.map key := by
  refine withChildren_cases (motive := fun e parts e' => (∀ a, e ≠ .group a) →
    e'.key.isTrivial = false ∧ e'.key.children = parts.map key)
    ?group ?unary ?binary ?call h hparts hgroup
  case group => exact fun a b h => absurd rfl (h a)
  case unary => exact fun op a b _ => ⟨rfl, rfl⟩
  case binary => exact fun op a b c d _ => ⟨rfl, rfl⟩
  case call => exact fun f as bs _ => ⟨rfl, keyAll_eq bs⟩

/-! ### An equivalence -/

@[simp] theorem same_self (e : Formula) : e.same e = true := by
  induction e with
  | number n => exact Number.agrees_self n
  | constant c => simp [same]
  | var x => simp [same]
  | group e ih => exact ih
  | unary op e ih => simpa [same] using ih
  | binary op l r ihl ihr => simp [same, ihl, ihr]
  | call f args ih =>
      simp only [same, beq_self_eq_true, Bool.true_and, sameAll_iff, List.forall₂_same]
      exact ih

/-- What holds of formulas built alike from literals that are the same holds of
all formulas that are the same. -/
@[elab_as_elim]
theorem same_induction {motive : Formula → Formula → Prop}
    (number : ∀ m n, m.agrees n = true → motive (.number m) (.number n))
    (constant : ∀ c, motive (.constant c) (.constant c))
    (var : ∀ x, motive (.variable x) (.variable x))
    (group : ∀ a b, motive a b → motive (.group a) (.group b))
    (unary : ∀ op a b, motive a b → motive (.unary op a) (.unary op b))
    (binary : ∀ op a b c d, motive a c → motive b d → motive (.binary op a b) (.binary op c d))
    (call : ∀ f as bs, List.Forall₂ motive as bs → motive (.call f as) (.call f bs))
    {a b : Formula} (h : a.same b = true) : motive a b := by
  induction a generalizing b with
  | number m =>
      cases b <;> simp only [same, Bool.false_eq_true] at h
      exact number _ _ h
  | constant c =>
      cases b <;> simp only [same, Bool.false_eq_true, beq_iff_eq] at h
      exact h ▸ constant c
  | var x =>
      cases b <;> simp only [same, Bool.false_eq_true, beq_iff_eq] at h
      exact h ▸ var x
  | group a ih =>
      cases b <;> simp only [same, Bool.false_eq_true] at h
      exact group _ _ (ih h)
  | unary op a ih =>
      cases b <;> simp only [same, Bool.false_eq_true, Bool.and_eq_true, beq_iff_eq] at h
      exact h.1 ▸ unary op _ _ (ih h.2)
  | binary op l r ihl ihr =>
      cases b <;> simp only [same, Bool.false_eq_true, Bool.and_eq_true, beq_iff_eq] at h
      exact h.1.1 ▸ binary op _ _ _ _ (ihl h.1.2) (ihr h.2)
  | call f as ih =>
      cases b <;> simp only [same, Bool.false_eq_true, Bool.and_eq_true, beq_iff_eq] at h
      have hboth := (List.forall₂_and_left as _).2
        ⟨fun a ha b => ih a ha (b := b), (sameAll_iff as _).1 h.2⟩
      exact h.1 ▸ call f _ _ (hboth.imp fun a b hab => hab.1 b hab.2)

theorem same_symm {a b : Formula} (h : a.same b = true) : b.same a = true := by
  refine same_induction ?number ?constant ?var ?group ?unary ?binary ?call h
  case number => exact fun m n h => Number.agrees_symm h
  case constant => simp [same]
  case var => simp [same]
  case group => exact fun a b ih => ih
  case unary => simp [same]
  case binary =>
      intro op a b c d ihl ihr
      simpa [same] using ⟨ihl, ihr⟩
  case call =>
      intro f as bs ih
      simpa [same, sameAll_iff] using ih.flip

theorem forall₂_trans {α : Type} {R S : α → α → Prop} {as bs cs : List α}
    (has : List.Forall₂ (fun a b => ∀ c, R b c → S a c) as bs) (hbs : List.Forall₂ R bs cs) :
    List.Forall₂ S as cs := by
  induction has generalizing cs with
  | nil =>
      cases hbs
      exact .nil
  | cons hab _ ih =>
      obtain ⟨c, cs, hbc, hcs, rfl⟩ := List.forall₂_cons_left_iff.1 hbs
      exact .cons (hab c hbc) (ih hcs)

theorem same_trans {a b c : Formula} (hab : a.same b = true) (hbc : b.same c = true) :
    a.same c = true := by
  suffices h : ∀ c, b.same c = true → a.same c = true from h c hbc
  refine same_induction ?number ?constant ?var ?group ?unary ?binary ?call hab
  case number =>
      intro m n h c hbc
      cases c <;> simp only [same, Bool.false_eq_true] at hbc
      exact Number.agrees_trans h hbc
  case constant => exact fun x c hbc => hbc
  case var => exact fun x c hbc => hbc
  case group =>
      intro a b ih c hbc
      cases c <;> simp only [same, Bool.false_eq_true] at hbc
      exact ih _ hbc
  case unary =>
      intro op a b ih c hbc
      cases c <;> simp only [same, Bool.false_eq_true, Bool.and_eq_true] at hbc
      simpa only [same, Bool.and_eq_true] using ⟨hbc.1, ih _ hbc.2⟩
  case binary =>
      intro op a b a' b' ihl ihr c hbc
      cases c <;> simp only [same, Bool.false_eq_true, Bool.and_eq_true] at hbc
      simpa only [same, Bool.and_eq_true] using ⟨⟨hbc.1.1, ihl _ hbc.1.2⟩, ihr _ hbc.2⟩
  case call =>
      intro f as bs ih c hbc
      cases c <;> simp only [same, Bool.false_eq_true, Bool.and_eq_true, sameAll_iff] at hbc
      simp only [same, Bool.and_eq_true, sameAll_iff]
      exact ⟨hbc.1, forall₂_trans ih hbc.2⟩

theorem children_same {a b : Formula} (h : a.same b = true) :
    List.Forall₂ (fun c d => c.same d = true) a.children b.children := by
  cases a <;> cases b <;> simp_all [same, children, sameAll_iff]

theorem isTrivial_eq_of_same {a b : Formula} (h : a.same b = true) :
    a.isTrivial = b.isTrivial := by
  cases a <;> cases b <;> simp_all [same, isTrivial]

/-- Properties that formulas pass on to those that are the same. -/
theorem everywhere_of_same {p : Formula → Prop} (hp : ∀ a b, a.same b = true → p a → p b)
    {a b : Formula} (h : a.same b = true) (ha : a.Everywhere p) : b.Everywhere p := by
  induction a using children_induction generalizing b with
  | node a ih =>
      obtain ⟨hhead, hchildren⟩ := (everywhere_iff p a).1 ha
      refine (everywhere_iff p b).2 ⟨hp a b h hhead, fun d hd => ?_⟩
      obtain ⟨k, hk, rfl⟩ := List.getElem_of_mem hd
      have hsame := children_same h
      have hk' : k < a.children.length := hsame.length_eq ▸ hk
      have hmem : a.children[k] ∈ a.children := List.getElem_mem hk'
      exact ih _ hmem (hsame.get hk' hk) (hchildren _ hmem)

/-- Where literals that are the same are identical, so are formulas. -/
theorem eq_of_same {L : Number → Prop} (hL : ∀ m n, L m → L n → m.same n = true → m = n)
    {a b : Formula} (h : a.same b = true) (ha : ∀ n ∈ a.literals, L n)
    (hb : ∀ n ∈ b.literals, L n) : a = b := by
  revert ha hb
  refine same_induction ?number ?constant ?var ?group ?unary ?binary ?call h
  case number =>
      intro m n h ha hb
      rcases Number.agrees_iff.1 h with rfl | h
      · rfl
      · rw [hL m n (ha m (by simp [literals])) (hb n (by simp [literals])) h]
  case constant => exact fun c _ _ => rfl
  case var => exact fun x _ _ => rfl
  case group => exact fun a b ih ha hb => by rw [ih ha hb]
  case unary => exact fun op a b ih ha hb => by rw [ih ha hb]
  case binary =>
      intro op a b c d ihl ihr ha hb
      simp only [literals, List.mem_append, or_imp, forall_and] at ha hb
      rw [ihl ha.1 hb.1, ihr ha.2 hb.2]
  case call =>
      intro f as bs ih ha hb
      simp only [literals, literalsAll_eq] at ha hb
      congr 1
      induction ih with
      | nil => rfl
      | cons hab _ ih =>
          simp only [List.flatMap_cons, List.mem_append, or_imp, forall_and] at ha hb
          rw [hab ha.1 hb.1, ih ha.2 hb.2]

/-- Formulas that are the same are identical just when their literals are. -/
theorem eq_of_literals_eq {a b : Formula} (h : a.same b = true)
    (hliterals : a.literals = b.literals) : a = b := by
  -- Literals of equal number split alike between the parts of a node.
  suffices hboth : a.literals.length = b.literals.length ∧ (a.literals = b.literals → a = b) from
    hboth.2 hliterals
  refine same_induction ?number ?constant ?var ?group ?unary ?binary ?call h
  case number =>
      intro m n h
      exact ⟨rfl, fun hmn => by rw [List.singleton_inj.1 hmn]⟩
  case constant => exact fun c => ⟨rfl, fun _ => rfl⟩
  case var => exact fun x => ⟨rfl, fun _ => rfl⟩
  case group => exact fun a b ih => ⟨ih.1, fun hab => by rw [ih.2 hab]⟩
  case unary => exact fun op a b ih => ⟨ih.1, fun hab => by rw [ih.2 hab]⟩
  case binary =>
      intro op a b c d ihl ihr
      refine ⟨by simp only [literals, List.length_append, ihl.1, ihr.1], fun hall => ?_⟩
      obtain ⟨hac, hbd⟩ := List.append_inj hall ihl.1
      rw [ihl.2 hac, ihr.2 hbd]
  case call =>
      intro f as bs ih
      simp only [literals, literalsAll_eq, call.injEq, true_and]
      induction ih with
      | nil => exact ⟨rfl, fun _ => rfl⟩
      | cons hab _ ih =>
          simp only [List.flatMap_cons, List.length_append]
          refine ⟨by rw [hab.1, ih.1], fun hall => ?_⟩
          obtain ⟨hhead, hrest⟩ := List.append_inj hall hab.1
          rw [hab.2 hhead, ih.2 hrest]

theorem occurrences_eq_of_same {a b : Formula} (h : a.same b = true) :
    a.occurrences = b.occurrences := by
  refine same_induction ?number ?constant ?var ?group ?unary ?binary ?call h
  case number => exact fun m n h => rfl
  case constant => exact fun c => rfl
  case var => exact fun x => rfl
  case group => exact fun a b ih => ih
  case unary => exact fun op a b ih => ih
  case binary => exact fun op a b c d ihl ihr => by rw [occurrences, occurrences, ihl, ihr]
  case call =>
      intro f as bs ih
      simp only [occurrences, occurrencesAll_eq]
      induction ih with
      | nil => rfl
      | cons hab _ ih => rw [List.flatMap_cons, List.flatMap_cons, hab, ih]

/-! ### Up to groups -/

theorem sameKey_symm {a b : Formula} (h : a.sameKey b = true) : b.sameKey a = true := same_symm h

theorem sameKey_trans {a b c : Formula} (hab : a.sameKey b = true) (hbc : b.sameKey c = true) :
    a.sameKey c = true := same_trans hab hbc

@[simp] theorem sameKey_self (e : Formula) : e.sameKey e = true := same_self e.key

theorem occurrences_eq_of_sameKey {a b : Formula} (h : a.sameKey b = true) :
    a.occurrences = b.occurrences := by
  simpa using occurrences_eq_of_same h

end Gantry.Formula
