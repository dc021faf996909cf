import Gantry.Algebra.Reader
import Gantry.Proofs.Algebra.Functions
import Gantry.Proofs.Formula.Admission
import Gantry.Proofs.Formula.Arithmetic

/-!
Expressions read from the texts of formulas are well-formed.
-/

namespace Gantry.Algebra.Expr

open Formula (Admitted bind_eq_ok_iff)

variable {e : Expr} {es args : List Expr} {known : List (String × Expr)} {name : String}

theorem wellFormed_ofNumber (n : Number) : (ofNumber n).WellFormed := by
  cases n <;> exact wellFormed_number

theorem wellFormed_ofName (hknown : ∀ p ∈ known, p.2.WellFormed)
    (hname : Formula.isName name = true) : (ofName known name).WellFormed := by
  unfold ofName
  split
  · next e he =>
    obtain ⟨before, after, rfl, -⟩ := List.lookup_eq_some_iff.1 he
    exact hknown (name, e) (by simp)
  · split
    · exact wellFormed_constant
    · exact wellFormed_constant
    · exact wellFormed_constant
    · exact wellFormed_number
    · exact wellFormed_number
    · exact wellFormed_number
    · exact wellFormed_symbol.2 hname

theorem named_of_mem_unaryHeads {p : String × Head} (hp : p ∈ unaryHeads) : p.2.Named := by
  simp only [unaryHeads, List.mem_cons, List.not_mem_nil, or_false] at hp
  rcases hp with rfl | rfl | rfl | rfl | rfl | rfl | rfl | rfl | rfl | rfl | rfl | rfl | rfl | rfl |
    rfl | rfl | rfl | rfl | rfl <;> trivial

/-- Functions of formulas have heads of one operand, or are among a few others. -/
theorem known_of_mem_byName : ∀ entry ∈ Function.byName, (unaryHeads.lookup entry.1).isSome = true ∨
    entry.1 ∈ ["Max", "Min", "atan2", "sqrt"] := by
  decide

theorem wellFormed_extremum? {isLarger : Bool} (hargs : ∀ a ∈ args, a.WellFormed)
    (h : extremum? isLarger args = .ok e) : e.WellFormed := by
  unfold extremum? at h
  split at h
  · exact Except.ok.inj h ▸ wellFormed_extremumOf isLarger hargs
  · cases h

theorem wellFormed_called (haccepts : Formula.Signature.formulas.Accepts name args.length)
    (hargs : ∀ a ∈ args, a.WellFormed) (h : called name args = .ok e) : e.WellFormed := by
  obtain ⟨g, hg, -⟩ := Formula.accepts_formulas_iff.1 haccepts
  obtain ⟨before, after, hbyName, -⟩ := List.lookup_eq_some_iff.1 hg
  have hknown := known_of_mem_byName (name, g) (by simp [hbyName])
  unfold called at h
  split at h
  · next f a hf =>
    obtain ⟨before, after, hheads, -⟩ := List.lookup_eq_some_iff.1 hf
    have hnamed : f.Named := named_of_mem_unaryHeads (p := (name, f)) (by simp [hheads])
    exact Except.ok.inj h ▸ wellFormed_applied hnamed hargs
  · have hlog {a : Expr} (ha : a.WellFormed) : (applied .log [a]).WellFormed :=
      wellFormed_applied trivial (List.forall_mem_singleton.2 ha)
    exact Except.ok.inj h ▸ wellFormed_quotientOf (hlog (hargs _ (by simp))) (hlog (hargs _ (by simp)))
  · cases h
  · next hnone =>
    rw [hnone, Option.isSome_none] at hknown
    split at h
    · exact wellFormed_extremum? hargs h
    · exact wellFormed_extremum? hargs h
    · exact wellFormed_extremum? hargs h
    · exact wellFormed_extremum? hargs h
    · exact Except.ok.inj h ▸ wellFormed_applied trivial hargs
    · cases h
    · exact Except.ok.inj h ▸ wellFormed_sqrtOf (hargs _ (by simp))
    · cases h
    · exact Except.ok.inj h ▸ wellFormed_powerOf (hargs _ (by simp)) (wellFormed_rational _)
    · cases h
    · exact Except.ok.inj h ▸ wellFormed_powerOf (hargs _ (by simp)) (hargs _ (by simp))
    · cases h
    · simp_all

theorem wellFormed_combined {a b : Expr} (op : String) (ha : a.WellFormed) (hb : b.WellFormed) :
    (combined op a b).WellFormed := by
  unfold combined
  split
  · exact wellFormed_sumOf (by simpa using ⟨ha, hb⟩)
  · exact wellFormed_minus ha hb
  · exact wellFormed_productOf_pair ha hb
  · exact wellFormed_quotientOf ha hb
  · exact wellFormed_powerOf ha hb

/-- Operands are read one by one. -/
theorem forall₂_of_ofFormulas {fs : List Formula} (h : ofFormulas known fs = .ok es) :
    List.Forall₂ (fun f e => ofFormula known f = .ok e) fs es := by
  induction fs generalizing es with
  | nil =>
      obtain rfl := Except.ok.inj h
      exact .nil
  | cons f fs ih =>
      obtain ⟨a, ha, h⟩ := bind_eq_ok_iff.1 h
      obtain ⟨as, has, h⟩ := bind_eq_ok_iff.1 h
      exact Except.ok.inj h ▸ .cons ha (ih has)

theorem wellFormed_ofFormula (hknown : ∀ p ∈ known, p.2.WellFormed) {f : Formula}
    (hf : f.Everywhere (Admitted .formulas (Formula.isName · = true)))
    (h : ofFormula known f = .ok e) : e.WellFormed := by
  induction f generalizing e with
  | number n => exact Except.ok.inj h ▸ wellFormed_ofNumber n
  | constant c =>
      exact Except.ok.inj h ▸ wellFormed_ofName hknown (Formula.everywhere_admitted_constant.1 hf)
  | var x =>
      exact Except.ok.inj h ▸ wellFormed_ofName hknown (Formula.everywhere_admitted_variable.1 hf)
  | group f ih => exact ih (Formula.everywhere_admitted_group.1 hf) h
  | unary op f ih =>
      rw [Formula.everywhere_admitted_unary] at hf
      obtain ⟨a, ha, h⟩ := bind_eq_ok_iff.1 h
      exact Except.ok.inj h ▸ wellFormed_ite (wellFormed_negated (ih hf ha)) (ih hf ha)
  | binary op l r ihl ihr =>
      rw [Formula.everywhere_admitted_binary] at hf
      obtain ⟨a, ha, h⟩ := bind_eq_ok_iff.1 h
      obtain ⟨b, hb, h⟩ := bind_eq_ok_iff.1 h
      exact Except.ok.inj h ▸ wellFormed_combined op (ihl hf.1 ha) (ihr hf.2 hb)
  | call f args ih =>
      rw [Formula.everywhere_admitted_call] at hf
      obtain ⟨es, hes, h⟩ := bind_eq_ok_iff.1 h
      have hread := forall₂_of_ofFormulas hes
      refine wellFormed_called (hread.length_eq ▸ hf.1) (fun a ha => ?_) h
      obtain ⟨k, hk, rfl⟩ := List.getElem_of_mem ha
      have hk' : k < args.length := hread.length_eq ▸ hk
      exact ih _ (List.getElem_mem hk') (hf.2 _ (List.getElem_mem hk')) (hread.get hk' hk)

/-- What is read from the text of a formula is well-formed, if the names in it
stand for well-formed expressions. -/
theorem wellFormed_read (hknown : ∀ p ∈ known, p.2.WellFormed) {s : String} {f : Formula}
    (hs : Formula.parse s = .ok f) (h : read known s = .ok e) : e.WellFormed := by
  rw [read, Formula.parseWith_any hs] at h
  dsimp only at h
  split at h
  · cases h
  · exact wellFormed_ofFormula hknown (Formula.everywhere_admitted_of_parseWith hs) h

end Gantry.Algebra.Expr
