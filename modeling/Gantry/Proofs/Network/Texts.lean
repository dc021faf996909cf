import Gantry.Network.Evaluation
import Gantry.Proofs.Algebra.Text
import Gantry.Proofs.Memo.Arithmetic
import Gantry.Proofs.Memo.Nesting
import Gantry.Proofs.Memo.Rollback
import Gantry.Proofs.Memo.Texts
import Gantry.Proofs.Network.Names

/-!
Evaluators of polynomials. Texts of polynomials are read, optimized together
and compiled, and what is compiled returns the exact values of the polynomials.
Only texts that are too large are not compiled: a formula may be nested too
deeply, what is made of them may take too many brackets to write, and a numeral
may have more digits than are read.
-/

namespace Gantry.Network

open Gantry.Algebra (Expr)
open Gantry.Algebra.Expr (Polynomial Nameable)

variable {N : String → Prop} {ps : List Expr} {f : Memo.Failure}

/-- Expressions with a formula that cannot be walked to the end. -/
def TooDeep [Memo.Stack] (ps : List Expr) : Prop :=
  ∃ p ∈ ps, ∃ e, Formula.parse p.text = .ok e ∧ Memo.depthLimit < e.depth

/-- The batch that texts of expressions are optimized as. -/
def textsBatch (ps : List Expr) : Memo.Batch := .listed ((ps.map Expr.text).map .text)

/-- Expressions that are optimized to an entry which takes too many brackets to write. -/
def TooNested [Memo.Stack] (ps : List Expr) : Prop :=
  ∃ names, ((Memo.Table.empty "f").answer (textsBatch ps)).1 = .ok names ∧
    ∃ a, ((Memo.Table.empty "f").after [textsBatch ps]).Covers (.many names) a ∧
      Code.bracketLimit < a.nesting

/-- Why texts of expressions may not be compiled. -/
inductive TooLarge [Memo.Stack] (ps : List Expr) : Failure → Prop
  | deep (h : TooDeep ps) : TooLarge ps (.fault .tooDeep)
  | nested (h : TooNested ps) : TooLarge ps (.fault .unreadable)
  | long {p : Expr} {k : ℕ} (hp : p ∈ ps) (hk : k ∈ p.numerals)
      (hlong : 10 ^ wholeDigitLimit ≤ k) (f : Fault) : TooLarge ps (.fault f)

/-- Names of variables that formulas are not shared under. -/
def Sharable (x : String) : Prop := Nameable x ∧ x.toList.head? ≠ some 'f'

theorem sharable_of_cons {x : String} {c : Char} {cs : List Char} (h : x.toList = c :: cs)
    (hc : c = 'w' ∨ c = 'x' ∨ c = 'y') (hcs : ∀ d ∈ cs, Formula.isNamePart d = true) : Sharable x := by
  have hstart : Formula.isNameStart c = true := by obtain rfl | rfl | rfl := hc <;> rfl
  have hne (y : String) (hy : y.toList.head? ≠ some c) : x ≠ y := by
    rintro rfl
    exact hy (by rw [h, List.head?_cons])
  refine ⟨⟨?_, ?_⟩, ?_⟩
  · rw [Formula.isName, h]
    simpa [hstart] using hcs
  · have hpi := hne "pi" (by obtain rfl | rfl | rfl := hc <;> decide)
    have hE := hne "E" (by obtain rfl | rfl | rfl := hc <;> decide)
    unfold constant?
    split
    · exact absurd rfl hpi
    · exact absurd rfl hE
    · rfl
  · rw [h, List.head?_cons]
    obtain rfl | rfl | rfl := hc <;> decide

theorem sharable_inputName (i : Nat) : Sharable (inputName i) := by
  have hname : (inputName i).toList = 'x' :: (toString i).toList := by simp [inputName]
  exact sharable_of_cons hname (by decide) fun _ => Formula.isNamePart_of_mem_toString

theorem sharable_targetName (i : Nat) : Sharable (targetName i) := by
  have hname : (targetName i).toList = 'y' :: 't' :: (toString i).toList := by simp [targetName]
  exact sharable_of_cons hname (by decide)
    (List.forall_mem_cons.2 ⟨rfl, fun _ => Formula.isNamePart_of_mem_toString⟩)

theorem sharable_of_mem_namesAt {index outputs inputs : Nat} {x : String}
    (h : x ∈ namesAt index outputs inputs) : Sharable x := by
  obtain ⟨r, -, c, -, rfl⟩ | ⟨r, -, rfl⟩ := mem_namesAt.1 h
  · refine sharable_of_cons (toList_matrixName _ _ _) (.inl rfl) ?_
    simp only [List.mem_append, List.mem_cons]
    rintro d (hd | rfl | hd | rfl | hd)
    · exact Formula.isNamePart_of_mem_toString hd
    · rfl
    · exact Formula.isNamePart_of_mem_toString hd
    · rfl
    · exact Formula.isNamePart_of_mem_toString hd
  · refine sharable_of_cons (toList_biasName _ _) (.inl rfl) ?_
    simp only [List.mem_append, List.mem_cons]
    rintro d (hd | rfl | hd)
    · exact Formula.isNamePart_of_mem_toString hd
    · rfl
    · exact Formula.isNamePart_of_mem_toString hd

theorem exists_forall₂ {α β : Type} {R : α → β → Prop} {as : List α} (h : ∀ a ∈ as, ∃ b, R a b) :
    ∃ bs, List.Forall₂ R as bs := by
  induction as with
  | nil => exact ⟨[], .nil⟩
  | cons a as ih =>
      obtain ⟨⟨b, hb⟩, hrest⟩ := List.forall_mem_cons.1 h
      obtain ⟨bs, hbs⟩ := ih hrest
      exact ⟨b :: bs, .cons hb hbs⟩

theorem exists_error_of_formulas {items : List Memo.Item} (h : Memo.Item.formulas items = .error f) :
    ∃ i ∈ items, ∃ g, i.formula = .error g := by
  by_contra hnone
  push Not at hnone
  have hread : ∀ i ∈ items, ∃ e, i.formula = .ok e := fun i hi => by
    cases hi' : i.formula with
    | error g => exact absurd hi' (hnone i hi g)
    | ok e => exact ⟨e, rfl⟩
  obtain ⟨es, hes⟩ := exists_forall₂ hread
  rw [Memo.Item.formulas_eq_ok_iff.2 hes] at h
  cases h

theorem formula_text {p : Expr} {e : Formula} :
    (Memo.Item.text p.text).formula = .ok e ↔ Formula.parse p.text = .ok e := by
  simp only [Memo.Item.formula]
  cases Formula.parse p.text <;> simp

theorem forall₂_of_formulas {es : List Formula}
    (h : Memo.Item.formulas (textsBatch ps).items = .ok es) :
    List.Forall₂ (fun p e => Formula.parse (Expr.text p) = .ok e) ps es := by
  rw [Memo.Item.formulas_eq_ok_iff, textsBatch, Memo.Batch.items, List.map_map,
    List.forall₂_map_left_iff] at h
  exact h.imp fun _ _ => formula_text.1

section

variable [Memo.Stack]

/-- A formula that is nested too deeply keeps all from being given names. -/
theorem answer_deep (hread : ∀ p ∈ ps, ∃ e, Formula.parse p.text = .ok e) (hdeep : TooDeep ps) :
    (Memo.Table.empty "f").answer (textsBatch ps) = (.error .tooDeep, Memo.Table.empty "f") := by
  obtain ⟨es, hes⟩ := exists_forall₂ hread
  obtain ⟨p, hp, e, he, hdepth⟩ := hdeep
  have hmem : e ∈ es := by
    obtain ⟨k, hk, rfl⟩ := List.getElem_of_mem hp
    have hk' := hes.get hk (hes.length_eq ▸ hk)
    exact Except.ok.inj (he.symm.trans hk') ▸ List.getElem_mem _
  have hformulas : Memo.Item.formulas (textsBatch ps).items = .ok es := by
    rw [Memo.Item.formulas_eq_ok_iff, textsBatch, Memo.Batch.items, List.map_map,
      List.forall₂_map_left_iff]
    exact hes.imp fun _ _ => formula_text.2
  have herror := (Memo.Table.answer_eq_error_iff (Memo.Table.keyed_empty "f")).2
    (.inr ⟨rfl, es, hformulas, e, hmem, hdepth⟩)
  exact Memo.Table.answer_of_error (Memo.Table.keyed_empty "f") herror

theorem compileTexts_deep (hread : ∀ p ∈ ps, ∃ e, Formula.parse p.text = .ok e) (hdeep : TooDeep ps) :
    compileTexts (ps.map Expr.text) = .error (.fault .tooDeep) := by
  have hoptimize : (Memo.Table.empty "f").optimize ((ps.map Expr.text).map .text) =
      (.error .tooDeep, Memo.Table.empty "f") := answer_deep hread hdeep
  rw [compileTexts, hoptimize]
  rfl

/-- Texts that are given names are read, and not as too deep formulas. -/
theorem read_of_answer {names : List String}
    (h : ((Memo.Table.empty "f").answer (textsBatch ps)).1 = .ok names) :
    (∀ p ∈ ps, ∃ e, Formula.parse p.text = .ok e) ∧ ¬TooDeep ps := by
  have hread : ∀ p ∈ ps, ∃ e, Formula.parse p.text = .ok e := by
    obtain ⟨es, hes, -⟩ := Memo.Table.given_eq_zip (Memo.Table.keyed_empty "f") h
    have hread := forall₂_of_formulas hes
    intro p hp
    obtain ⟨k, hk, rfl⟩ := List.getElem_of_mem hp
    exact ⟨_, hread.get hk (hread.length_eq ▸ hk)⟩
  refine ⟨hread, fun hdeep => ?_⟩
  rw [answer_deep hread hdeep] at h
  cases h

/-- Formulas with few levels do not take too many brackets to write. -/
theorem not_tooNested_of_depth
    (h : ∀ p ∈ ps, ∀ e, Formula.parse p.text = .ok e → e.depth ≤ Code.bracketLimit) :
    ¬TooNested ps := by
  rintro ⟨names, -, a, ⟨x, -, hentry⟩, hnested⟩
  obtain ⟨i, -, ha⟩ := Memo.Table.entry?_eq_some_iff.1 hentry
  refine absurd (Memo.Table.nestsWithin_after (fun b hb e he => ?_) ha) (not_le.2 hnested)
  obtain rfl := List.mem_singleton.1 hb
  obtain ⟨j, hj, hread⟩ := Memo.Batch.mem_formulas.1 he
  simp only [textsBatch, Memo.Batch.items, List.map_map, List.mem_map] at hj
  obtain ⟨p, hp, rfl⟩ := hj
  exact (Formula.nesting_le_depth e).trans (h p hp e (formula_text.1 hread))

/-- What is compiled has been given names. -/
theorem answer_of_compileTexts {ev : Memo.Evaluator} (h : compileTexts (ps.map Expr.text) = .ok ev) :
    ∃ names, ((Memo.Table.empty "f").answer (textsBatch ps)).1 = .ok names := by
  have hanswer : (Memo.Table.empty "f").optimize ((ps.map Expr.text).map .text) =
      (Memo.Table.empty "f").answer (textsBatch ps) := rfl
  rw [compileTexts, hanswer] at h
  cases hresult : (Memo.Table.empty "f").answer (textsBatch ps) with
  | mk result t =>
      cases result with
      | error f =>
          rw [hresult] at h
          cases h
      | ok names => exact ⟨names, rfl⟩

end

section

variable (hN : ∀ x, N x → Sharable x) (h : ∀ p ∈ ps, Polynomial N p)

include hN h

/-- What a text of the batch is read as. -/
theorem read_textsBatch {e : Formula} (he : e ∈ (textsBatch ps).formulas) :
    ∃ p ∈ ps, Formula.parse p.text = .ok e ∧ e.Means N (fun s => p.valueAt s) ∧
      e.Everywhere Memo.Table.Operable := by
  obtain ⟨i, hi, hread⟩ := Memo.Batch.mem_formulas.1 he
  simp only [textsBatch, Memo.Batch.items, List.map_map, List.mem_map] at hi
  obtain ⟨p, hp, rfl⟩ := hi
  have hparse := formula_text.1 hread
  obtain ⟨hmeans, hoperable, -⟩ :=
    (Expr.parse_text_polynomial (fun x hx => (hN x hx).1) (h p hp)).1 e hparse
  exact ⟨p, hp, hparse, hmeans, hoperable⟩

/-- A batch of texts fails only if one of them is too large. -/
theorem tooLarge_of_error [Memo.Stack] (herror : ((Memo.Table.empty "f").answer (textsBatch ps)).1 = .error f) :
    TooLarge ps (.fault f.fault) := by
  obtain hformulas | ⟨rfl, es, hformulas, e, he, hdepth⟩ :=
    (Memo.Table.answer_eq_error_iff (Memo.Table.keyed_empty "f")).1 herror
  · obtain ⟨i, hi, g, hg⟩ := exists_error_of_formulas hformulas
    simp only [textsBatch, Memo.Batch.items, List.map_map, List.mem_map] at hi
    obtain ⟨p, hp, rfl⟩ := hi
    obtain ⟨-, hread⟩ := Expr.parse_text_polynomial (fun x hx => (hN x hx).1) (h p hp)
    by_contra hsmall
    obtain ⟨e, he⟩ := hread fun k hk => not_le.1 fun hlong => hsmall (.long hp hk hlong _)
    rw [Function.comp_apply, formula_text.2 he] at hg
    cases hg
  · obtain ⟨p, hp, hparse, -⟩ := read_textsBatch hN h (Memo.Table.mem_formulas_of_ok hformulas he)
    exact .deep ⟨p, hp, e, hparse, hdepth⟩

theorem plain_textsBatch : ∀ b ∈ [textsBatch ps], ∀ e ∈ b.formulas, Memo.Plain "f" e := by
  intro b hb e he
  obtain rfl := List.mem_singleton.1 hb
  obtain ⟨p, -, -, hmeans, -⟩ := read_textsBatch hN h he
  refine Memo.Table.plain_of_head? (by decide) fun x hx => ?_
  exact Ne.symm (hN x (hmeans.names x hx)).2

theorem whole_textsBatch : ∀ n ∈ Memo.literals [textsBatch ps], n.isWhole = true := by
  intro n hn
  obtain ⟨b, hb, hn⟩ := List.mem_flatMap.1 hn
  obtain rfl := List.mem_singleton.1 hb
  obtain ⟨e, he, hn⟩ := List.mem_flatMap.1 hn
  obtain ⟨p, -, -, hmeans, -⟩ := read_textsBatch hN h he
  exact hmeans.whole n hn

/-- The name of a text expands to a formula with the value of the expression. -/
theorem evaluateOver_expand_text [Memo.Stack] {p : Expr} {e : Formula} {x : String} (hp : p ∈ ps)
    (he : Formula.parse p.text = .ok e)
    (hanswered : (e, x) ∈ (Memo.Table.empty "f").answered [textsBatch ps])
    {s : String → Option ℚ} {v : String → ℚ} (hs : ∀ x, N x → s x = some (v x)) :
    (((Memo.Table.empty "f").after [textsBatch ps]).expand (.variable x)).evaluateOver
      Arithmetic.exact s = .ok (p.valueAt v) := by
  have hwhole := whole_textsBatch hN h
  have hkey := Memo.Table.key_expand_of_mem_answered (plain_textsBatch hN h)
    (fun m hm n hn => Number.eq_of_same_of_isWhole (hwhole m hm) (hwhole n hn)) hanswered
  obtain ⟨hmeans, -⟩ := (Expr.parse_text_polynomial (fun x hx => (hN x hx).1) (h p hp)).1 e he
  calc _ = e.evaluateOver Arithmetic.exact s := Formula.evaluateOver_eq_of_key_eq hkey
    _ = e.exactAt v := Formula.evaluateOver_congr fun x hx => hs x (hmeans.names x hx)
    _ = .ok (p.valueAt v) := hmeans.value v

/-- Texts that were given names are compiled to an evaluator of the values of
their expressions, unless it takes too many brackets to write. -/
theorem compile_texts_cases [Memo.Stack] (hne : ps ≠ []) {names : List String}
    (hok : ((Memo.Table.empty "f").answer (textsBatch ps)).1 = .ok names) :
    (TooNested ps ∧
        ((Memo.Table.empty "f").after [textsBatch ps]).compile (.many names) = .error .unreadable) ∨
      ¬TooNested ps ∧
        ∃ ev, ((Memo.Table.empty "f").after [textsBatch ps]).compile (.many names) = .ok ev ∧
          ∀ (s : String → Option ℚ) (v : String → ℚ), (∀ x, N x → s x = some (v x)) →
            ev.runOver Arithmetic.exact s = .ok (ps.map fun p => some (p.valueAt v)) := by
  obtain ⟨es, hes, hanswered, hlength, -⟩ := Memo.Table.answered_singleton hok
  have hread := forall₂_of_formulas hes
  have hsome : names ≠ [] := by
    rw [← List.length_pos_iff, hlength, ← hread.length_eq]
    exact List.length_pos_iff.2 hne
  have hparsed : ∀ b ∈ [textsBatch ps], ∀ e ∈ b.formulas, ∃ s, Formula.parse s = .ok e := by
    intro b hb e he
    obtain rfl := List.mem_singleton.1 hb
    obtain ⟨p, -, hparse, -⟩ := read_textsBatch hN h he
    exact ⟨_, hparse⟩
  have hcompilable := Memo.Table.compilable_answer
    (plain_textsBatch hN h _ (List.mem_singleton_self _)) hsome hok
  obtain ⟨hnested, herror⟩ | ⟨hroom, ev, hcompile⟩ :=
    Memo.Table.compiles_of_read hparsed hcompilable
  · exact .inl ⟨⟨names, hok, hnested⟩, herror⟩
  have hshort : ¬TooNested ps := by
    rintro ⟨_, hnames, a, ha, hnested⟩
    cases hok.symm.trans hnames
    exact absurd (hroom a ha) (not_le.2 hnested)
  refine .inr ⟨hshort, ev, hcompile, fun s v hs => ?_⟩
  have hvalues : List.Forall₂ (fun x q =>
      (((Memo.Table.empty "f").after [textsBatch ps]).expand (.variable x)).evaluateOver
        Arithmetic.exact s = .ok q) names (ps.map fun p => p.valueAt v) := by
    refine List.forall₂_iff_get.2 ⟨by simp [hlength, hread.length_eq], fun k hk hk' => ?_⟩
    have hkp : k < ps.length := by simpa using hk'
    have hke : k < es.length := hlength ▸ hk
    have hmem : (es[k], names[k]) ∈ (Memo.Table.empty "f").answered [textsBatch ps] := by
      rw [hanswered]
      exact List.mem_iff_getElem.2 ⟨k, by simp [← hlength, hk], by simp⟩
    simpa using evaluateOver_expand_text hN h (List.getElem_mem hkp) (hread.get hkp hke) hmem hs
  rw [Memo.Table.runOver_compile hcompile hvalues, List.map_map]
  rfl

/-- Texts of polynomials are compiled to an evaluator of their exact values,
unless they are too large. -/
theorem compileTexts_cases [Memo.Stack] (hne : ps ≠ []) :
    (∃ f, TooLarge ps f ∧ compileTexts (ps.map Expr.text) = .error f) ∨
      ¬TooDeep ps ∧ ¬TooNested ps ∧ ∃ ev, compileTexts (ps.map Expr.text) = .ok ev ∧
        ∀ (s : String → Option ℚ) (v : String → ℚ), (∀ x, N x → s x = some (v x)) →
          ev.runOver Arithmetic.exact s = .ok (ps.map fun p => some (p.valueAt v)) := by
  cases hanswer : (Memo.Table.empty "f").answer (textsBatch ps) with
  | mk result t =>
      have hoptimize : (Memo.Table.empty "f").optimize ((ps.map Expr.text).map .text) =
          (result, t) := hanswer
      have hafter : (Memo.Table.empty "f").after [textsBatch ps] = t := congrArg Prod.snd hanswer
      cases result with
      | error f =>
          refine .inl ⟨_, tooLarge_of_error hN h (congrArg Prod.fst hanswer), ?_⟩
          rw [compileTexts, hoptimize]
      | ok names =>
          have hcompile : compileTexts (ps.map Expr.text) =
              (t.compile (.many names)).mapError fun f => .fault f.fault := by
            rw [compileTexts, hoptimize]
          obtain ⟨hnested, herror⟩ | ⟨hshort, ev, hev, hvalues⟩ :=
            compile_texts_cases hN h hne (congrArg Prod.fst hanswer)
          · rw [hafter] at herror
            exact .inl ⟨_, .nested hnested, by rw [hcompile, herror]; rfl⟩
          · rw [hafter] at hev
            have hok : compileTexts (ps.map Expr.text) = .ok ev := by
              rw [hcompile, hev]
              rfl
            exact .inr ⟨(read_of_answer (congrArg Prod.fst hanswer)).2, hshort, ev, hok, hvalues⟩

end

end Gantry.Network
