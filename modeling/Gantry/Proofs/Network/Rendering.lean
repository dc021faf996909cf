import Gantry.Proofs.Algebra.Engine
import Gantry.Proofs.Algebra.Equality
import Gantry.Proofs.Algebra.Legibility
import Gantry.Proofs.Network.Linear
import Gantry.Proofs.Network.Texts
import Gantry.Proofs.Training.Lifetime

/-!
What a network has rendered: its outputs, its loss and the gradients of that.
When maps are texts of formulas and the algebra keeps the shape of expressions,
all of it is well-formed, and a text is a formula just if what is applied in it
are functions of formulas with their numbers of operands. The standard algebra
makes an extremum of extrema one of all their operands, so not every text is.
-/

namespace Gantry.Network

open Gantry.Algebra
open Gantry.Algebra.Expr (Callable)

variable {net net₀ : Network} {index inputs : Nat} {l : Layer} {ls : List Layer} {z e : Expr}
  {es out : List Expr}

/-! ### Layers -/

/-- A map that is the text of a formula. -/
def MapEntry.Formal : MapEntry → Prop
  | .text s => ∃ f, Formula.parse s = .ok f
  | _ => False

def LayerKind.Formal : LayerKind → Prop
  | .dense _ => True
  | .map entries => ∀ m ∈ entries, m.Formal

section

variable [Engine] (hshape : Engine.KeepsShape)

include hshape

theorem wellFormed_activated (a : Activation) (hz : z.WellFormed) : (a.apply z).WellFormed := by
  have hone : Expr.one.WellFormed := Expr.wellFormed_number
  have hplus {z : Expr} (hz : z.WellFormed) :
      (Engine.sumOf [Expr.one, Engine.applied .exp [z]]).WellFormed :=
    hshape.sumOf_pair hone (hshape.unary (f := .exp) trivial hz)
  cases a with
  | identity => exact hz
  | softRelu => exact hshape.unary (f := .log) trivial (hplus hz)
  | relu =>
      exact hshape.applied (f := .larger) trivial
        (List.forall_mem_cons.2 ⟨Expr.wellFormed_zero, List.forall_mem_singleton.2 hz⟩)
  | tanh => exact hshape.unary (f := .tanh) trivial hz
  | sigmoid => exact hshape.quotientOf hone (hplus (hshape.negated hz))

theorem wellFormed_affine {row : List Weight} {b : Weight}
    (hrow : ∀ w ∈ row, Formula.isName w.name = true) (hb : Formula.isName b.name = true)
    (hes : ∀ e ∈ es, e.WellFormed) : (Layer.affine row b es).WellFormed := by
  refine hshape.sumOf fun t ht => ?_
  rcases List.mem_append.1 ht with ht | ht
  · rw [← List.map_uncurry_zip_eq_zipWith] at ht
    obtain ⟨⟨w, x⟩, hwx, rfl⟩ := List.mem_map.1 ht
    obtain ⟨hw, hx⟩ := List.of_mem_zip hwx
    exact hshape.productOf_pair (Expr.wellFormed_symbol.2 (hrow w hw)) (hes x hx)
  · obtain rfl := List.mem_singleton.1 ht
    exact Expr.wellFormed_symbol.2 hb

theorem wellFormed_expression {m : MapEntry} (hm : m.Formal) (hes : ∀ e ∈ es, e.WellFormed)
    (h : m.expression es = .ok e) : e.WellFormed := by
  cases m with
  | text s =>
      obtain ⟨f, hf⟩ := hm
      rw [MapEntry.expression] at h
      cases hread : Engine.read (((List.range es.length).map inputName).zip es) s with
      | error f =>
          rw [hread] at h
          cases h
      | ok a =>
          rw [hread] at h
          obtain rfl := Except.ok.inj h
          exact hshape.read hf (fun p hp => hes p.2 (List.of_mem_zip hp).2) hread
  | function f => cases hm
  | unusable => cases hm

theorem wellFormed_mapExpressions {entries : List MapEntry} (hentries : ∀ m ∈ entries, m.Formal)
    (hes : ∀ e ∈ es, e.WellFormed) (h : mapExpressions es entries = .ok out) :
    ∀ e ∈ out, e.WellFormed := by
  induction entries generalizing out with
  | nil =>
      obtain rfl := Except.ok.inj h
      simp
  | cons m ms ih =>
      rw [List.forall_mem_cons] at hentries
      obtain ⟨a, ha, h⟩ := Formula.bind_eq_ok_iff.1 h
      obtain ⟨as, has, h⟩ := Formula.bind_eq_ok_iff.1 h
      obtain rfl := Except.ok.inj h
      exact List.forall_mem_cons.2
        ⟨wellFormed_expression hshape hentries.1 hes ha, ih hentries.2 has⟩

/-- A layer at its place makes well-formed expressions of such. -/
theorem Layer.Seated.wellFormed_expressions (h : l.Seated index inputs) (hkind : l.kind.Formal)
    (hlength : es.length = inputs) (hes : ∀ e ∈ es, e.WellFormed) (hout : l.expressions es = .ok out) :
    ∀ e ∈ out, e.WellFormed := by
  cases hk : l.kind with
  | dense d =>
      have hnames {w : Weight} (hw : w ∈ l.weights) : Formula.isName w.name = true := by
        have hmem := List.mem_map_of_mem (f := Weight.name) hw
        rw [h.names, Layer.namesAt_dense hk] at hmem
        exact (sharable_of_mem_namesAt hmem).1.1
      obtain rfl := Except.ok.inj ((h.expressions_dense hk hlength).symm.trans hout)
      rw [← List.map_uncurry_zip_eq_zipWith]
      intro e he
      obtain ⟨⟨row, b⟩, hmem, rfl⟩ := List.mem_map.1 he
      obtain ⟨hrow, hb⟩ := List.of_mem_zip hmem
      exact wellFormed_activated hshape d.activation (wellFormed_affine hshape
        (fun w hw => hnames (mem_of_mem_rows hrow hw)) (hnames (List.mem_of_mem_drop hb)) hes)
  | map entries =>
      rw [hk] at hkind
      rw [h.expressions_map hk hlength] at hout
      cases hmap : mapExpressions es entries with
      | error f =>
          rw [hmap] at hout
          cases hout
      | ok as =>
          rw [hmap] at hout
          obtain rfl := Except.ok.inj hout
          exact wellFormed_mapExpressions hshape hkind hes hmap

theorem Stacked.wellFormed_through (h : Stacked index inputs ls) (hkinds : ∀ l ∈ ls, l.kind.Formal)
    (hlength : es.length = inputs) (hes : ∀ e ∈ es, e.WellFormed) (hout : through ls es = .ok out) :
    ∀ e ∈ out, e.WellFormed := by
  induction ls generalizing index inputs es with
  | nil => exact Except.ok.inj hout ▸ hes
  | cons l ls ih =>
      rw [List.forall_mem_cons] at hkinds
      obtain ⟨as, has, hcount⟩ | ⟨f, -, hf⟩ := h.1.expressions_cases hlength
      · rw [through, has] at hout
        exact ih h.2 hkinds.2 hcount (h.1.wellFormed_expressions hshape hkinds.1 hlength hes has) hout
      · rw [through, hf] at hout
        cases hout

/-! ### Networks -/

theorem wellFormed_meanSquare {predicted targets : List Expr} (hp : ∀ e ∈ predicted, e.WellFormed)
    (ht : ∀ e ∈ targets, e.WellFormed) : (meanSquare predicted targets).WellFormed := by
  refine hshape.quotientOf (hshape.sumOf fun t hmem => ?_) Expr.wellFormed_number
  rw [← List.map_uncurry_zip_eq_zipWith] at hmem
  obtain ⟨⟨a, b⟩, hab, rfl⟩ := List.mem_map.1 hmem
  obtain ⟨ha, hb⟩ := List.of_mem_zip hab
  exact hshape.powerOf (hshape.minus (hp a ha) (ht b hb)) Expr.wellFormed_number

end

section

variable [Memo.Stack] [Engine]

/-- An expression that a network has rendered as a text. -/
inductive Renders (net : Network) : Expr → Prop
  | prediction {es : List Expr} {e : Expr} (hes : net.prediction.1 = .ok es) (he : e ∈ es) :
      Renders net e
  | loss {e : Expr} (he : net.loss.1 = .ok e) : Renders net e
  | gradient {gs : List (String × Expr)} {name : String} {e : Expr} (hgs : net.gradients.1 = .ok gs)
      (he : (name, e) ∈ gs) : Renders net e

section

variable (hshape : Engine.KeepsShape) (h : net.Kept true inputs) (hkinds : ∀ l ∈ net.layers, l.kind.Formal)

include hshape h hkinds

theorem wellFormed_predictionAnew (hes : net.predictionAnew = .ok es) : ∀ e ∈ es, e.WellFormed := by
  have hlength : net.inputSymbols.length = inputs := by simp [inputSymbols, inputNames, h.inputs_eq]
  have hsymbols : ∀ e ∈ net.inputSymbols, e.WellFormed := by
    simp only [inputSymbols, inputNames, List.map_map, List.forall_mem_map]
    exact fun k _ => Expr.wellFormed_symbol.2 (sharable_inputName k).1.1
  exact h.stacked.wellFormed_through hshape hkinds hlength hsymbols (h.predictionAnew_eq.symm.trans hes)

theorem wellFormed_lossAnew (he : net.lossAnew = .ok e) : e.WellFormed := by
  rw [lossAnew] at he
  cases hprediction : net.predictionAnew with
  | error f =>
      rw [hprediction] at he
      cases he
  | ok es =>
      rw [hprediction] at he
      obtain rfl := Except.ok.inj he
      refine wellFormed_meanSquare hshape (wellFormed_predictionAnew hshape h hkinds hprediction) ?_
      simp only [targetSymbols, targetNames, List.map_map, List.forall_mem_map]
      exact fun k _ => Expr.wellFormed_symbol.2 (sharable_targetName k).1.1

theorem wellFormed_gradientsAnew {gs : List (String × Expr)} (hgs : net.gradientsAnew = .ok gs) :
    ∀ g ∈ gs, g.2.WellFormed := by
  rw [gradientsAnew] at hgs
  cases hloss : net.lossAnew with
  | error f =>
      rw [hloss] at hgs
      cases hgs
  | ok e =>
      rw [hloss] at hgs
      obtain rfl := Except.ok.inj hgs
      rw [List.forall_mem_map]
      exact fun x _ => hshape.gradient (wellFormed_lossAnew hshape h hkinds hloss) x

theorem Renders.wellFormed (he : net.Renders e) : e.WellFormed := by
  cases he with
  | prediction hes hmem =>
      exact wellFormed_predictionAnew hshape h hkinds ((derives_prediction h.faithful).result ▸ hes) e hmem
  | loss he => exact wellFormed_lossAnew hshape h hkinds ((derives_loss h.faithful).result ▸ he)
  | gradient hgs hmem =>
      exact wellFormed_gradientsAnew hshape h hkinds ((derives_gradients h.faithful).result ▸ hgs) _ hmem

end

/-- Whatever has happened to a network of dense layers and of maps that are texts
of formulas, an output of it, its loss or a gradient has a text that is read as a
formula, just if its calls are those of formulas and no numeral in the text is
too long. The algebra has only to keep the shape of expressions. -/
theorem exists_parse_iff_of_renders (hshape : Engine.KeepsShape) {count : Int}
    (hempty : empty true count = .ok net₀) (acts : List Act)
    (hacts : ∀ a ∈ acts, a.Offers ∧ a.Adds LayerKind.Formal) (he : (net₀.actAll acts).Renders e) :
    (∃ f, Formula.parse e.text = .ok f) ↔ e.Everywhere Callable ∧ Formula.Short e.text := by
  have hstart := kept_of_empty hempty
  obtain ⟨-, rfl⟩ := empty_eq_ok_iff.1 hempty
  have hkept := kept_actAll hstart fun a ha => (hacts a ha).1
  have hkinds := forall_kind_actAll hstart (by simp) hacts
  exact Expr.exists_parse_text_iff (he.wellFormed hshape hkept hkinds)

end

/-! ### The greater of two outputs -/

/-- Two outputs, which the loss is asked of, and then the greater of them. -/
def greaterActs (a : Activation) : List Act :=
  [.call (.add (.loose (.dense ⟨2, a, .identity, none, []⟩)) default), .call .loss,
    .call (.add (.loose (.map [.text "Max(x0, x1)"])) default)]

def greater (a : Activation) : Network := actAll ⟨true, 2, [], .empty⟩ (greaterActs a)

theorem parse_greater :
    Formula.parse "Max(x0, x1)" = .ok (.call "Max" [.variable "x0", .variable "x1"]) := by
  have htokens : Formula.tokensFrom 0 "Max(x0, x1)".toList =
      .ok [⟨.name, "Max", 0⟩, ⟨.op, "(", 3⟩, ⟨.name, "x0", 4⟩, ⟨.op, ",", 6⟩, ⟨.name, "x1", 8⟩,
        ⟨.op, ")", 10⟩] := by
    decide +kernel
  have hname {t : Formula.Token} (hkind : t.kind = .name) (ht : constant? t.text = none) :
      Formula.IsSum .formulas [t] (.variable t.text) := (Formula.IsPower.atom (.var hkind ht)).isSum
  have harguments : Formula.AreArguments .formulas [⟨.name, "x0", 4⟩, ⟨.op, ",", 6⟩, ⟨.name, "x1", 8⟩]
      [.variable "x0", .variable "x1"] :=
    .more (hname rfl rfl) ⟨rfl, rfl⟩ (.last (hname rfl rfl))
  exact Formula.parseWith_eq_ok_iff.2 ⟨_, htokens, (Formula.IsPower.atom
    (.call rfl ⟨rfl, rfl⟩ harguments ⟨rfl, rfl⟩ ⟨_, rfl, rfl⟩)).isSum⟩

theorem formal_greaterActs (a : Activation) :
    ∀ b ∈ greaterActs a, b.Offers ∧ b.Adds LayerKind.Formal := by
  have hdense : Dense.make 2 a.name "identity" none [] = .ok ⟨2, a, .identity, none, []⟩ := by
    simp [Dense.make, Initializer.ofName?]
  have hmap : Layer.ofMap [.text "Max(x0, x1)"] = .ok (.loose (.map [.text "Max(x0, x1)"])) := rfl
  have hformal : (MapEntry.text "Max(x0, x1)").Formal := ⟨_, parse_greater⟩
  simp only [greaterActs, List.forall_mem_cons, List.not_mem_nil, false_implies, implies_true,
    and_true]
  exact ⟨⟨.inr (.dense hdense), trivial⟩, ⟨trivial, trivial⟩, .inr (.map hmap),
    List.forall_mem_singleton.2 hformal⟩

theorem kept_greater (a : Activation) : (greater a).Kept true 2 :=
  have hempty : empty true 2 = .ok ⟨true, 2, [], .empty⟩ := rfl
  kept_actAll (kept_of_empty hempty) fun b hb => (formal_greaterActs a b hb).1

theorem formal_greater (a : Activation) : ∀ l ∈ (greater a).layers, l.kind.Formal := by
  have hempty : empty true 2 = .ok ⟨true, 2, [], .empty⟩ := rfl
  exact forall_kind_actAll (kept_of_empty hempty) (by simp) (formal_greaterActs a)

theorem expression_greater {a b : Expr} (h : [a, b].all Expr.isComparable = true) :
    (MapEntry.text "Max(x0, x1)").expression [a, b] = .ok (Expr.extremumOf true [a, b]) := by
  have hnames : (Formula.call "Max" [.variable "x0", .variable "x1"]).variableNames.any
      (fun name => Expr.reserved.contains name) = false := by
    rw [List.any_eq_false]
    intro x hx
    rw [Formula.mem_variableNames] at hx
    revert x
    decide
  have hinputs : (List.range 2).map inputName = ["x0", "x1"] := by decide +kernel
  have hread : Expr.read (((List.range 2).map inputName).zip [a, b]) "Max(x0, x1)" =
      Expr.extremum? true [a, b] := by
    rw [Expr.read, Formula.parseWith_any parse_greater, hinputs]
    simp only [hnames]
    rfl
  rw [Expr.extremum?, if_pos h] at hread
  rw [MapEntry.expression]
  exact congrArg (Except.mapError ReadFailure.fault) hread

/-- What is rendered is the greater of what the first layer makes of the inputs. -/
theorem renders_greater {a : Activation} {e₀ e₁ : Expr}
    (hfirst : (greater a).layers.head?.map (·.expressions (greater a).inputSymbols) =
      some (.ok [e₀, e₁]))
    (hcomparable : [e₀, e₁].all Expr.isComparable = true) :
    (greater a).Renders (Expr.extremumOf true [e₀, e₁]) := by
  have hkept := kept_greater a
  obtain ⟨k, m, hlayers, hm, houtputs⟩ : ∃ k m, (greater a).layers = [k, m] ∧
      m.kind = .map [.text "Max(x0, x1)"] ∧ k.outputs = 2 := ⟨_, _, rfl, rfl, rfl⟩
  have hstacked := hkept.stacked
  rw [hlayers] at hstacked
  rw [hlayers, List.head?_cons, Option.map_some, Option.some.injEq] at hfirst
  have hsecond : m.expressions [e₀, e₁] = .ok [Expr.extremumOf true [e₀, e₁]] := by
    have hlength : [e₀, e₁].length = k.outputs := houtputs.symm
    rw [hstacked.2.1.expressions_map hm hlength, mapExpressions, expression_greater hcomparable]
    rfl
  have hprediction : (greater a).prediction.1 = .ok [Expr.extremumOf true [e₀, e₁]] := by
    rw [(derives_prediction hkept.faithful).result, hkept.predictionAnew_eq, hlayers]
    simp only [through, hfirst, hsecond]
  exact .prediction hprediction List.mem_cons_self

/-- The sums that the rows of the first layer make. -/
def greaterSums : List Expr :=
  let sum (bias first second : String) : Expr :=
    .sum [.symbol bias true, .product [.symbol first true, .symbol "x0" true],
      .product [.symbol second true, .symbol "x1" true]]
  [sum "w0b0" "w0r0c0" "w0r0c1", sum "w0b1" "w0r1c0" "w0r1c1"]

theorem exists_parse_greater :
    (∀ b ∈ greaterActs .identity, b.Offers ∧ b.Adds LayerKind.Formal) ∧
      ∃ e, (greater .identity).Renders e ∧
        e.text = "Max(w0b0 + w0r0c0*x0 + w0r0c1*x1, w0b1 + w0r1c0*x0 + w0r1c1*x1)" ∧
        ∃ f, Formula.parse e.text = .ok f := by
  have hrenders : (greater .identity).Renders (Expr.extremumOf true greaterSums) :=
    renders_greater (by decide +kernel) rfl
  have hextremum : Expr.extremumOf true greaterSums = .apply .larger greaterSums := by decide +kernel
  rw [hextremum] at hrenders
  have hgreater : Formula.Signature.formulas.Accepts Head.larger.name 2 := ⟨_, rfl, rfl⟩
  have hcallable : (Expr.apply .larger greaterSums).Everywhere Callable := by
    simpa [greaterSums, Expr.everywhere_apply, Expr.everywhere_sum, Expr.everywhere_product,
      Expr.everywhere_symbol, Callable] using hgreater
  have hshort : Formula.Short (Expr.apply .larger greaterSums).text := by decide +kernel
  have hempty : empty true 2 = .ok ⟨true, 2, [], .empty⟩ := rfl
  have hparse := exists_parse_iff_of_renders Engine.keepsShape_standard hempty _
    (formal_greaterActs _) hrenders
  exact ⟨formal_greaterActs _, _, hrenders, by decide +kernel, hparse.2 ⟨hcallable, hshort⟩⟩

/-- The greater of outputs that are cut off at zero is the greatest of three. -/
theorem not_exists_parse_greater :
    (∀ b ∈ greaterActs .relu, b.Offers ∧ b.Adds LayerKind.Formal) ∧
      ∃ e, (greater .relu).Renders e ∧
        e.text = "Max(0, w0b0 + w0r0c0*x0 + w0r0c1*x1, w0b1 + w0r1c0*x0 + w0r1c1*x1)" ∧
        ¬∃ f, Formula.parse e.text = .ok f := by
  have hrenders : (greater .relu).Renders
      (Expr.extremumOf true (greaterSums.map fun r => .apply .larger [Expr.zero, r])) :=
    renders_greater (by decide +kernel) rfl
  have hextremum : Expr.extremumOf true (greaterSums.map fun r => .apply .larger [Expr.zero, r]) =
      .apply .larger (Expr.zero :: greaterSums) := by decide +kernel
  rw [hextremum] at hrenders
  refine ⟨formal_greaterActs _, _, hrenders, by decide +kernel, fun hparse => ?_⟩
  have hwellFormed := hrenders.wellFormed Engine.keepsShape_standard (kept_greater _)
    (formal_greater _)
  obtain ⟨hcallable, -⟩ := (Expr.exists_parse_text_iff hwellFormed).1 hparse
  obtain ⟨g, hg, hcount⟩ := Formula.accepts_formulas_iff.1 (Expr.everywhere_iff.1 hcallable).1
  obtain rfl : Function.larger = g := Option.some.inj hg
  cases hcount

end Gantry.Network
