import Gantry.Proofs.Algebra.Brackets
import Gantry.Proofs.Network.Exactness

/-!
How deep the formulas of a single linear layer are. An output has a level for each input and two
more, and the loss has a level for each output and two more. The loss of several outputs begins with
the difference of an output and its target, which takes two brackets more than there are inputs. So
a layer with as many outputs as inputs can predict if it can be trained.
-/

namespace Gantry.Network

open Gantry.Algebra
open Gantry.Algebra.Expr (Polynomial Signal Nameable)
open Formula (Means)

variable {net : Network} {l : Layer} {index inputs : Nat} {ps es : List Expr} {N : String → Prop}
  {x y z w : String} {ws xs ys : List String} {s : String → ℚ}

/-! ### Values of affine functions -/

/-- The value of an affine function of names, with names for its coefficients. -/
def affineAt (s : String → ℚ) (ws : List String) (x : String) (ys : List String) : ℚ :=
  (List.zipWith (fun w y => s w * s y) ws ys).sum + s x

theorem affineAt_of_zero (h : ∀ w ∈ ws, s w = 0) : affineAt s ws x ys = s x := by
  have hproducts : ∀ p ∈ ws.zip ys, s p.1 * s p.2 = 0 := fun p hp => by
    rw [h p.1 (List.of_mem_zip hp).1, zero_mul]
  rw [affineAt, ← List.map_uncurry_zip_eq_zipWith, List.sum_eq_zero, zero_add]
  rintro q hq
  obtain ⟨p, hp, rfl⟩ := List.mem_map.1 hq
  exact hproducts p hp

theorem affineAt_cons : affineAt s (w :: ws) x (y :: ys) = s w * s y + affineAt s ws x ys := by
  rw [affineAt, List.zipWith_cons_cons, List.sum_cons, add_assoc]
  rfl

/-- A squared difference to an affine function depends on what is added, on what is subtracted and
on a coefficient. -/
theorem three_le_depth {f : Formula} {k : ℚ} (hk : k ≠ 0)
    (hf : Means N f fun s => k * (affineAt s (w :: ws) x (y :: ys) - s z) ^ 2)
    (hdistinct : [x, z, w, y].Nodup) (hfresh : ∀ v ∈ ws, v ∉ [x, z, w, y]) : 3 ≤ f.depth := by
  simp only [List.nodup_cons, List.mem_cons, List.not_mem_nil, or_false, not_or] at hdistinct hfresh
  obtain ⟨⟨hxz, hxw, hxy⟩, ⟨hzw, hzy⟩, hwy, -⟩ := hdistinct
  have hnames : [x, z, w].Nodup := by simp [hxz, hxw, hzw]
  -- All names are zero but one, and for the coefficient what it stands with.
  have hchanges {s s' : String → ℚ} (hzero : affineAt s (w :: ws) x (y :: ys) - s z = 0)
      (hone : (affineAt s' (w :: ws) x (y :: ys) - s' z) ^ 2 = 1) :
      k * (affineAt s' (w :: ws) x (y :: ys) - s' z) ^ 2 ≠
        k * (affineAt s (w :: ws) x (y :: ys) - s z) ^ 2 := by
    rw [hzero, hone]
    simpa using hk
  have hnothing : affineAt (fun _ => 0) (w :: ws) x (y :: ys) - 0 = 0 := by
    rw [affineAt_of_zero fun _ _ => rfl, sub_zero]
  have hdepends : ∀ v ∈ [x, z, w], ∃ s q,
      k * (affineAt (Function.update s v q) (w :: ws) x (y :: ys) - Function.update s v q z) ^ 2 ≠
        k * (affineAt s (w :: ws) x (y :: ys) - s z) ^ 2 := by
    simp only [List.forall_mem_cons, List.not_mem_nil, false_imp_iff, implies_true, and_true]
    refine ⟨⟨fun _ => 0, 1, hchanges hnothing ?_⟩, ⟨fun _ => 0, 1, hchanges hnothing ?_⟩,
      ⟨Function.update (fun _ => 0) y 1, 1, hchanges ?_ ?_⟩⟩
    · rw [affineAt_of_zero (List.forall_mem_cons.2 ⟨?_, fun v hv => ?_⟩)]
      · simp [Ne.symm hxz]
      · simp [Ne.symm hxw]
      · simp [(hfresh v hv).1]
    · rw [affineAt_of_zero (List.forall_mem_cons.2 ⟨?_, fun v hv => ?_⟩)]
      · simp [hxz]
      · simp [Ne.symm hzw]
      · simp [(hfresh v hv).2.1]
    · rw [affineAt_of_zero (List.forall_mem_cons.2 ⟨?_, fun v hv => ?_⟩)]
      · simp [hxy, hzy]
      · simp [hwy]
      · simp [(hfresh v hv).2.2.2]
    · rw [affineAt_cons, affineAt_of_zero fun v hv => ?_]
      · simp [hxw, hxy, hzw, hzy, Ne.symm hwy]
      · simp [(hfresh v hv).2.2]
  have hbits : 2 * [x, z, w].length ≤ 2 ^ f.depth := hf.two_mul_length_le hnames hdepends
  by_contra hlt
  have hpow : 2 ^ f.depth ≤ 2 ^ 2 := Nat.pow_le_pow_right two_pos (by omega)
  rw [List.length_cons, List.length_cons, List.length_singleton] at hbits
  omega

/-! ### Means of squares -/

/-- Differences to different new symbols are different. -/
theorem minus_ne {p q : Expr} (hp : Polynomial N p) (hq : Polynomial N q) (hx : ¬N x) (hne : x ≠ y) :
    Expr.minus p (.symbol x true) ≠ Expr.minus q (.symbol y true) := by
  intro heq
  have hvalue (p : Expr) (hp : Polynomial N p) (z : String) (s : String → ℚ) :
      (Expr.minus p (.symbol z true)).valueAt s = p.valueAt s - s z := by
    have hminus := (Expr.minus_polynomial (hp.mono fun _ _ => trivial)
      (.symbol (N := fun _ => True) true trivial : Polynomial _ (.symbol z true))).2 s
    rwa [Expr.valueAt_symbol] at hminus
  have hsame (p : Expr) (hp : Polynomial N p) :
      p.valueAt (Function.update (fun _ => 0) x 1) = p.valueAt fun _ => 0 :=
    hp.valueAt_congr fun v hv => by
      have hvx : v ≠ x := fun heq => hx (heq ▸ hv)
      rw [Function.update_of_ne hvx]
  have hzero := congrArg (Expr.valueAt fun _ => 0) heq
  have hone := congrArg (Expr.valueAt (Function.update (fun _ => 0) x 1)) heq
  rw [hvalue p hp, hvalue q hq] at hzero hone
  rw [hsame p hp, hsame q hq, Function.update_self, Function.update_of_ne (Ne.symm hne)] at hone
  linarith

/-- The differences of signals and new symbols. -/
def differences (ps : List Expr) (names : List String) : List Expr :=
  (ps.zip names).map fun q => Expr.minus q.1 (.symbol q.2 true)

/-- The mean square of several signals has a term for each of them. -/
theorem meanSquare_terms {names : List String} (hps : ∀ p ∈ ps, Signal N p)
    (hnames : ∀ y ∈ names, ¬N y) (hnodup : names.Nodup) (hlength : ps.length = names.length)
    (htwo : 2 ≤ names.length) :
    ∃ ts, meanSquare ps (names.map fun y => .symbol y true) = .sum ts ∧ ts.length = names.length ∧
      ts.Perm ((differences ps names).map fun b =>
        .product [.number (.exact (1 / names.length)), .power b (Expr.ofInt 2)]) ∧
      ∀ t ∈ ts, ∃ q ∈ ps.zip names, ∀ s,
        t.valueAt s = 1 / names.length * (q.1.valueAt s - s q.2) ^ 2 := by
  have hminus (q : Expr × String) (hq : q ∈ ps.zip names) :
      Polynomial (fun v => N v ∨ v ∈ names) (Expr.minus q.1 (.symbol q.2 true)) ∧
        (Expr.minus q.1 (.symbol q.2 true)).isBase = true ∧
        ∀ s, (Expr.minus q.1 (.symbol q.2 true)).valueAt s = q.1.valueAt s - s q.2 := by
    obtain ⟨hp, hy⟩ := List.of_mem_zip hq
    obtain ⟨hpolynomial, hvalue⟩ := Expr.minus_polynomial (N := fun v => N v ∨ v ∈ names)
      ((hps _ hp).mono fun v hv => .inl hv).polynomial (.symbol true (.inr hy))
    exact ⟨hpolynomial, Expr.isBase_minus (hps _ hp) (hnames _ hy) true,
      fun s => by rw [hvalue, Expr.valueAt_symbol]⟩
  have hdifferent : (differences ps names).Nodup := by
    unfold differences
    refine List.pairwise_iff_getElem.2 fun i j hi hj hij => ?_
    rw [List.length_map] at hi hj
    rw [List.getElem_map, List.getElem_map, List.getElem_zip, List.getElem_zip]
    rw [List.length_zip] at hi hj
    refine minus_ne (hps _ (List.getElem_mem _)).polynomial (hps _ (List.getElem_mem _)).polynomial
      (hnames _ (List.getElem_mem _)) fun heq => ?_
    exact hij.ne ((List.Nodup.getElem_inj_iff hnodup).1 heq)
  have hcount : (differences ps names).length = names.length := by
    rw [differences, List.length_map, List.length_zip, hlength, min_self]
  have hbases : ∀ b ∈ differences ps names,
      Polynomial (fun v => N v ∨ v ∈ names) b ∧ b.isBase = true :=
    List.forall_mem_map.2 fun q hq => ⟨(hminus q hq).1, (hminus q hq).2.1⟩
  obtain ⟨ts, hts, hperm⟩ := Expr.quotientOf_squares hbases hdifferent (hcount ▸ htwo)
    (k := names.length) htwo
  refine ⟨ts, ?_, ?_, hperm, fun t ht => ?_⟩
  · rw [meanSquare, List.length_map, ← hts, differences, List.map_map, List.zipWith_map_right,
      ← List.map_uncurry_zip_eq_zipWith]
    rfl
  · rw [hperm.length_eq, List.length_map, hcount]
  · obtain ⟨b, hb, rfl⟩ := List.mem_map.1 (hperm.mem_iff.1 ht)
    obtain ⟨q, hq, rfl⟩ := List.mem_map.1 hb
    refine ⟨q, hq, fun s => ?_⟩
    rw [Expr.valueAt_product, ← (hminus q hq).2.2]
    simp

/-- If nothing is too nested, the first group of the first formula is not. -/
theorem le_bracketLimit_of_beginsWith {p : Expr} {names : List String} {n : Nat} {f : Formula}
    (hnames : ((Memo.Table.empty "f").answer (textsBatch (p :: ps))).1 = .ok names)
    (hshort : ¬TooNested (p :: ps)) (hf : Formula.parse p.text = .ok f) (hbegins : f.BeginsWith n) :
    n ≤ Code.bracketLimit := by
  obtain ⟨g, hfirst, hn⟩ := hbegins
  obtain ⟨es, hes, -⟩ := Memo.Table.given_eq_zip (Memo.Table.keyed_empty "f") hnames
  cases forall₂_of_formulas hes with
  | cons hread _ =>
      cases hf.symm.trans hread
      by_contra hlong
      have hcovers := Memo.Table.covers_first hes hfirst hnames
      exact hshort ⟨names, hnames, g, hcovers, (not_le.1 hlong).trans_le hn⟩

/-! ### One layer -/

/-- The names of the weights in a row of the first layer. -/
def rowNames (inputs r : Nat) : List String := (List.range inputs).map (Dense.matrixName 0 r)

/-- An output of one linear layer. -/
def rowOutput (inputs r : Nat) : Expr :=
  affineOf (rowNames inputs r) (Dense.biasName 0 r)
    (((List.range inputs).map inputName).map fun x => .symbol x true)

theorem mem_namesAt_of_row {r : Nat} (h : w ∈ Dense.biasName 0 r :: rowNames inputs r) :
    w ∈ namesAt 0 (r + 1) inputs := by
  rcases List.mem_cons.1 h with rfl | h
  · exact mem_namesAt.2 (.inr ⟨r, Nat.lt_succ_self r, rfl⟩)
  · obtain ⟨c, hc, rfl⟩ := List.mem_map.1 h
    exact mem_namesAt.2 (.inl ⟨r, Nat.lt_succ_self r, c, List.mem_range.1 hc, rfl⟩)

theorem nodup_rowNames (inputs r : Nat) : (rowNames inputs r).Nodup :=
  List.nodup_range.map fun _ _ h => (matrixName_inj h).2.2

theorem ne_of_head? {c d : Char} (hx : x.toList.head? = some c) (hy : y.toList.head? = some d)
    (hne : c ≠ d) : x ≠ y := by
  rintro rfl
  exact hne (Option.some.inj (hx.symm.trans hy))

theorem valueAt_rowOutput (inputs r : Nat) (s : String → ℚ) : (rowOutput inputs r).valueAt s =
    affineAt s (rowNames inputs r) (Dense.biasName 0 r) ((List.range inputs).map inputName) := by
  have hinputs : ∀ e ∈ ((List.range inputs).map inputName).map fun x => Expr.symbol x true,
      Polynomial (fun _ => True) e :=
    List.forall_mem_map.2 fun x _ => .symbol true trivial
  have hvalue := (Engine.keepsValues_standard.affine hinputs
    (fun w (_ : w ∈ Dense.biasName 0 r :: rowNames inputs r) => trivial)).2 s
  refine hvalue.trans ?_
  rw [affineAt, List.zipWith_map_right]
  simp only [Expr.valueAt_symbol]

/-- An output has a term for each input and one more. -/
theorem namedTerms_rowOutput (hpos : 0 < inputs) (r : Nat) :
    ∃ ts, rowOutput inputs r = .sum ts ∧ ts.length = inputs + 1 ∧ ∀ t ∈ ts, Expr.NamedTerm t := by
  have hinputs : ∀ x ∈ (List.range inputs).map inputName, x.toList.head? = some 'x' :=
    List.forall_mem_map.2 fun i _ => head?_inputName i
  have hnameable : ∀ x ∈ Dense.biasName 0 r ::
      (rowNames inputs r ++ (List.range inputs).map inputName), Nameable x := by
    intro x hx
    rcases List.mem_append.1 (List.cons_append ▸ hx) with hx | hx
    · exact (sharable_of_mem_namesAt (mem_namesAt_of_row hx)).1
    · obtain ⟨i, -, rfl⟩ := List.mem_map.1 hx
      exact (sharable_inputName i).1
  obtain ⟨ts, hsum, hlength, hterms⟩ := Expr.namedTerms_affine (by simp [rowNames])
    (nodup_rowNames inputs r)
    (fun w hw hx => ne_of_head? (head?_of_mem_namesAt (mem_namesAt_of_row (List.mem_cons_of_mem _ hw)))
      (hinputs w hx) (by decide) rfl)
    (List.ne_nil_of_length_pos (by simpa using hpos)) hnameable
  exact ⟨ts, hsum, by simpa using hlength, hterms⟩

theorem depth_le_of_parse_rowOutput (hpos : 0 < inputs) {r : Nat} {f : Formula}
    (hf : Formula.parse (rowOutput inputs r).text = .ok f) : f.depth ≤ inputs + 2 := by
  obtain ⟨ts, hsum, hlength, hterms⟩ := namedTerms_rowOutput hpos r
  rw [hsum] at hf
  have hdepth := Expr.depth_le_of_parse_sum (List.ne_nil_of_length_pos (by omega)) hterms hf
  omega

/-- The difference of an output and a target has two terms more than there are inputs. -/
theorem isDifference_rowOutput (hpos : 0 < inputs) {r : Nat} {y : String}
    (hsignal : Signal N (rowOutput inputs r)) (hy : ¬N y) (hnameable : Nameable y) :
    Expr.IsDifference (inputs + 2) (Expr.minus (rowOutput inputs r) (.symbol y true)) := by
  obtain ⟨ts, hsum, hlength, hterms⟩ := namedTerms_rowOutput hpos r
  refine ⟨_, Expr.minus_symbol hsignal hy true, ?_, fun t ht => ?_⟩
  · rw [hsum, (Expr.perm_sortParts _).length_eq, List.length_append, Expr.terms, hlength]
    exact le_rfl
  · rw [hsum, Expr.terms] at ht
    rcases List.mem_append.1 (Expr.mem_sortParts.1 ht) with ht | ht
    · exact .named (hterms t ht)
    · exact List.mem_singleton.1 ht ▸ .opposite ⟨y, true, rfl, hnameable⟩

/-- The square of what an output misses has three levels. -/
theorem three_le_depth_of_output (hpos : 0 < inputs) {r i : Nat} {k : ℚ} (hk : k ≠ 0) {f : Formula}
    (hf : Means N f fun s => k * ((rowOutput inputs r).valueAt s - s (targetName i)) ^ 2) :
    3 ≤ f.depth := by
  obtain ⟨n, rfl⟩ := Nat.exists_eq_succ_of_ne_zero hpos.ne'
  simp only [valueAt_rowOutput] at hf
  have hrow : rowNames (n + 1) r = Dense.matrixName 0 r 0 ::
      (List.range n).map fun c => Dense.matrixName 0 r (c + 1) := by
    simp [rowNames, List.range_succ_eq_map]
  have hinputs : (List.range (n + 1)).map inputName =
      inputName 0 :: (List.range n).map fun c => inputName (c + 1) := by
    simp [List.range_succ_eq_map]
  have hmatrix (c : Nat) : Dense.matrixName 0 r c ∉
      [Dense.biasName 0 r, targetName i, inputName 0] := by
    have hhead : (Dense.matrixName 0 r c).toList.head? = some 'w' := by
      rw [toList_matrixName, List.head?_cons]
    simp only [List.mem_cons, List.not_mem_nil, or_false, not_or]
    exact ⟨matrixName_ne_biasName 0 r c 0 r, ne_of_head? hhead (head?_targetName i) (by decide),
      ne_of_head? hhead (head?_inputName 0) (by decide)⟩
  have hbias : (Dense.biasName 0 r).toList.head? = some 'w' := by
    rw [toList_biasName, List.head?_cons]
  have htarget := ne_of_head? hbias (head?_targetName i) (by decide)
  have hinput := ne_of_head? hbias (head?_inputName 0) (by decide)
  have hother := ne_of_head? (head?_targetName i) (head?_inputName 0) (by decide)
  rw [hrow, hinputs] at hf
  refine three_le_depth hk hf ?_ fun v hv => ?_
  · have hfirst := hmatrix 0
    simp_all [eq_comm]
  · obtain ⟨c, -, rfl⟩ := List.mem_map.1 hv
    have hnew := hmatrix (c + 1)
    have hne : Dense.matrixName 0 r (c + 1) ≠ Dense.matrixName 0 r 0 := fun heq =>
      Nat.succ_ne_zero c (matrixName_inj heq).2.2
    simp_all

/-! ### Networks of one layer -/

namespace Linear

variable (h : net.Linear inputs) (hlayers : net.layers = [l])

include h hlayers

theorem predictionAnew_single :
    net.predictionAnew = .ok ((List.range net.outputs).map (rowOutput inputs)) := by
  obtain ⟨d, hkind, hidentity⟩ := h.layers l (hlayers ▸ List.mem_singleton_self l)
  have hseated : l.Seated 0 inputs := (hlayers ▸ h.kept.stacked).1
  have houtputs : net.outputs = l.outputs := by
    rw [outputs_eq, hlayers]
    rfl
  have hinputs : net.inputSymbols = ((List.range inputs).map inputName).map fun x => .symbol x true := by
    rw [inputSymbols, inputNames, h.kept.inputs_eq]
  have haffine := zipWith_affine_eq d.activation.apply (Layer.rows inputs l.outputs l.weights)
    (l.weights.drop (l.outputs * inputs)) net.inputSymbols
  rw [hseated.names_matrix hkind, hseated.names_bias hkind] at haffine
  have hout : l.expressions net.inputSymbols = _ :=
    hseated.expressions_dense hkind (by simp [hinputs])
  rw [haffine, hidentity] at hout
  rw [h.kept.predictionAnew_eq, hlayers, through, hout, houtputs, List.zipWith_map, hinputs]
  simp only [through, List.zipWith_self]
  rfl

/-- The loss has a level for each output and two more. -/
theorem le_depth_of_parse_loss (hmany : 2 ≤ net.outputs) {e : Expr} (he : net.lossAnew = .ok e)
    {f : Formula} (hf : Formula.parse e.text = .ok f) : net.outputs + 2 ≤ f.depth := by
  have hprediction := h.predictionAnew_single hlayers
  obtain ⟨ps, hps, hcount, hsignals⟩ := h.exists_signals
  obtain rfl := Except.ok.inj (hprediction.symm.trans hps)
  obtain ⟨e', he', hpolynomial, -⟩ := h.exists_loss Engine.keepsValues_standard
  obtain rfl := Except.ok.inj (he.symm.trans he')
  have htargets : net.targetNames.length = net.outputs := by simp [targetNames]
  obtain ⟨ts, hts, hlength, -, hterms⟩ := meanSquare_terms (fun p hp => (hsignals p hp).1)
    (fun _ => h.not_named_of_target) net.nodup_targetNames (hcount.trans htargets.symm)
    (htargets ▸ hmany)
  have hloss : e = .sum ts := by
    rw [lossAnew, hprediction] at he
    exact (Except.ok.inj he).symm.trans hts
  rw [hloss] at hpolynomial hf
  have hdepth := Expr.le_depth_of_parse_sum (fun _ hx => (h.sharable_or_target hx).1) hpolynomial
    (fun t ht g hg => ?_) hf (n := 3)
  · omega
  · obtain ⟨q, hq, hvalue⟩ := hterms t ht
    obtain ⟨hp, hy⟩ := List.of_mem_zip hq
    obtain ⟨r, -, hr⟩ := List.mem_map.1 hp
    obtain ⟨i, -, hi⟩ := List.mem_map.1 hy
    simp only [hvalue, ← hr, ← hi] at hg
    have houtputs : (1 / net.targetNames.length : ℚ) ≠ 0 := by
      rw [htargets]
      positivity
    exact three_le_depth_of_output h.inputs_pos houtputs hg

theorem three_le_depth_of_parse_loss (hone : net.outputs = 1) {e : Expr} (he : net.lossAnew = .ok e)
    {f : Formula} (hf : Formula.parse e.text = .ok f) : 3 ≤ f.depth := by
  have hprediction := h.predictionAnew_single hlayers
  obtain ⟨ps, hps, hcount, hsignals⟩ := h.exists_signals
  obtain rfl := Except.ok.inj (hprediction.symm.trans hps)
  obtain ⟨e', he', hpolynomial, -⟩ := h.exists_loss Engine.keepsValues_standard
  obtain rfl := Except.ok.inj (he.symm.trans he')
  have htargets : net.targetNames = [targetName 0] := by simp [targetNames, hone]
  have hpos : 0 < net.targetNames.length := by simp [htargets]
  obtain ⟨-, hvalue⟩ := meanSquare_polynomial Engine.keepsValues_standard
    (N := fun x => net.Named x ∨ x ∈ net.targetNames)
    (fun p hp => ((hsignals p hp).1.mono fun x hx => .inl hx).polynomial) (fun y hy => .inr hy) hpos
  have hloss : e = meanSquare ((List.range net.outputs).map (rowOutput inputs))
      (net.targetNames.map fun y => .symbol y true) := by
    rw [lossAnew, hprediction] at he
    exact (Except.ok.inj he).symm
  have hmeans := ((Expr.parse_text_polynomial (fun _ hx => (h.sharable_or_target hx).1)
    hpolynomial).1 f hf).1
  have hsame : (fun s => e.valueAt s) = fun s : String → ℚ =>
      1 * ((rowOutput inputs 0).valueAt s - s (targetName 0)) ^ 2 := by
    funext s
    rw [hloss, hvalue, hone, htargets]
    simp [meanSquareOver]
  rw [hsame] at hmeans
  exact three_le_depth_of_output h.inputs_pos one_ne_zero hmeans

/-- The loss of several outputs begins with the difference of an output and its target. -/
theorem beginsWith_of_parse_loss (hmany : 2 ≤ net.outputs) {e : Expr} (he : net.lossAnew = .ok e)
    {f : Formula} (hf : Formula.parse e.text = .ok f) : f.BeginsWith (inputs + 2) := by
  have hprediction := h.predictionAnew_single hlayers
  obtain ⟨ps, hps, hcount, hsignals⟩ := h.exists_signals
  obtain rfl := Except.ok.inj (hprediction.symm.trans hps)
  have htargets : net.targetNames.length = net.outputs := by simp [targetNames]
  obtain ⟨ts, hts, hlength, hperm, -⟩ := meanSquare_terms (fun p hp => (hsignals p hp).1)
    (fun _ => h.not_named_of_target) net.nodup_targetNames (hcount.trans htargets.symm)
    (htargets ▸ hmany)
  have hloss : e = .sum ts := by
    rw [lossAnew, hprediction] at he
    exact (Except.ok.inj he).symm.trans hts
  rw [hloss] at hf
  refine Expr.beginsWith_of_parse_squares (N := fun x => net.Named x ∨ x ∈ net.targetNames)
    (htargets ▸ hmany) (fun b hb => ?_) (by omega) (List.ne_nil_of_length_pos (by omega)) hperm hf
  obtain ⟨q, hq, rfl⟩ := List.mem_map.1 hb
  obtain ⟨hp, hy⟩ := List.of_mem_zip hq
  have hsignal := (hsignals _ hp).1
  have hfresh := h.not_named_of_target hy
  obtain ⟨r, -, hr⟩ := List.mem_map.1 hp
  obtain ⟨hpolynomial, -⟩ := Expr.minus_polynomial (N := fun x => net.Named x ∨ x ∈ net.targetNames)
    (hsignal.mono fun x hx => .inl hx).polynomial (.symbol true (.inr hy))
  refine ⟨.power hpolynomial (Expr.isBase_minus hsignal hfresh true) (by decide), ?_⟩
  rw [← hr] at hsignal ⊢
  exact isDifference_rowOutput h.inputs_pos hsignal hfresh (h.sharable_or_target (.inr hy)).1

section Trained

variable (hsquare : inputs ≤ net.outputs) {ev : Memo.Evaluator} (htraining : net.training.1 = .ok ev)

include hsquare htraining

/-- A layer with as many outputs as inputs is not too deep to predict if it can be trained. -/
theorem not_tooDeep_of_training : ¬TooDeep ((List.range net.outputs).map (rowOutput inputs)) := by
  obtain ⟨e, he, -⟩ := h.exists_loss Engine.keepsValues_standard
  rw [h.training_eq he] at htraining
  obtain ⟨names, hnames⟩ := answer_of_compileTexts htraining
  obtain ⟨hread, hshallow⟩ := read_of_answer hnames
  obtain ⟨f, hf⟩ := hread e List.mem_cons_self
  have hlimit : f.depth ≤ Memo.depthLimit :=
    not_lt.1 fun hdeep => hshallow ⟨e, List.mem_cons_self, f, hf, hdeep⟩
  have hlevels : inputs + 2 ≤ Memo.depthLimit := by
    by_cases hmany : 2 ≤ net.outputs
    · have hdepth := h.le_depth_of_parse_loss hlayers hmany he hf
      omega
    · have hone : net.outputs = 1 := le_antisymm (by omega) h.outputs_pos
      have hdepth := h.three_le_depth_of_parse_loss hlayers hone he hf
      omega
  rintro ⟨p, hp, g, hg, hdeep⟩
  obtain ⟨r, -, rfl⟩ := List.mem_map.1 hp
  exact absurd ((depth_le_of_parse_rowOutput h.inputs_pos hg).trans hlevels) (not_le.2 hdeep)

/-- Nor does it take too many brackets. -/
theorem not_tooNested_of_training :
    ¬TooNested ((List.range net.outputs).map (rowOutput inputs)) := by
  have hlevels : inputs + 2 ≤ Code.bracketLimit := by
    by_cases hmany : 2 ≤ net.outputs
    · obtain ⟨e, he, ⟨f, -, hf⟩ | ⟨-, hshort, -⟩⟩ := h.training_cases Engine.keepsValues_standard
      · cases htraining.symm.trans hf
      · rw [h.training_eq he] at htraining
        obtain ⟨names, hnames⟩ := answer_of_compileTexts htraining
        obtain ⟨f, hf⟩ := (read_of_answer hnames).1 e List.mem_cons_self
        exact le_bracketLimit_of_beginsWith hnames hshort hf
          (h.beginsWith_of_parse_loss hlayers hmany he hf)
    · have hlimit : 1 + 2 ≤ Code.bracketLimit := by decide
      omega
  refine not_tooNested_of_depth fun p hp f hf => ?_
  obtain ⟨r, -, rfl⟩ := List.mem_map.1 hp
  exact (depth_le_of_parse_rowOutput h.inputs_pos hf).trans hlevels

end Trained

end Linear

end Gantry.Network
