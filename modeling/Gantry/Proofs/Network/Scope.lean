import Mathlib.Data.List.Nodup
import Gantry.Network.Evaluation
import Gantry.Proofs.Memo.Arithmetic
import Gantry.Proofs.Network.Names

/-!
The scope that expressions of a network are evaluated in, with the arithmetic
left open. With machine numbers it is the scope that predictions are made in.
No two of its names are the same, so it holds what it has been given for each,
and a weight can be changed by changing what its name is bound to.
-/

namespace Gantry.Network

variable {α : Type} {net : Network} {names : List String} {values : List α}
  {s : String → Option α} {x : String} {w xs ts : List α}

/-- Binds names to values, one after the other. -/
def bindOver (names : List String) (values : List α) (s : String → Option α) :
    String → Option α :=
  (names.zip values).foldl (fun s p => Function.update s p.1 (some p.2)) s

/-- The scope of a network, given the values of weights, inputs and targets. -/
def scopeOver (net : Network) (w xs ts : List α) : String → Option α :=
  bindOver net.targetNames ts <| bindOver net.inputNames xs <|
    bindOver net.weightNames w fun _ => none

/-! ### Machine numbers -/

theorem bindOver_bindAll (names : List String) (values : List Operand) (s : Scope) :
    bindOver names values (fun x => s[x]?) = fun x => (bindAll names values s)[x]? := by
  rw [bindOver, bindAll]
  induction names.zip values generalizing s with
  | nil => rfl
  | cons p ps ih =>
      have hinsert : Function.update (fun x => s[x]?) p.1 (some p.2) =
          fun x => (s.insert p.1 p.2)[x]? := by
        funext x
        rw [Std.HashMap.getElem?_insert, Function.update_apply]
        grind
      rw [List.foldl_cons, List.foldl_cons, hinsert]
      exact ih (s.insert p.1 p.2)

/-- With machine numbers this is the scope that a network is evaluated in. -/
theorem scopeOver_scopeAt (net : Network) (weights : List Binary64) (inputs targets : List Value) :
    net.scopeOver (weights.map fun w => some (.real w)) (inputs.map Value.operand)
        (targets.map Value.operand) = fun x => (net.scopeAt weights inputs targets)[x]? := by
  have hnone : (fun _ => none : String → Option Operand) = fun x => (({} : Scope)[x]?) := by
    funext x
    simp
  rw [scopeOver, hnone, bindOver_bindAll, bindOver_bindAll, bindOver_bindAll]
  rfl

/-! ### What is bound -/

theorem bindOver_of_notMem (h : x ∉ names) : bindOver names values s x = s x := by
  induction names generalizing values s with
  | nil => rfl
  | cons y names ih =>
      rw [List.mem_cons, not_or] at h
      cases values with
      | nil => rfl
      | cons v values => exact (ih h.2).trans (Function.update_of_ne h.1 _ _)

theorem map_bindOver (hnames : names.Nodup) (hlength : values.length = names.length) :
    names.map (bindOver names values s) = values.map some := by
  induction names generalizing values s with
  | nil => rw [List.length_eq_zero_iff.1 hlength, List.map_nil, List.map_nil]
  | cons y names ih =>
      rw [List.nodup_cons] at hnames
      cases values with
      | nil => cases hlength
      | cons v values =>
          have hfirst : bindOver (y :: names) (v :: values) s y = some v :=
            (bindOver_of_notMem hnames.1).trans (Function.update_self _ _ _)
          rw [List.map_cons, List.map_cons, hfirst]
          exact congrArg _ (ih hnames.2 (Nat.succ_inj.1 hlength))

theorem nodup_inputNames (net : Network) : net.inputNames.Nodup :=
  List.nodup_range.map fun _ _ => inputName_inj

theorem nodup_targetNames (net : Network) : net.targetNames.Nodup :=
  List.nodup_range.map fun _ _ => targetName_inj

theorem head?_of_mem_inputNames (h : x ∈ net.inputNames) : x.toList.head? = some 'x' := by
  obtain ⟨i, -, rfl⟩ := List.mem_map.1 h
  exact head?_inputName i

theorem head?_of_mem_targetNames (h : x ∈ net.targetNames) : x.toList.head? = some 'y' := by
  obtain ⟨i, -, rfl⟩ := List.mem_map.1 h
  exact head?_targetName i

/-- Networks whose weights have names of their own. -/
structure WellNamed (net : Network) : Prop where
  distinct : net.weightNames.Nodup
  head : ∀ x ∈ net.weightNames, x.toList.head? = some 'w'

theorem notMem_inputNames_of_target (h : x ∈ net.targetNames) : x ∉ net.inputNames := fun hmem => by
  have hhead := head?_of_mem_targetNames h
  simp [head?_of_mem_inputNames hmem] at hhead

theorem WellNamed.notMem (h : net.WellNamed) (hx : x ∈ net.weightNames) :
    x ∉ net.inputNames ∧ x ∉ net.targetNames := by
  have hhead := h.head x hx
  refine ⟨fun hmem => ?_, fun hmem => ?_⟩
  · simp [head?_of_mem_inputNames hmem] at hhead
  · simp [head?_of_mem_targetNames hmem] at hhead

theorem WellNamed.map_weightNames (h : net.WellNamed) (hw : w.length = net.weights.length) :
    net.weightNames.map (net.scopeOver w xs ts) = w.map some := by
  have hlength : w.length = net.weightNames.length := by simpa [weightNames] using hw
  rw [← map_bindOver (s := fun _ => none) h.distinct hlength]
  refine List.map_congr_left fun x hx => ?_
  rw [scopeOver, bindOver_of_notMem (h.notMem hx).2, bindOver_of_notMem (h.notMem hx).1]

theorem map_inputNames (net : Network) (hxs : xs.length = net.inputs) :
    net.inputNames.map (net.scopeOver w xs ts) = xs.map some := by
  have hlength : xs.length = net.inputNames.length := by simpa [inputNames] using hxs
  rw [← map_bindOver (s := bindOver net.weightNames w fun _ => none) net.nodup_inputNames hlength]
  refine List.map_congr_left fun x hx => ?_
  rw [scopeOver, bindOver_of_notMem fun hmem => notMem_inputNames_of_target hmem hx]

theorem map_targetNames (net : Network) (hts : ts.length = net.outputs) :
    net.targetNames.map (net.scopeOver w xs ts) = ts.map some :=
  map_bindOver net.nodup_targetNames (by simpa [targetNames] using hts)

end Gantry.Network
