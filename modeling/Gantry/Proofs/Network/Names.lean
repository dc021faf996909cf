import Mathlib.Data.List.Nodup
import Gantry.Network.Evaluation

/-!
The names a network hands out. They are letters and decimal numerals in turn,
so a name can be taken apart again in one way only, and names of weights,
inputs, targets and memo entries are told apart by their first letter.
-/

namespace Gantry.Network

open Gantry.Network.Dense (matrixName biasName matrixNames biasNames)

/-! ### Numerals in names -/

theorem toList_numeral (n : Nat) : (toString n).toList = Nat.toDigits 10 n := by
  rw [Nat.toString_eq_ofList_toDigits, String.toList_ofList]

/-- A numeral ends where something else than a digit begins. -/
theorem takeWhile_numeral_append (n : Nat) {cs : List Char}
    (hcs : ∀ c ∈ cs.head?, c.isDigit = false) :
    ((toString n).toList ++ cs).takeWhile Char.isDigit = (toString n).toList := by
  have hdigits : ∀ c ∈ (toString n).toList, c.isDigit = true := by
    rw [toList_numeral]
    exact fun c hc => Nat.isDigit_of_mem_toDigits (by decide) (by decide) hc
  have hrest : cs.takeWhile Char.isDigit = [] := by
    cases cs with
    | nil => rfl
    | cons c cs => exact List.takeWhile_cons_of_neg (by simp [hcs c rfl])
  rw [List.takeWhile_append_of_pos hdigits, hrest, List.append_nil]

theorem numeral_inj {m n : Nat} (h : (toString m).toList = (toString n).toList) : m = n := by
  rw [toList_numeral, toList_numeral] at h
  calc m = Nat.ofDigitChars 10 (Nat.toDigits 10 m) 0 := Nat.ofDigitChars_ten_toDigits.symm
    _ = n := by rw [h, Nat.ofDigitChars_ten_toDigits]

theorem numeral_append_inj {m n : Nat} {cs ds : List Char}
    (hcs : ∀ c ∈ cs.head?, c.isDigit = false) (hds : ∀ d ∈ ds.head?, d.isDigit = false)
    (h : (toString m).toList ++ cs = (toString n).toList ++ ds) : m = n ∧ cs = ds := by
  have hnumerals : (toString m).toList = (toString n).toList := by
    rw [← takeWhile_numeral_append m hcs, h, takeWhile_numeral_append n hds]
  exact ⟨numeral_inj hnumerals, List.append_cancel_left (hnumerals ▸ h)⟩

/-! ### Names of weights -/

theorem toList_matrixName (i r c : Nat) :
    (matrixName i r c).toList =
      'w' :: ((toString i).toList ++ 'r' :: ((toString r).toList ++ 'c' :: (toString c).toList)) := by
  simp [matrixName]

theorem toList_biasName (i r : Nat) :
    (biasName i r).toList = 'w' :: ((toString i).toList ++ 'b' :: (toString r).toList) := by
  simp [biasName]

theorem matrixName_inj {i r c i' r' c' : Nat} (h : matrixName i r c = matrixName i' r' c') :
    i = i' ∧ r = r' ∧ c = c' := by
  have hlist := congrArg String.toList h
  rw [toList_matrixName, toList_matrixName, List.cons.injEq] at hlist
  obtain ⟨hi, hrest⟩ := numeral_append_inj (by simp) (by simp) hlist.2
  rw [List.cons.injEq] at hrest
  obtain ⟨hr, hrest⟩ := numeral_append_inj (by simp) (by simp) hrest.2
  rw [List.cons.injEq] at hrest
  exact ⟨hi, hr, numeral_inj hrest.2⟩

theorem biasName_inj {i r i' r' : Nat} (h : biasName i r = biasName i' r') : i = i' ∧ r = r' := by
  have hlist := congrArg String.toList h
  rw [toList_biasName, toList_biasName, List.cons.injEq] at hlist
  obtain ⟨hi, hrest⟩ := numeral_append_inj (by simp) (by simp) hlist.2
  rw [List.cons.injEq] at hrest
  exact ⟨hi, numeral_inj hrest.2⟩

theorem matrixName_ne_biasName (i r c i' r' : Nat) : matrixName i r c ≠ biasName i' r' := by
  intro h
  have hlist := congrArg String.toList h
  rw [toList_matrixName, toList_biasName, List.cons.injEq] at hlist
  obtain ⟨-, hrest⟩ := numeral_append_inj (by simp) (by simp) hlist.2
  simp at hrest

/-- The names of a layer's weights: its matrix row by row, and its bias. -/
def namesAt (index outputs inputs : Nat) : List String :=
  matrixNames index outputs inputs ++ biasNames index outputs

theorem mem_namesAt {index outputs inputs : Nat} {name : String} :
    name ∈ namesAt index outputs inputs ↔
      (∃ r < outputs, ∃ c < inputs, matrixName index r c = name) ∨
        ∃ r < outputs, biasName index r = name := by
  simp [namesAt, matrixNames, biasNames]

theorem length_matrixNames (index outputs inputs : Nat) :
    (matrixNames index outputs inputs).length = outputs * inputs := by
  simp [matrixNames, List.length_flatMap, List.map_const']

@[simp] theorem length_biasNames (index outputs : Nat) :
    (biasNames index outputs).length = outputs := by
  simp [biasNames]

theorem nodup_namesAt (index outputs inputs : Nat) : (namesAt index outputs inputs).Nodup := by
  refine List.nodup_append.2 ⟨?_, ?_, ?_⟩
  · refine List.nodup_flatMap.2 ⟨fun r _ => ?_, ?_⟩
    · exact List.nodup_range.map fun c c' h => (matrixName_inj h).2.2
    · refine List.nodup_range.imp fun {r r'} hne => ?_
      simp only [Function.onFun, List.disjoint_left, List.mem_map]
      rintro _ ⟨c, -, rfl⟩ ⟨c', -, hc'⟩
      exact hne (matrixName_inj hc').2.1.symm
  · exact List.nodup_range.map fun r r' h => (biasName_inj h).2
  · simp only [matrixNames, biasNames, List.mem_flatMap, List.mem_map]
    rintro _ ⟨r, -, c, -, rfl⟩ _ ⟨r', -, rfl⟩
    exact matrixName_ne_biasName _ _ _ _ _

/-- Weights of different layers have different names. -/
theorem disjoint_namesAt {index index' : Nat} (h : index ≠ index') (outputs inputs outputs' inputs' : Nat) :
    List.Disjoint (namesAt index outputs inputs) (namesAt index' outputs' inputs') := by
  rw [List.disjoint_left]
  intro name hname hname'
  rw [mem_namesAt] at hname hname'
  obtain ⟨r, -, c, -, rfl⟩ | ⟨r, -, rfl⟩ := hname
  · obtain ⟨r', -, c', -, heq⟩ | ⟨r', -, heq⟩ := hname'
    · exact h (matrixName_inj heq).1.symm
    · exact matrixName_ne_biasName _ _ _ _ _ heq.symm
  · obtain ⟨r', -, c', -, heq⟩ | ⟨r', -, heq⟩ := hname'
    · exact matrixName_ne_biasName _ _ _ _ _ heq
    · exact h (biasName_inj heq).1.symm

/-! ### Names of other things -/

theorem inputName_inj {i j : Nat} (h : inputName i = inputName j) : i = j :=
  numeral_inj (congrArg String.toList ((String.append_right_inj "x").1 h))

theorem targetName_inj {i j : Nat} (h : targetName i = targetName j) : i = j :=
  numeral_inj (congrArg String.toList ((String.append_right_inj "yt").1 h))

/-- The name of an entry of the memo table in which formulas of networks are shared. -/
def memoName (i : Nat) : String := (Memo.Table.empty "f").name i

theorem head?_inputName (i : Nat) : (inputName i).toList.head? = some 'x' := by
  simp [inputName]

theorem head?_targetName (i : Nat) : (targetName i).toList.head? = some 'y' := by
  simp [targetName]

theorem head?_memoName (i : Nat) : (memoName i).toList.head? = some 'f' := by
  simp [memoName, Memo.Table.name, Memo.Table.empty]

theorem head?_of_mem_namesAt {index outputs inputs : Nat} {name : String}
    (h : name ∈ namesAt index outputs inputs) : name.toList.head? = some 'w' := by
  obtain ⟨r, -, c, -, rfl⟩ | ⟨r, -, rfl⟩ := mem_namesAt.1 h
  · rw [toList_matrixName, List.head?_cons]
  · rw [toList_biasName, List.head?_cons]

end Gantry.Network
