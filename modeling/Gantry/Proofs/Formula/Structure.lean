import Gantry.Formula.Basic
import Mathlib.Data.List.Forall2

/-!
The shape of formulas. An induction principle with the arguments of calls in
view, the list companions of the recursive definitions as list operations, and
the two ways of speaking about a tree that later proofs use: rebuilding a node
around other parts, and properties that hold of every part.
-/

namespace Gantry.Formula

@[induction_eliminator]
theorem induction {motive : Formula → Prop} (number : ∀ n, motive (.number n))
    (constant : ∀ c, motive (.constant c)) (var : ∀ x, motive (.variable x))
    (group : ∀ e, motive e → motive (.group e))
    (unary : ∀ op e, motive e → motive (.unary op e))
    (binary : ∀ op l r, motive l → motive r → motive (.binary op l r))
    (call : ∀ f args, (∀ a ∈ args, motive a) → motive (.call f args)) (e : Formula) : motive e :=
  @Formula.rec motive (fun es => ∀ a ∈ es, motive a) number constant var group unary binary call
    (by simp) (fun _ _ h hs => List.forall_mem_cons.2 ⟨h, hs⟩) e

@[cases_eliminator]
theorem split {motive : Formula → Prop} (number : ∀ n, motive (.number n))
    (constant : ∀ c, motive (.constant c)) (var : ∀ x, motive (.variable x))
    (group : ∀ e, motive (.group e)) (unary : ∀ op e, motive (.unary op e))
    (binary : ∀ op l r, motive (.binary op l r)) (call : ∀ f args, motive (.call f args))
    (e : Formula) : motive e :=
  induction number constant var (fun e _ => group e) (fun op e _ => unary op e)
    (fun op l r _ _ => binary op l r) (fun f args _ => call f args) e

/-! ### List companions -/

@[simp] theorem keyAll_eq (es : List Formula) : keyAll es = es.map key := by
  induction es with
  | nil => rfl
  | cons e es ih => rw [keyAll, ih, List.map_cons]

@[simp] theorem walkAll_eq (es : List Formula) : walkAll es = es.flatMap walk := by
  induction es with
  | nil => rfl
  | cons e es ih => rw [walkAll, ih, List.flatMap_cons]

@[simp] theorem occurrencesAll_eq (es : List Formula) :
    occurrencesAll es = es.flatMap occurrences := by
  induction es with
  | nil => rfl
  | cons e es ih => rw [occurrencesAll, ih, List.flatMap_cons]

theorem mem_occurrences_call {f x : String} {args : List Formula} :
    x ∈ (call f args).occurrences ↔ ∃ a ∈ args, x ∈ a.occurrences := by
  rw [occurrences, occurrencesAll_eq, List.mem_flatMap]

theorem sameAll_iff (as bs : List Formula) :
    sameAll as bs = true ↔ List.Forall₂ (fun a b => a.same b = true) as bs := by
  induction as generalizing bs with
  | nil => cases bs <;> simp [sameAll]
  | cons a as ih => cases bs <;> simp [sameAll, ih]

theorem forall₂_congr_of_mem {α β : Type} {R S : α → β → Prop} {as : List α} {bs : List β}
    (h : ∀ a ∈ as, ∀ b, R a b ↔ S a b) : List.Forall₂ R as bs ↔ List.Forall₂ S as bs := by
  induction as generalizing bs with
  | nil => simp only [List.forall₂_nil_left_iff]
  | cons a as ih =>
      have has (bs : List β) : List.Forall₂ R as bs ↔ List.Forall₂ S as bs :=
        ih fun a ha => h a (List.mem_cons_of_mem _ ha)
      simp only [List.forall₂_cons_left_iff, h a List.mem_cons_self, has]

/-! ### Parts -/

/-- The formula with other parts in the place of its own. -/
def withChildren : Formula → List Formula → Formula
  | .group _, [a] => .group a
  | .unary op _, [a] => .unary op a
  | .binary op _ _, [a, b] => .binary op a b
  | .call f _, args => .call f args
  | e, _ => e

/-- A node and as many other parts as it has, by the kind of the node. -/
theorem withChildren_cases {motive : Formula → List Formula → Formula → Prop}
    (group : ∀ a b, motive (.group a) [b] (.group b))
    (unary : ∀ op a b, motive (.unary op a) [b] (.unary op b))
    (binary : ∀ op a b c d, motive (.binary op a b) [c, d] (.binary op c d))
    (call : ∀ f as bs, motive (.call f as) bs (.call f bs)) {e : Formula} {parts : List Formula}
    (h : e.isTrivial = false) (hparts : parts.length = e.children.length) :
    motive e parts (e.withChildren parts) := by
  cases e with
  | number n => cases h
  | constant c => cases h
  | var x => cases h
  | group a =>
      obtain ⟨b, rfl⟩ := List.length_eq_one_iff.1 hparts
      exact group a b
  | unary op a =>
      obtain ⟨b, rfl⟩ := List.length_eq_one_iff.1 hparts
      exact unary op a b
  | binary op a b =>
      obtain ⟨c, d, rfl⟩ := List.length_eq_two.1 hparts
      exact binary op a b c d
  | call f args => exact call f args parts

theorem children_withChildren {e : Formula} {parts : List Formula} (h : e.isTrivial = false)
    (hparts : parts.length = e.children.length) : (e.withChildren parts).children = parts :=
  withChildren_cases (motive := fun _ parts e' => e'.children = parts) (fun _ _ => rfl)
    (fun _ _ _ => rfl) (fun _ _ _ _ _ => rfl) (fun _ _ _ => rfl) h hparts

theorem isTrivial_withChildren {e : Formula} {parts : List Formula} (h : e.isTrivial = false)
    (hparts : parts.length = e.children.length) : (e.withChildren parts).isTrivial = false :=
  withChildren_cases (motive := fun _ _ e' => e'.isTrivial = false) (fun _ _ => rfl)
    (fun _ _ _ => rfl) (fun _ _ _ _ _ => rfl) (fun _ _ _ => rfl) h hparts

/-- A property of every part of a formula, the formula itself included. -/
def Everywhere (p : Formula → Prop) (e : Formula) : Prop := ∀ part ∈ e.walk, p part

theorem mem_walk_iff (part e : Formula) :
    part ∈ e.walk ↔ part = e ∨ ∃ c ∈ e.children, part ∈ c.walk := by
  cases e <;> simp [walk, children, or_comm, or_left_comm]

theorem everywhere_iff (p : Formula → Prop) (e : Formula) :
    e.Everywhere p ↔ p e ∧ ∀ c ∈ e.children, c.Everywhere p := by
  simp only [Everywhere, mem_walk_iff _ e]
  constructor
  · intro h
    exact ⟨h e (.inl rfl), fun c hc part hpart => h part (.inr ⟨c, hc, hpart⟩)⟩
  · rintro ⟨he, hc⟩ part (rfl | ⟨c, hmem, hpart⟩)
    · exact he
    · exact hc c hmem part hpart

/-- What holds of a formula if it holds of its parts holds of all formulas. -/
theorem children_induction {motive : Formula → Prop}
    (node : ∀ e, (∀ c ∈ e.children, motive c) → motive e) (e : Formula) : motive e := by
  induction e with
  | number n => exact node _ (by simp [children])
  | constant c => exact node _ (by simp [children])
  | var x => exact node _ (by simp [children])
  | group e ih => exact node _ (by simpa [children] using ih)
  | unary op e ih => exact node _ (by simpa [children] using ih)
  | binary op l r ihl ihr => exact node _ (by simpa [children] using ⟨ihl, ihr⟩)
  | call f args ih => exact node _ ih

theorem mem_occurrences_iff (x : String) (e : Formula) :
    x ∈ e.occurrences ↔ .variable x ∈ e.walk := by
  induction e with
  | number n => simp [occurrences, walk]
  | constant c => simp [occurrences, walk]
  | var y => simp [occurrences, walk]
  | group e ih => simp [occurrences, walk, ih]
  | unary op e ih => simp [occurrences, walk, ih]
  | binary op l r ihl ihr => simp [occurrences, walk, ihl, ihr]
  | call f args ih =>
      simp only [mem_occurrences_call, walk, walkAll_eq, List.mem_flatMap, List.mem_append,
        List.mem_singleton, reduceCtorEq, or_false]
      exact exists_congr fun a => and_congr_right fun ha => ih a ha

theorem mem_occurrences_iff_children {e : Formula} (h : e.isTrivial = false) (x : String) :
    x ∈ e.occurrences ↔ ∃ c ∈ e.children, x ∈ c.occurrences := by
  cases e <;> simp_all [isTrivial, occurrences, children]

theorem mem_occurrences_withChildren {e : Formula} {parts : List Formula}
    (h : e.isTrivial = false) (hparts : parts.length = e.children.length) (x : String) :
    x ∈ (e.withChildren parts).occurrences ↔ ∃ part ∈ parts, x ∈ part.occurrences := by
  rw [mem_occurrences_iff_children (isTrivial_withChildren h hparts),
    children_withChildren h hparts]

/-! ### Depth -/

theorem depthAll_le_iff (es : List Formula) (n : Nat) :
    depthAll es ≤ n ↔ ∀ e ∈ es, e.depth ≤ n := by
  induction es with
  | nil => simp [depthAll]
  | cons e es ih =>
      rw [depthAll, List.forall_mem_cons, ← ih]
      exact Nat.max_le

theorem depth_pos (e : Formula) : 0 < e.depth := by
  cases e <;> simp [depth]

theorem depth_le_succ_iff (e : Formula) (n : Nat) :
    e.depth ≤ n + 1 ↔ ∀ c ∈ e.children, c.depth ≤ n := by
  cases e with
  | number m => simp [depth, children]
  | constant c => simp [depth, children]
  | var x => simp [depth, children]
  | group e => simp [depth, children]
  | unary op e => simp [depth, children]
  | binary op l r =>
      simp only [depth, children, Nat.add_le_add_iff_right, List.forall_mem_cons,
        List.not_mem_nil, false_imp_iff, implies_true, and_true]
      exact Nat.max_le
  | call f args => simp [depth, children, depthAll_le_iff]

/-! ### Literals -/

mutual

/-- The literals of a formula, left to right. -/
def literals : Formula → List Number
  | .number n => [n]
  | .constant _ | .variable _ => []
  | .group e => e.literals
  | .unary _ e => e.literals
  | .binary _ l r => l.literals ++ r.literals
  | .call _ args => literalsAll args

def literalsAll : List Formula → List Number
  | [] => []
  | e :: es => e.literals ++ literalsAll es

end

@[simp] theorem literalsAll_eq (es : List Formula) : literalsAll es = es.flatMap literals := by
  induction es with
  | nil => rfl
  | cons e es ih => rw [literalsAll, ih, List.flatMap_cons]

theorem mem_literals_iff (n : Number) (e : Formula) : n ∈ e.literals ↔ .number n ∈ e.walk := by
  induction e with
  | number m => simp [literals, walk]
  | constant c => simp [literals, walk]
  | var x => simp [literals, walk]
  | group e ih => simp [literals, walk, ih]
  | unary op e ih => simp [literals, walk, ih]
  | binary op l r ihl ihr => simp [literals, walk, ihl, ihr]
  | call f args ih =>
      simp only [literals, literalsAll_eq, List.mem_flatMap, walk, walkAll_eq,
        List.mem_append, List.mem_singleton, reduceCtorEq, or_false]
      exact exists_congr fun a => and_congr_right fun ha => ih a ha

theorem mem_literals_iff_children {e : Formula} (h : e.isTrivial = false) (n : Number) :
    n ∈ e.literals ↔ ∃ c ∈ e.children, n ∈ c.literals := by
  cases e <;> simp_all [isTrivial, literals, children]

theorem mem_literals_withChildren {e : Formula} {parts : List Formula} (h : e.isTrivial = false)
    (hparts : parts.length = e.children.length) (n : Number) :
    n ∈ (e.withChildren parts).literals ↔ ∃ part ∈ parts, n ∈ part.literals := by
  rw [mem_literals_iff_children (isTrivial_withChildren h hparts), children_withChildren h hparts]

/-! ### Variables in order -/

theorem mem_dedupSorted (x : String) (xs : List String) : x ∈ dedupSorted xs ↔ x ∈ xs := by
  fun_induction dedupSorted xs with
  | case1 b rest ih => simp [ih]
  | case2 a b rest hne ih => simp [ih]
  | case3 xs => rfl

@[simp] theorem mem_variableNames (x : String) (e : Formula) :
    x ∈ e.variableNames ↔ x ∈ e.occurrences := by
  rw [variableNames, mem_dedupSorted, List.mem_mergeSort]

end Gantry.Formula
