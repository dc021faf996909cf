import Gantry.Formula.Listing
import Gantry.Proofs.Formula.Evaluation
import Mathlib.Logic.Relation

/-!
Groups leave no trace. Putting a part of a formula into a group changes none of its key, its value
and its listing, and a key is what is left when there are no groups any more; so formulas that
differ in their groups alone are alike in every respect but their text.
-/

namespace Gantry.Formula

variable {a b e : Formula} {ref : String → String}

/-- The head of a formula is not a group. -/
def Bare (e : Formula) : Prop := ∀ inner, e ≠ .group inner

/-! ### Keys have no groups -/

theorem everywhere_bare_key (e : Formula) : e.key.Everywhere Bare := by
  induction e with
  | number n => exact (everywhere_iff _ _).2 ⟨by simp [Bare, key], by simp [key, children]⟩
  | constant c => exact (everywhere_iff _ _).2 ⟨by simp [Bare, key], by simp [key, children]⟩
  | var x => exact (everywhere_iff _ _).2 ⟨by simp [Bare, key], by simp [key, children]⟩
  | group e ih => exact ih
  | unary op e ih =>
      exact (everywhere_iff _ _).2 ⟨by simp [Bare, key], by simpa [key, children] using ih⟩
  | binary op l r ihl ihr =>
      exact (everywhere_iff _ _).2 ⟨by simp [Bare, key], by simpa [key, children] using ⟨ihl, ihr⟩⟩
  | call f args ih =>
      exact (everywhere_iff _ _).2 ⟨by simp [Bare, key], by simpa [key, children] using ih⟩

/-- Formulas without groups are their own keys, and no others are. -/
theorem key_eq_self_iff : e.key = e ↔ e.Everywhere Bare := by
  constructor
  · exact fun h => h ▸ everywhere_bare_key e
  · intro h
    induction e with
    | number n => rfl
    | constant c => rfl
    | var x => rfl
    | group e ih => exact absurd rfl (((everywhere_iff _ _).1 h).1 e)
    | unary op e ih => rw [key, ih (((everywhere_iff _ _).1 h).2 e (by simp [children]))]
    | binary op l r ihl ihr =>
        have hparts := ((everywhere_iff _ _).1 h).2
        rw [key, ihl (hparts l (by simp [children])), ihr (hparts r (by simp [children]))]
    | call f args ih =>
        have hargs := ((everywhere_iff _ _).1 h).2
        rw [key, keyAll_eq, List.map_congr_left fun a ha => ih a ha (hargs a ha), List.map_id']

/-! ### Listings -/

theorem listingAll_congr {as bs : List Formula}
    (h : List.Forall₂ (fun a b => a.listing ref = b.listing ref) as bs) :
    listingAll ref as = listingAll ref bs := by
  induction h with
  | nil => rfl
  | cons hab _ ih => rw [listingAll, listingAll, hab, ih]

@[simp] theorem listing_key (e : Formula) : e.key.listing ref = e.listing ref := by
  induction e with
  | number n => rfl
  | constant c => rfl
  | var x => rfl
  | group e ih => exact ih
  | unary op e ih => rw [key, listing, listing, ih]
  | binary op l r ihl ihr => rw [key, listing, listing, ihl, ihr]
  | call f args ih =>
      rw [key, keyAll_eq, listing, listing, listingAll_congr]
      exact List.forall₂_map_left_iff.2 (List.forall₂_same.2 ih)

theorem listing_eq_of_key_eq (h : a.key = b.key) : a.listing ref = b.listing ref := by
  rw [← listing_key a, h, listing_key]

/-! ### Putting parts into groups -/

/-- One part of a formula, at any place in it, is put into a group. -/
inductive Wraps : Formula → Formula → Prop
  | here (e : Formula) : Wraps e (.group e)
  | inside {a b : Formula} : Wraps a b → Wraps (.group a) (.group b)
  | operand (op : String) {a b : Formula} : Wraps a b → Wraps (.unary op a) (.unary op b)
  | left (op : String) {a b : Formula} (r : Formula) :
      Wraps a b → Wraps (.binary op a r) (.binary op b r)
  | right (op : String) (l : Formula) {a b : Formula} :
      Wraps a b → Wraps (.binary op l a) (.binary op l b)
  | argument (f : String) (before : List Formula) {a b : Formula} (after : List Formula) :
      Wraps a b → Wraps (.call f (before ++ a :: after)) (.call f (before ++ b :: after))

/-- Any parts of a formula are put into any number of groups. -/
def Regroups : Formula → Formula → Prop := Relation.ReflTransGen Wraps

theorem Wraps.key_eq (h : Wraps a b) : b.key = a.key := by
  induction h with
  | here e => rfl
  | inside _ ih => exact ih
  | operand op _ ih => rw [key, key, ih]
  | left op r _ ih => rw [key, key, ih]
  | right op l _ ih => rw [key, key, ih]
  | argument f before after _ ih =>
      rw [key, key, keyAll_eq, keyAll_eq, List.map_append, List.map_append, List.map_cons,
        List.map_cons, ih]

theorem Regroups.key_eq (h : Regroups a b) : b.key = a.key := by
  induction h with
  | refl => rfl
  | tail _ hstep ih => exact hstep.key_eq.trans ih

/-- Arguments are regrouped one after the other. -/
theorem regroups_call (f : String) (before : List Formula) {as bs : List Formula}
    (h : List.Forall₂ Regroups as bs) :
    Regroups (.call f (before ++ as)) (.call f (before ++ bs)) := by
  induction h generalizing before with
  | nil => exact .refl
  | @cons a b as bs hab _ ih =>
      have hfirst : Regroups (.call f (before ++ a :: as)) (.call f (before ++ b :: as)) :=
        hab.lift (fun a => Formula.call f (before ++ a :: as))
          fun _ _ hstep => .argument f before as hstep
      have hrest := ih (before ++ [b])
      rw [List.append_assoc, List.append_assoc] at hrest
      exact hfirst.trans hrest

/-- Every formula is its key with parts of it put into groups. -/
theorem regroups_key (e : Formula) : Regroups e.key e := by
  induction e with
  | number n => exact .refl
  | constant c => exact .refl
  | var x => exact .refl
  | group e ih => exact ih.tail (.here e)
  | unary op e ih => exact ih.lift (Formula.unary op) fun _ _ hstep => .operand op hstep
  | binary op l r ihl ihr =>
      have hleft : Regroups (.binary op l.key r.key) (.binary op l r.key) :=
        ihl.lift (Formula.binary op · r.key) fun _ _ hstep => .left op r.key hstep
      exact hleft.trans (ihr.lift (Formula.binary op l) fun _ _ hstep => .right op l hstep)
  | call f args ih =>
      rw [key, keyAll_eq]
      exact regroups_call f [] (List.forall₂_map_left_iff.2 (List.forall₂_same.2 ih))

/-- The key of a formula is the formula without its groups. It has the variables, the values and
failures, and the listings of the formula, and putting any parts of the formula into groups
changes none of its key, its values and its listings. All formulas of one key arise in this way. -/
theorem grouping_transparent (e : Formula) :
    e.key.Everywhere Bare ∧ e.key.key = e.key ∧ Regroups e.key e ∧
      e.key.variableNames = e.variableNames ∧
      (∀ s : Scope, e.key.evaluate s = e.evaluate s) ∧
      (∀ ref : String → String, e.key.listing ref = e.listing ref) ∧
      ∀ d, Regroups e d → d.key = e.key ∧ (∀ s : Scope, d.evaluate s = e.evaluate s) ∧
        ∀ ref : String → String, d.listing ref = e.listing ref := by
  refine ⟨everywhere_bare_key e, key_key e, regroups_key e, ?_, fun s => evaluateIn_key e,
    fun ref => listing_key e, fun d hd => ?_⟩
  · rw [variableNames, variableNames, occurrences_key]
  · have hkey : d.key = e.key := hd.key_eq
    exact ⟨hkey, fun s => evaluate_eq_of_key_eq hkey, fun ref => listing_eq_of_key_eq hkey⟩

/-- `atan2(x + 1, -y)`. -/
def bearing : Formula :=
  .call "atan2" [.binary "+" (.variable "x") (.number (.int 1)), .unary "-" (.variable "y")]

/-- `(atan2((x) + 1, -((y))))`. -/
def groupedBearing : Formula :=
  .group (.call "atan2" [.binary "+" (.group (.variable "x")) (.number (.int 1)),
    .unary "-" (.group (.group (.variable "y")))])

theorem regroups_bearing : Regroups bearing groupedBearing := by
  have hfirst : Regroups (.binary "+" (.variable "x") (.number (.int 1)))
      (.binary "+" (.group (.variable "x")) (.number (.int 1))) :=
    .single (.left "+" _ (.here _))
  have hsecond : Regroups (.unary "-" (.variable "y"))
      (.unary "-" (.group (.group (.variable "y")))) :=
    .tail (.single (.operand "-" (.here _))) (.operand "-" (.here _))
  exact (regroups_call "atan2" [] (.cons hfirst (.cons hsecond .nil))).tail (.here _)

theorem grouping_transparent_bearing :
    Regroups bearing groupedBearing ∧ groupedBearing.key = bearing ∧
      (∀ s : Scope, groupedBearing.evaluate s = bearing.evaluate s) ∧
      ∀ ref : String → String, groupedBearing.listing ref = bearing.listing ref := by
  obtain ⟨hkey, hvalue, hlisting⟩ :=
    (grouping_transparent bearing).2.2.2.2.2.2 groupedBearing regroups_bearing
  exact ⟨regroups_bearing, hkey, hvalue, hlisting⟩

end Gantry.Formula
