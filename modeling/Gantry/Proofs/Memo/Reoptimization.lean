import Gantry.Proofs.Memo.History
import Gantry.Proofs.Memo.Reduction

/-!
Optimizing a formula once more. While a formula is condensed the table grows, so
an operator node that was met when its key was unknown stays in its place even
if a group or a call further on makes an entry of it. The second time such a
node is replaced. The formula is therefore given its name again, by the table
as it is, just when no entry that the name stands for has a known part.
-/

namespace Gantry.Memo.Table

variable {t u T : Table} {x : String} {e r : Formula}

/-! ### The second pass -/

theorem condense_of_parts {budget : Nat} {parts : List Formula} (htriv : e.isTrivial = false)
    (h : List.Forall₂ (fun part c => T.condense budget c = (some part, T)) parts e.children) :
    T.condense (budget + 1) e =
      (some (T.share (e.withChildren parts)).1, (T.share (e.withChildren parts)).2) := by
  have hall {parts es : List Formula}
      (h : List.Forall₂ (fun part c => T.condense budget c = (some part, T)) parts es) :
      T.condenseAll budget es = (some parts, T) := by
    induction h with
    | nil => rw [condenseAll]
    | cons hhead _ ih => simp only [condenseAll_cons, hhead, ih]
  rw [condense_succ, htriv, hall h]
  rfl

/-- What a later table makes of a node that was shared: the node has stayed, or
the later table knows it by the name that was put in its place. -/
theorem share_later (hu : u.Keyed) (hT : T.Keyed) {node : Formula}
    (hgrows : (u.share node).2.Extends T) :
    (u.share node).1 = node ∧ u.Condensed node ∨
      ∃ x, (u.share node).1 = reference node x ∧ node.key.isTrivial = false ∧
        T.find? node.key = some x ∧ (T.Steady (reference node x) → T.Steady node) := by
  -- Found or added, the node has the key of an entry, and the entry stays.
  have hknown {i : Nat} {a : Formula} (ha : T.entries[i]? = some a)
      (hsame : a.sameKey node = true) :
      T.find? node.key = some (T.name i) ∧
        (T.Steady (reference node (T.name i)) → T.Steady node) :=
    ⟨(find?_eq_some_iff hT).2 ⟨i, a, ha, hsame, rfl⟩,
      steady_of_reference (entry?_name ha) hsame⟩
  obtain ⟨h, hkept⟩ | ⟨i, a, ha, hsame, htriv, -, h⟩ | ⟨htriv, -, -, h⟩ := share_cases hu node
  · exact .inl ⟨congrArg Prod.fst h, hkept⟩
  · rw [h] at hgrows ⊢
    exact .inr ⟨u.name i, rfl, htriv, hgrows.name i ▸ hknown (hgrows.entry ha) hsame⟩
  · rw [h] at hgrows ⊢
    have hadded := hgrows.entry (getElem?_memoize_size u node)
    exact .inr ⟨u.name u.size, rfl, htriv, hgrows.name u.size ▸ hknown hadded (Formula.sameKey_self node)⟩

theorem share_reference (T : Table) (node : Formula) (x : String) :
    T.share (reference node x) = (reference node x, T) := by
  refine share_of_isTrivial ?_
  rw [key_reference]
  rfl

/-- A formula, what it was condensed to and the table after that: a later table,
for which the result is steady, condenses the formula to the same again, up to
the name that the result itself has got. -/
def Repeats (T : Table) (e r : Formula) (u : Table) : Prop :=
  u.Condensed r ∧
    (u.Extends T → T.Steady r → ∀ budget, e.depth ≤ budget →
      T.condense budget e = (some (T.share r).1, T))

/-- A node other than a group, for a table in which it is steady. -/
theorem condense_steady_node {budget : Nat} {parts : List Formula} (htriv : e.isTrivial = false)
    (hgroup : ∀ a, e ≠ .group a) (h : T.Steady (e.withChildren parts))
    (hparts : List.Forall₂ (fun part c => (∃ v : Table, v.Condensed part) ∧
      (T.Steady part → T.condense budget c = (some (T.share part).1, T))) parts e.children) :
    T.condense (budget + 1) e =
      (some (T.share (e.withChildren parts)).1, (T.share (e.withChildren parts)).2) := by
  refine condense_of_parts htriv ?_
  have hmem := (List.forall₂_and_left parts e.children).2 ⟨fun _ hpart => hpart, hparts⟩
  refine hmem.imp ?_
  rintro part c ⟨hpart, ⟨v, hv⟩, hcondense⟩
  obtain ⟨hsteady, hshare⟩ := steady_part htriv hgroup hparts.length_eq h hpart hv
  rw [hcondense hsteady, hshare]

/-- A group, for a table in which what has become of it is steady. -/
theorem condense_steady_group {c part : Formula} {v : Table} {budget : Nat} (hu : u.Keyed)
    (hT : T.Keyed)
    (hgrows : (u.share (.group part)).2.Extends T) (hsteady : T.Steady (u.share (.group part)).1)
    (hpart : v.Condensed part)
    (hinner : T.Steady part → T.condense budget c = (some (T.share part).1, T)) :
    T.condense (budget + 1) (.group c) = (some (T.share (u.share (.group part)).1).1, T) := by
  have hgroup {p : Formula} (h : T.condense budget c = (some p, T)) :
      T.condense (budget + 1) (.group c) =
        (some (T.share (.group p)).1, (T.share (.group p)).2) :=
    condense_of_parts (e := .group c) rfl (.cons h .nil)
  obtain ⟨h, hkept⟩ | ⟨x, h, hkey, hfind, hback⟩ := share_later hu hT hgrows
  · -- The group is one around a leaf, which stays as well.
    rw [h] at hsteady ⊢
    have htriv : part.key.isTrivial = true :=
      hkept.resolve_right fun h => Bool.false_ne_true h.2.symm
    have hleaf : T.share part = (part, T) := share_of_isTrivial htriv
    rw [hgroup (hinner (steady_of_key_eq rfl hsteady)), hleaf, share_snd_of_condensed hkept]
  · -- The inner formula has the key of the group and is found under its name.
    rw [h] at hsteady ⊢
    have hname : T.share part = (.variable x, T) := by
      have hfound : T.share part = (reference part x, T) := share_of_find? hkey hfind
      rw [hfound]
      obtain htriv | ⟨-, hshared⟩ := hpart
      · exact absurd (htriv.symm.trans hkey) (by decide)
      · cases part <;> first | rfl | cases hshared
    rw [hgroup (hinner (steady_of_key_eq rfl (hback hsteady))), hname, share_of_isTrivial rfl,
      share_reference]
    rfl

/-- A node whose parts are condensed as before is condensed as before. -/
theorem repeats_node (hT : T.Keyed) {parts : List Formula} (htriv : e.isTrivial = false) (hu : u.Keyed)
    (hparts : List.Forall₂ (fun part c => ∃ v, Repeats T c part v ∧ v.Extends u) parts
      e.children) :
    Repeats T e (u.share (e.withChildren parts)).1 (u.share (e.withChildren parts)).2 := by
  have hlength := hparts.length_eq
  refine ⟨condensed_share hu _, fun hgrows hsteady budget hbudget => ?_⟩
  obtain ⟨budget, rfl⟩ := Nat.exists_eq_add_of_le' (e.depth_pos.trans_le hbudget)
  have hu' := (extends_share hu (e.withChildren parts)).1.trans hgrows
  have hagain : List.Forall₂ (fun part c => (∃ v : Table, v.Condensed part) ∧
      (T.Steady part → T.condense budget c = (some (T.share part).1, T))) parts e.children := by
    have hdepth := (Formula.depth_le_succ_iff e budget).1 hbudget
    refine ((List.forall₂_and_left e.children parts).2 ⟨hdepth, hparts.flip⟩).flip.imp ?_
    rintro part c ⟨hc, v, ⟨hv, hstep⟩, hvu⟩
    exact ⟨⟨v, hv⟩, fun h => hstep (hvu.trans hu') h budget hc⟩
  -- A group is apart: it has the key of the formula inside, so its part may itself be
  -- found under the name of the group.
  by_cases hgroup : ∃ c, e = .group c
  · obtain ⟨c, rfl⟩ := hgroup
    obtain ⟨part, rfl⟩ := List.length_eq_one_iff.1 hlength
    obtain ⟨⟨v, hv⟩, hinner⟩ := (List.forall₂_cons.1 hagain).1
    exact condense_steady_group hu hT hgrows hsteady hv hinner
  · -- The key of any other node has the keys of its parts below it.
    have hgroup' : ∀ c, e ≠ .group c := fun c hc => hgroup ⟨c, hc⟩
    obtain ⟨h, hkept⟩ | ⟨x, h, hkey, hfind, hback⟩ := share_later hu hT hgrows
    · rw [h] at hsteady ⊢
      rw [condense_steady_node htriv hgroup' hsteady hagain, share_snd_of_condensed hkept]
    · rw [h] at hsteady ⊢
      rw [condense_steady_node htriv hgroup' (hback hsteady) hagain, share_of_find? hkey hfind,
        share_reference]

/-- A later table, for which what a formula was condensed to is steady, condenses
the formula to the same again, up to the name the result has got. -/
theorem condense_again (ht : t.Keyed) (hT : T.Keyed) {budget : Nat}
    (h : t.condense budget e = (some r, u)) : Repeats T e r u := by
  refine condense_induction (motive := fun _ e r u => Repeats T e r u) ?trivial ?node ht h
  case trivial =>
      intro t e htriv
      have hkey : e.key.isTrivial = true := by rw [Formula.key_of_isTrivial htriv, htriv]
      refine ⟨.inl hkey, fun _ _ budget hbudget => ?_⟩
      obtain ⟨budget, rfl⟩ := Nat.exists_eq_add_of_le' (e.depth_pos.trans_le hbudget)
      rw [condense_succ, if_pos htriv, share_of_isTrivial hkey]
  case node =>
      intro t e parts u htriv hu hthread
      exact repeats_node hT htriv hu (hthread.forall₂ (.refl u) fun _ hstep hwu => ⟨_, hstep, hwu⟩)

/-! ### The root -/

theorem steady_of_isTrivial (hkey : r.key.isTrivial = true)
    (h : ∀ x, r.key = .variable x → t.Settled x) : t.Steady r := by
  refine ⟨?_, fun y hy => h y ?_⟩
  · intro c hc
    cases hr : r.key <;> simp_all [Formula.isTrivial, Formula.children]
  · rw [← Formula.occurrences_key] at hy
    cases hr : r.key <;> simp_all [Formula.isTrivial, Formula.occurrences]

theorem rootName_of_reference (hkey : r.key = .variable x) (hcontains : t.contains x = true) :
    t.rootName r = (x, t) := by
  obtain ⟨y, hy, -, h⟩ | ⟨houtside, -⟩ := rootName_eq t r
  · cases hkey.symm.trans hy
    exact h
  · rw [houtside x hkey] at hcontains
    cases hcontains

/-- The root of a formula whose name is settled is steady, and gets the name
again. -/
theorem rootName_again (hu : u.Keyed) (hr : u.Condensed r)
    (h : u.rootName r = (x, T)) (hsettled : T.Settled x) :
    T.Steady r ∧ T.rootName (T.share r).1 = (x, T) := by
  obtain ⟨y, hkey, -, hname⟩ | ⟨houtside, ⟨y, hfind, hname⟩ | ⟨hunknown, hname⟩⟩ :=
    rootName_eq u r
  · -- The root is a reference.
    cases h.symm.trans hname
    have htriv : r.key.isTrivial = true := by rw [hkey]; rfl
    refine ⟨steady_of_isTrivial htriv fun z hz => ?_, ?_⟩
    · cases hkey.symm.trans hz
      exact hsettled
    · rw [share_of_isTrivial htriv, hname]
  · -- The root has the key of an entry, so the key is a leaf.
    cases h.symm.trans hname
    have htriv : r.key.isTrivial = true := hr.resolve_right fun hkept =>
      Option.some_ne_none _ (hfind.symm.trans hkept.1)
    refine ⟨steady_of_isTrivial htriv fun z hz => ?_, ?_⟩
    · exact settled_of_contains_eq_false (houtside z hz)
    · rw [share_of_isTrivial htriv, hname]
  · -- The root has become an entry.
    cases h.symm.trans hname
    have hadded := getElem?_memoize_size u r
    have hsteady := (settled_iff (entry?_name hadded)).1 hsettled
    have hcontains : (u.memoize r).2.contains (u.name u.size) = true :=
      contains_name (lt_size_of_getElem? hadded)
    have hfind : (u.memoize r).2.find? r.key = some (u.name u.size) :=
      (find?_eq_some_iff (keyed_memoize hu hunknown)).2
        ⟨u.size, r, hadded, Formula.same_self r.key, rfl⟩
    refine ⟨hsteady, ?_⟩
    cases htriv : r.key.isTrivial with
    | false =>
        rw [share_of_find? htriv hfind]
        exact rootName_of_reference (key_reference r _) hcontains
    | true =>
        rw [share_of_isTrivial htriv]
        obtain ⟨y, hkey, hnew, hagain⟩ | ⟨-, ⟨y, hfind', hagain⟩ | ⟨hnone, -⟩⟩ :=
          rootName_eq (u.memoize r).2 r
        · -- A variable that is named like an entry now but was not before.
          obtain ⟨i, hi, rfl⟩ := contains_iff.1 hnew
          have hlast : ¬ i < u.size := fun hlt =>
            name_ne_of_contains_eq_false (houtside _ hkey) hlt ((extends_memoize u r).name i).symm
          rw [size_memoize] at hi
          obtain rfl : i = u.size := by omega
          exact hagain
        · cases hfind.symm.trans hfind'
          exact hagain
        · cases hfind.symm.trans hnone

/-- A formula whose name is settled is given the name again. -/
theorem optimizeTree_again [Stack] (ht : t.Keyed) (h : t.optimizeTree e = (.ok x, T))
    (hsettled : T.Settled x) : T.optimizeTree e = (.ok x, T) := by
  obtain ⟨root, v, hroot, hname⟩ := optimizeTree_eq_ok h
  obtain ⟨-, hv⟩ := extends_of_condense_eq ht hroot
  have hvT : v.Extends T ∧ T.Keyed := by
    have hgrown := (kept_extends v).rootName ⟨.refl v, hv⟩ root
    rwa [hname] at hgrown
  have hdepth : e.depth ≤ depthLimit := (condense_isSome_iff (t := t)).1 (by rw [hroot]; rfl)
  obtain ⟨hcondensed, hrepeats⟩ := condense_again ht hvT.2 hroot
  obtain ⟨hsteady, hagain⟩ := rootName_again hv hcondensed hname hsettled
  rw [optimizeTree, hrepeats hvT.1 hsteady depthLimit hdepth]
  simp only [hagain]

/-! ### A pass that adds nothing -/

/-- A formula without known parts, of settled names. -/
def Solid (t : Table) (e : Formula) : Prop := t.Unknown e.key ∧ ∀ y ∈ e.occurrences, t.Settled y

theorem Solid.steady (h : t.Solid e) : t.Steady e := ⟨fun _ hc => h.1.child hc, h.2⟩

theorem reduced_withChildren {parts : List Formula} (htriv : e.isTrivial = false)
    (hlength : parts.length = e.children.length) (h : ∀ part ∈ parts, t.Unknown part.key) :
    t.Reduced (e.withChildren parts) := by
  by_cases hgroup : ∃ a, e = .group a
  · obtain ⟨a, rfl⟩ := hgroup
    obtain ⟨part, rfl⟩ := List.length_eq_one_iff.1 hlength
    exact fun c hc => (h part (List.mem_singleton_self part)).child hc
  · intro c hc
    rw [(Formula.key_withChildren htriv (fun a ha => hgroup ⟨a, ha⟩) hlength).2] at hc
    obtain ⟨part, hpart, rfl⟩ := List.mem_map.1 hc
    exact h part hpart

theorem solid_reference {node : Formula} (h : t.Settled x) : t.Solid (reference node x) := by
  refine ⟨?_, fun y hy => ?_⟩
  · rw [key_reference]
    exact unknown_of_isTrivial rfl
  · rw [← Formula.occurrences_key, key_reference] at hy
    exact List.mem_singleton.1 hy ▸ h

theorem not_extends_memoize (t : Table) (e : Formula) : ¬ (t.memoize e).2.Extends t := by
  intro h
  have hle := h.size_le
  rw [size_memoize] at hle
  omega

theorem solid_share (hT : T.Keyed) {node : Formula} (hsteady : T.Steady node)
    (hsame : (T.share node).2.Extends T) : T.Solid (T.share node).1 := by
  obtain ⟨h, hkept⟩ | ⟨i, a, ha, hkey, -, -, h⟩ | ⟨-, -, -, h⟩ := share_cases hT node
  · rw [h]
    refine ⟨(Formula.everywhere_iff _ _).2 ⟨fun htriv => ?_, hsteady.1⟩, hsteady.2⟩
    exact (hkept.resolve_left (by rw [htriv]; exact Bool.false_ne_true)).1
  · rw [h]
    refine solid_reference ((settled_iff (entry?_name ha)).2 ?_)
    exact steady_of_sameKey (Formula.sameKey_symm hkey) hsteady
  · rw [h] at hsame
    exact absurd hsame (not_extends_memoize T node)

/-- What a formula is condensed to without the table growing is solid, if no
variable of the formula is named like an entry. -/
theorem solid_condense (hT : T.Keyed) (ht : t.Keyed) {budget : Nat}
    (h : t.condense budget e = (some r, u)) (hTt : T.Extends t) (huT : u.Extends T)
    (he : ∀ y ∈ e.occurrences, T.contains y = false) : T.Solid r := by
  revert hTt huT he
  refine condense_induction (motive := fun t e r u => T.Extends t → u.Extends T →
    (∀ y ∈ e.occurrences, T.contains y = false) → T.Solid r) ?trivial ?node ht h
  case trivial =>
      intro t e htriv _ _ he
      have hkey : e.key.isTrivial = true := by rw [Formula.key_of_isTrivial htriv, htriv]
      exact ⟨unknown_of_isTrivial hkey, fun y hy => settled_of_contains_eq_false (he y hy)⟩
  case node =>
      intro t e parts u htriv hu hthread hTt huT he
      have hlength := hthread.length_eq
      have hgrows := (extends_share hu (e.withChildren parts)).1.trans huT
      have hparts : ∀ part ∈ parts, T.Solid part := hthread.forall_mem fun hc htv hstep hwu =>
        hstep (hTt.trans htv) (hwu.trans hgrows) fun y hy =>
          he y ((Formula.mem_occurrences_iff_children htriv y).2 ⟨_, hc, hy⟩)
      -- Nothing was added on the way, so all tables in between are the same.
      obtain rfl : u = T := hgrows.antisymm (hTt.trans hthread.grows) hu hT
      refine solid_share hu ⟨?_, fun y hy => ?_⟩ huT
      · exact reduced_withChildren htriv hlength fun part hpart => (hparts part hpart).1
      · obtain ⟨part, hpart, hy⟩ := (Formula.mem_occurrences_withChildren htriv hlength y).1 hy
        exact (hparts part hpart).2 y hy

theorem settled_of_optimizeTree [Stack] (hT : T.Keyed) (he : ∀ y ∈ e.occurrences, T.contains y = false)
    (h : T.optimizeTree e = (.ok x, T)) : T.Settled x := by
  obtain ⟨root, v, hroot, hname⟩ := optimizeTree_eq_ok h
  obtain ⟨hTv, hv⟩ := extends_of_condense_eq hT hroot
  have hvT : v.Extends T := by
    have hgrown := (kept_extends v).rootName ⟨.refl v, hv⟩ root
    rw [hname] at hgrown
    exact hgrown.1
  have hsolid : T.Solid root := solid_condense hT hT hroot (.refl T) hvT he
  obtain rfl : v = T := hvT.antisymm hTv hv hT
  -- The root is a reference, has the key of an entry, or would have been added.
  obtain ⟨i, a, ha, hroot', hkey | hsame⟩ | hnew := rootName_cases hv root
  · cases hroot'.symm.trans hname
    refine hsolid.2 _ ?_
    rw [← Formula.occurrences_key, hkey]
    exact List.mem_singleton_self _
  · cases hroot'.symm.trans hname
    exact (settled_iff (entry?_name ha)).2
      (steady_of_sameKey (Formula.sameKey_symm hsame) hsolid.steady)
  · have hgrown := congrArg Prod.snd (hnew.symm.trans hname)
    exact absurd (hgrown ▸ .refl v) (not_extends_memoize v root)

/-! ### Both passes -/

/-- A formula by itself is optimized as a batch of one. -/
theorem optimize_singleton [Stack] {item : Item} (hitem : item.formula = .ok e)
    (h : t.optimizeTree e = (.ok x, u)) : t.optimize [item] = (.ok [x], u) := by
  simp [optimize, Item.formulas, hitem, optimizeTrees, h]

theorem optimizeTree_of_optimize [Stack] (ht : t.Keyed) {item : Item} (hitem : item.formula = .ok e)
    (h : t.optimize [item] = (.ok [x], u)) : t.optimizeTree e = (.ok x, u) := by
  obtain ⟨f, hf⟩ | ⟨es, xs, v, hread, htrees, hok⟩ := optimize_cases ht [item]
  · cases hf.symm.trans h
  · cases hok.symm.trans h
    obtain rfl : es = [e] := by simpa [Item.formulas, hitem, eq_comm] using hread
    cases threaded_optimizeTrees ht htrees with
    | cons _ hstep hrest =>
        cases hrest
        exact hstep.2

/-- Optimizing a formula again, in the table that optimizing it has left, gives
the same name and changes nothing just when no entry that the name stands for
has a part that the table knows. -/
theorem optimize_again_iff [Stack] {stem : String} {history : List Batch} {item : Item} {e : Formula}
    {x : String} {u : Table} (hitem : item.formula = .ok e) (hplain : Plain stem e)
    (h : ((empty stem).after history).optimize [item] = (.ok [x], u)) :
    u.optimize [item] = (.ok [x], u) ↔ ∀ a, u.Uses x a → u.Reduced a := by
  have ht : ((empty stem).after history).Keyed := keyed_after stem history
  obtain ⟨hgrows, hu⟩ : ((empty stem).after history).Extends u ∧ u.Keyed := by
    have hgrown := extends_optimize ht [item]
    rwa [h] at hgrown
  have hvariables : ∀ y ∈ e.occurrences, u.contains y = false := by
    intro y hy
    by_contra hcontains
    obtain ⟨i, -, rfl⟩ := contains_iff.1 (Bool.eq_true_of_not_eq_false hcontains)
    rw [hgrows.name, name, stem_after] at hy
    exact hplain i hy
  have hfirst := optimizeTree_of_optimize ht hitem h
  constructor
  · exact fun hagain =>
      settled_of_optimizeTree hu hvariables (optimizeTree_of_optimize hu hitem hagain)
  · exact fun hsettled =>
      optimize_singleton hitem (optimizeTree_again ht hfirst hsettled)

/-- A product of equal groups. -/
def squaredSum : Formula :=
  .binary "*" (.group (.binary "+" (.variable "a") (.variable "b")))
    (.group (.binary "+" (.variable "a") (.variable "b")))

theorem optimize_again_iff_squaredSum :
    (empty "f").optimize [.tree squaredSum] =
        (.ok ["f1"], ((empty "f").optimize [.tree squaredSum]).2) ∧
      ∀ a, ((empty "f").optimize [.tree squaredSum]).2.Uses "f1" a →
        ((empty "f").optimize [.tree squaredSum]).2.Reduced a := by
  have hfirst : (empty "f").optimize [.tree squaredSum] =
      (.ok ["f1"], ((empty "f").optimize [.tree squaredSum]).2) := by with_unfolding_all rfl
  have hplain : Plain "f" squaredSum := plain_of_head? (by decide) (by decide)
  have hagain : ((empty "f").optimize [.tree squaredSum]).2.optimize [.tree squaredSum] =
      (.ok ["f1"], ((empty "f").optimize [.tree squaredSum]).2) := by with_unfolding_all rfl
  have hnew : ((empty "f").after []).optimize [.tree squaredSum] =
      (.ok ["f1"], ((empty "f").optimize [.tree squaredSum]).2) := hfirst
  exact ⟨hfirst, (optimize_again_iff rfl hplain hnew).1 hagain⟩

/-- A sum that is met before the same sum in parentheses. -/
def repeatedSum : Formula :=
  .binary "+" (.binary "+" (.variable "a") (.variable "b"))
    (.group (.binary "+" (.variable "a") (.variable "b")))

theorem parse_repeatedSum : Formula.parse "a + b + (a + b)" = .ok repeatedSum := by
  have htokens : Formula.tokenize "a + b + (a + b)".toList =
      .ok [⟨.name, "a", 0⟩, ⟨.op, "+", 2⟩, ⟨.name, "b", 4⟩, ⟨.op, "+", 6⟩, ⟨.op, "(", 8⟩,
        ⟨.name, "a", 9⟩, ⟨.op, "+", 11⟩, ⟨.name, "b", 13⟩, ⟨.op, ")", 14⟩, ⟨.stop, "", 15⟩] := by
    decide +kernel
  rw [Formula.parse, Formula.parseWith, htokens]
  simp [Formula.parseTokens, Formula.parseSum, Formula.parseProduct, Formula.parseSigned,
    Formula.parsePower, Formula.parseAtom, Formula.parseFactors, Formula.parseTerms,
    Formula.nameValue, constant?, repeatedSum]

/-- The second time, the first sum is replaced by a reference to the second, so
the formula is given a new name. -/
theorem optimize_repeatedSum_again :
    ∃ e : Formula, Formula.parse "a + b + (a + b)" = .ok e ∧ Plain "f" e ∧
      ∃ t u : Table, (empty "f").optimize [.text "a + b + (a + b)"] = (.ok ["f1"], t) ∧
        t.size = 2 ∧ t.optimize [.text "a + b + (a + b)"] = (.ok ["f2"], u) ∧ u.size = 3 := by
  have hplain : Plain "f" repeatedSum := plain_of_head? (by decide) (by decide)
  have hitem : (Item.text "a + b + (a + b)").formula = .ok repeatedSum := by
    simp [Item.formula, parse_repeatedSum]
  have hfirst : (empty "f").optimizeTree repeatedSum =
      (.ok "f1", ((empty "f").optimizeTree repeatedSum).2) := by with_unfolding_all rfl
  have hsecond : ((empty "f").optimizeTree repeatedSum).2.optimizeTree repeatedSum =
      (.ok "f2", (((empty "f").optimizeTree repeatedSum).2.optimizeTree repeatedSum).2) := by
    with_unfolding_all rfl
  exact ⟨repeatedSum, parse_repeatedSum, hplain, _, _, optimize_singleton hitem hfirst,
    by decide +kernel, optimize_singleton hitem hsecond, by decide +kernel⟩

end Gantry.Memo.Table
