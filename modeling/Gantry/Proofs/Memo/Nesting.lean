import Gantry.Proofs.Memo.Selection

/-!
How many brackets entries take to write. Condensing never takes more: a
reference takes one pair, and the node it stands for no fewer. The first group
of a formula, if there is nothing to share inside it, becomes the first entry of
a new table as it is, and the name of the formula leads to it.
-/

namespace Gantry

namespace Formula

variable {e g : Formula} {as bs parts : List Formula} {n : Nat}

theorem nestingAll_le_iff : nestingAll as ≤ n ↔ ∀ a ∈ as, a.nesting ≤ n := by
  induction as with
  | nil => simp [nestingAll]
  | cons a as ih => rw [nestingAll, Nat.max_le, ih, List.forall_mem_cons]

theorem nestingAll_mono (h : List.Forall₂ (fun a b => a.nesting ≤ b.nesting) as bs) :
    nestingAll as ≤ nestingAll bs := by
  induction h with
  | nil => exact le_rfl
  | cons hab _ ih => exact max_le_max hab ih

theorem nesting_le_depth (e : Formula) : e.nesting ≤ e.depth := by
  induction e with
  | group e ih => exact ih.trans (Nat.le_succ _)
  | number n => exact Nat.zero_le _
  | constant c => exact Nat.zero_le _
  | var x => exact le_rfl
  | unary op e ih => exact Nat.succ_le_succ ih
  | binary op l r ihl ihr => exact Nat.succ_le_succ (max_le_max ihl ihr)
  | call f args ih =>
      refine Nat.succ_le_succ (nestingAll_le_iff.2 fun a ha => (ih a ha).trans ?_)
      exact (depthAll_le_iff args _).1 le_rfl a ha

theorem nesting_le_of_mem_children (h : g ∈ e.children) : g.nesting ≤ e.nesting := by
  cases e with
  | group a => exact (List.mem_singleton.1 h) ▸ le_rfl
  | unary op a => exact (List.mem_singleton.1 h) ▸ Nat.le_succ _
  | binary op l r =>
      have hmax : g.nesting ≤ max l.nesting r.nesting := by
        obtain rfl | rfl := List.mem_pair.1 h
        · exact le_max_left _ _
        · exact le_max_right _ _
      exact hmax.trans (Nat.le_succ _)
  | call f args => exact (nestingAll_le_iff.1 le_rfl g h).trans (Nat.le_succ _)
  | _ => cases h

theorem withChildren_children (e : Formula) : e.withChildren e.children = e := by
  cases e <;> rfl

theorem nesting_withChildren_le (htriv : e.isTrivial = false)
    (h : List.Forall₂ (fun part c => part.nesting ≤ c.nesting) parts e.children) :
    (e.withChildren parts).nesting ≤ e.nesting := by
  have hlength := h.length_eq
  revert h
  refine withChildren_cases (motive := fun e parts e' =>
    List.Forall₂ (fun part c => part.nesting ≤ c.nesting) parts e.children →
      e'.nesting ≤ e.nesting) ?_ ?_ ?_ ?_ htriv hlength
  · exact fun a b h => (List.forall₂_cons.1 h).1
  · exact fun op a b h => Nat.succ_le_succ (List.forall₂_cons.1 h).1
  · intro op a b c d h
    obtain ⟨hc, hd⟩ := List.forall₂_cons.1 h
    exact Nat.succ_le_succ (max_le_max hc (List.forall₂_cons.1 hd).1)
  · exact fun f as bs h => Nat.succ_le_succ (nestingAll_mono h)

/-- Only what is a literal or a constant, up to groups, takes no bracket. -/
theorem nesting_pos (h : e.key.isTrivial = false) : 0 < e.nesting := by
  induction e with
  | group e ih => exact ih h
  | number n => cases h
  | constant c => cases h
  | var x => cases h
  | unary op e _ => exact Nat.succ_pos _
  | binary op l r _ _ => exact Nat.succ_pos _
  | call f args _ => exact Nat.succ_pos _

theorem isTrivial_key_eq_false (h : 1 < e.nesting) : e.key.isTrivial = false := by
  induction e with
  | group e ih => exact ih h
  | number n => cases h
  | constant c => cases h
  | var x => exact absurd h (lt_irrefl 1)
  | unary op e _ => rfl
  | binary op l r _ _ => rfl
  | call f args _ => rfl

/-- Whether a formula has no groups and calls. -/
def Flat (e : Formula) : Prop := e.Everywhere fun part => Memo.Table.isShared part = false

/-- The group that is complete first when a formula is walked, if it is flat inside. -/
inductive FirstGroup : Formula → Formula → Prop
  | here {e : Formula} (h : e.Flat) (hkey : e.key.isTrivial = false) :
      FirstGroup (.group e) (.group e)
  | left {op : String} {l r g : Formula} (h : FirstGroup l g) : FirstGroup (.binary op l r) g

end Formula

namespace Memo.Table

open Relation (ReflTransGen)
open Formula (FirstGroup Flat)

variable {stem x y : String} {t u : Table} {e e' g node root : Formula} {as bs : List Formula}
  {n budget : Nat}

/-! ### Entries take no more brackets than formulas -/

/-- Whether all entries can be written with so many brackets open at a time. -/
def NestsWithin (t : Table) (n : Nat) : Prop :=
  ∀ ⦃i : Nat⦄ ⦃a : Formula⦄, t.entries[i]? = some a → a.nesting ≤ n

theorem nestsWithin_empty (stem : String) : (empty stem).NestsWithin n :=
  fun i a h => by simp [empty] at h

theorem NestsWithin.memoize (h : t.NestsWithin n) (he : e.nesting ≤ n) :
    (t.memoize e).2.NestsWithin n := by
  intro i a ha
  rw [Table.memoize, Array.getElem?_push] at ha
  split at ha
  · exact Option.some.inj ha ▸ he
  · exact h ha

theorem nesting_reference (node : Formula) (x : String) : (reference node x).nesting = 1 := by
  unfold reference
  split <;> rfl

theorem NestsWithin.share (h : t.NestsWithin n) (ht : t.Keyed) (hnode : node.nesting ≤ n) :
    (t.share node).2.NestsWithin n ∧ (t.share node).1.nesting ≤ node.nesting := by
  obtain ⟨hshare, -⟩ | ⟨i, a, -, -, hkey, -, hshare⟩ | ⟨hkey, -, -, hshare⟩ := share_cases ht node <;>
    rw [hshare]
  · exact ⟨h, le_rfl⟩
  · exact ⟨h, nesting_reference node _ ▸ Formula.nesting_pos hkey⟩
  · exact ⟨h.memoize hnode, nesting_reference node _ ▸ Formula.nesting_pos hkey⟩

/-- The entries made of the parts of a node, and what the parts become. -/
theorem NestsWithin.threaded
    (hthread : Threaded (fun t e e' u => t.NestsWithin n → e.nesting ≤ n →
      u.NestsWithin n ∧ e'.nesting ≤ e.nesting) t as bs u)
    (h : t.NestsWithin n) (has : ∀ a ∈ as, a.nesting ≤ n) :
    u.NestsWithin n ∧ List.Forall₂ (fun b a => b.nesting ≤ a.nesting) bs as := by
  induction hthread with
  | nil t => exact ⟨h, .nil⟩
  | cons _ hstep _ ih =>
      obtain ⟨ha, has⟩ := List.forall_mem_cons.1 has
      obtain ⟨hu, hb⟩ := hstep h ha
      exact (ih hu has).imp_right (.cons hb)

theorem NestsWithin.condense (h : t.NestsWithin n) (ht : t.Keyed) (he : e.nesting ≤ n)
    (hcondense : t.condense budget e = (some e', u)) : u.NestsWithin n ∧ e'.nesting ≤ e.nesting := by
  revert h he
  refine condense_induction (motive := fun t e e' u => t.NestsWithin n → e.nesting ≤ n →
    u.NestsWithin n ∧ e'.nesting ≤ e.nesting) ?trivial ?node ht hcondense
  case trivial => exact fun t e _ h _ => ⟨h, le_rfl⟩
  case node =>
      intro t e parts u htriv hu hthread h he
      obtain ⟨hall, hparts⟩ := h.threaded hthread fun c hc =>
        (Formula.nesting_le_of_mem_children hc).trans he
      have hnode := Formula.nesting_withChildren_le htriv hparts
      exact (hall.share hu (hnode.trans he)).imp_right fun hle => hle.trans hnode

section

variable [Stack]

theorem NestsWithin.optimizeTree (h : t.NestsWithin n) (ht : t.Keyed) (he : e.nesting ≤ n)
    (hname : t.optimizeTree e = (.ok x, u)) : u.NestsWithin n := by
  obtain ⟨root, v, hroot, hname⟩ := optimizeTree_eq_ok hname
  obtain ⟨hv, hle⟩ := h.condense ht he hroot
  obtain ⟨-, hkeyed⟩ := extends_of_condense_eq ht hroot
  obtain ⟨i, a, -, hrooted, -⟩ | hrooted := rootName_cases hkeyed root
  · cases hrooted.symm.trans hname
    exact hv
  · cases hrooted.symm.trans hname
    exact hv.memoize (hle.trans he)

theorem NestsWithin.answer (h : t.NestsWithin n) (ht : t.Keyed) {b : Batch}
    (hb : ∀ e ∈ b.formulas, e.nesting ≤ n) : (t.answer b).2.NestsWithin n := by
  obtain ⟨f, hanswer⟩ | ⟨es, xs, u, hes, hanswer, hthread⟩ := answer_cases ht b
  · exact hanswer ▸ h
  · have hnests : ∀ e ∈ es, e.nesting ≤ n := fun e he => hb e (mem_formulas_of_ok hes he)
    rw [hanswer]
    clear hanswer hes
    induction hthread with
    | nil t => exact h
    | @cons t v w e x es xs _ hstep _ ih =>
        obtain ⟨he, hes⟩ := List.forall_mem_cons.1 hnests
        have hu := (extends_optimizeTree hstep.1 e).2
        rw [hstep.2] at hu
        exact ih (h.optimizeTree hstep.1 he hstep.2) hu hes

/-- Entries take no more brackets than the formulas that were given. -/
theorem nestsWithin_after {history : List Batch}
    (h : ∀ b ∈ history, ∀ e ∈ b.formulas, e.nesting ≤ n) :
    ((empty stem).after history).NestsWithin n := by
  have hall {t : Table} (ht : t.NestsWithin n) (hkeyed : t.Keyed) :
      (t.after history).NestsWithin n := by
    induction history generalizing t with
    | nil => exact ht
    | cons b history ih =>
        obtain ⟨hb, hhistory⟩ := List.forall_mem_cons.1 h
        exact ih hhistory (ht.answer hkeyed hb) (extends_answer hkeyed b).2
  exact hall (nestsWithin_empty stem) (keyed_empty stem)

end

/-! ### What formulas lead to -/

/-- A formula leads to the entry with a name. -/
def Reaches (t : Table) (e : Formula) (x : String) : Prop :=
  ∃ y ∈ e.occurrences, ReflTransGen t.Refers y x

theorem Extends.contains (h : t.Extends u) (hx : t.contains x = true) : u.contains x = true := by
  obtain ⟨i, hi, rfl⟩ := contains_iff.1 hx
  exact contains_iff.2 ⟨i, hi.trans_le h.size_le, h.name i⟩

theorem Extends.refers (h : t.Extends u) (hxy : t.Refers x y) : u.Refers x y := by
  obtain ⟨a, hentry, hy, hknown⟩ := hxy
  obtain ⟨i, rfl, ha⟩ := entry?_eq_some_iff.1 hentry
  exact ⟨a, entry?_eq_some_iff.2 ⟨i, h.name i, h.entry ha⟩, hy, h.contains hknown⟩

theorem Extends.leads (h : t.Extends u) (hxy : ReflTransGen t.Refers x y) :
    ReflTransGen u.Refers x y :=
  ReflTransGen.mono (fun _ _ hxy => h.refers hxy) x y hxy

theorem contains_of_leads (hxy : ReflTransGen t.Refers x y) (hy : t.contains y = true) :
    t.contains x = true := by
  induction hxy using ReflTransGen.head_induction_on with
  | refl => exact hy
  | head hstep _ _ =>
      obtain ⟨a, hentry, -⟩ := hstep
      obtain ⟨i, rfl, ha⟩ := entry?_eq_some_iff.1 hentry
      exact contains_name (lt_size_of_getElem? ha)

/-- An entry leads to what its formula leads to. -/
theorem Reaches.entry (h : t.Reaches e x) (hx : t.contains x = true) {i : Nat} {a : Formula}
    (ha : t.entries[i]? = some a) (hsame : a.occurrences = e.occurrences) :
    ReflTransGen t.Refers (t.name i) x := by
  obtain ⟨y, hy, hyx⟩ := h
  exact .head ⟨a, entry?_name ha, hsame ▸ hy, contains_of_leads hyx hx⟩ hyx

theorem Reaches.mono (h : t.Reaches e x) (htu : t.Extends u) : u.Reaches e x :=
  h.imp fun _ hy => hy.imp_right htu.leads

theorem occurrences_reference (node : Formula) (x : String) :
    (reference node x).occurrences = [x] := by
  unfold reference
  split <;> rfl

theorem Reaches.share (h : t.Reaches node x) (ht : t.Keyed) (hx : t.contains x = true) :
    (t.share node).2.Reaches (t.share node).1 x := by
  obtain ⟨hshare, -⟩ | ⟨i, a, ha, hsame, -, -, hshare⟩ | ⟨-, -, -, hshare⟩ := share_cases ht node <;>
    rw [hshare]
  · exact h
  · refine ⟨t.name i, by simp [occurrences_reference], h.entry hx ha ?_⟩
    exact Formula.occurrences_eq_of_sameKey hsame
  · have hgrows := extends_memoize t node
    have hsize := getElem?_memoize_size t node
    refine ⟨t.name t.size, by simp [occurrences_reference], ?_⟩
    have hentry := (h.mono hgrows).entry (hgrows.contains hx) hsize rfl
    rwa [hgrows.name] at hentry

/-! ### The first group -/

/-- If every step leaves a formula and the table as they are, so do all steps. -/
theorem Threaded.eq {P : Table → Prop} {p : Formula → Prop}
    (h : Threaded (fun t e e' u => P t → p e → e' = e ∧ u = t) t as bs u) (ht : P t)
    (has : ∀ a ∈ as, p a) : bs = as ∧ u = t := by
  induction h with
  | nil t => exact ⟨rfl, rfl⟩
  | cons _ hstep _ ih =>
      obtain ⟨ha, hrest⟩ := List.forall_mem_cons.1 has
      obtain ⟨rfl, rfl⟩ := hstep ht ha
      obtain ⟨rfl, rfl⟩ := ih ht hrest
      exact ⟨rfl, rfl⟩

/-- There is nothing to share in a flat formula if nothing is known yet. -/
theorem condense_flat (ht : t.Keyed) (hnew : t.lookups = #[]) (hflat : e.Flat)
    (h : t.condense budget e = (some e', u)) : e' = e ∧ u = t := by
  revert hnew hflat
  refine condense_induction (motive := fun t e e' u => t.lookups = #[] → e.Flat → e' = e ∧ u = t)
    ?trivial ?node ht h
  case trivial => exact fun t e _ _ _ => ⟨rfl, rfl⟩
  case node =>
      intro t e parts u htriv hu hthread hnew hflat
      obtain ⟨hnode, hchildren⟩ := (Formula.everywhere_iff _ e).1 hflat
      obtain ⟨rfl, rfl⟩ := hthread.eq hnew hchildren
      rw [Formula.withChildren_children]
      obtain ⟨hshare, -⟩ | ⟨i, a, -, -, -, hfind, -⟩ | ⟨-, -, hshared, -⟩ := share_cases hu e
      · rw [hshare]
        exact ⟨rfl, rfl⟩
      · simp [find?, hnew] at hfind
      · cases hnode.symm.trans hshared

theorem Reaches.left {op : String} {l r : Formula} (h : t.Reaches l x) :
    t.Reaches (.binary op l r) x :=
  h.imp fun _ hy => hy.imp_left (List.mem_append_left _)

/-- The first group of a formula becomes the first entry of an empty table. -/
theorem first_of_condense (hfirst : FirstGroup e g)
    (h : (empty stem).condense budget e = (some e', u)) :
    u.entries[0]? = some g ∧ u.Reaches e' (u.name 0) := by
  induction hfirst generalizing budget e' u with
  | @here a hflat hkey =>
      cases budget with
      | zero => rw [condense_zero] at h; cases h
      | succ budget =>
          rw [condense] at h
          split at h
          · next a' v ha =>
            obtain ⟨rfl, rfl⟩ := condense_flat (keyed_empty stem) rfl hflat ha
            obtain ⟨he', rfl⟩ := Prod.ext_iff.1 h
            obtain rfl : ((empty stem).share (.group a')).1 = e' := Option.some.inj he'
            obtain ⟨-, htriv | ⟨-, hunshared⟩⟩ | ⟨i, b, hb, -⟩ | ⟨-, -, -, hshare⟩ :=
              share_cases (keyed_empty stem) (.group a')
            · cases hkey.symm.trans htriv
            · cases hunshared
            · simp [empty] at hb
            · rw [hshare]
              exact ⟨getElem?_memoize_size (empty stem) _, _, List.mem_singleton_self _, .refl⟩
          · cases h
  | @left op l r g hl ih =>
      cases budget with
      | zero => rw [condense_zero] at h; cases h
      | succ budget =>
          rw [condense] at h
          split at h
          · cases h
          · next l' v hl' =>
            obtain ⟨hentry, hreach⟩ := ih hl'
            obtain ⟨-, hv⟩ := extends_of_condense_eq (keyed_empty stem) hl'
            split at h
            · cases h
            · next r' w hr' =>
              obtain ⟨hvw, hw⟩ := extends_of_condense_eq hv hr'
              obtain ⟨he', rfl⟩ := Prod.ext_iff.1 h
              obtain rfl : (w.share (.binary op l' r')).1 = e' := Option.some.inj he'
              obtain ⟨hgrows, -⟩ := extends_share hw (.binary op l' r')
              have hfirst := hvw.entry hentry
              have hknown : w.contains (v.name 0) = true :=
                contains_iff.2 ⟨0, lt_size_of_getElem? hfirst, hvw.name 0⟩
              have hnode : w.Reaches (.binary op l' r') _ := (hreach.mono hvw).left
              refine ⟨hgrows.entry hfirst, ?_⟩
              rw [hgrows.name, hvw.name]
              exact hnode.share hw hknown

/-- The name of a formula leads to what its condensed form leads to. -/
theorem leads_of_rootName (ht : t.Keyed) (h : t.Reaches root x) (hx : t.contains x = true)
    (hname : t.rootName root = (y, u)) : ReflTransGen u.Refers y x := by
  obtain ⟨i, a, ha, hroot, hself | hsame⟩ | hroot := rootName_cases ht root
  · cases hroot.symm.trans hname
    obtain ⟨z, hz, hzx⟩ := h
    rw [← Formula.occurrences_key, hself] at hz
    exact List.mem_singleton.1 hz ▸ hzx
  · cases hroot.symm.trans hname
    exact h.entry hx ha (Formula.occurrences_eq_of_sameKey hsame)
  · cases hroot.symm.trans hname
    have hgrows := extends_memoize t root
    have hentry := (h.mono hgrows).entry (hgrows.contains hx) (getElem?_memoize_size t root) rfl
    rwa [hgrows.name] at hentry

/-- The name of the formula at the head of a batch leads to its first group, if the
table is new. -/
theorem covers_first [Stack] {b : Batch} {es : List Formula} {names : List String}
    (hes : Item.formulas b.items = .ok (e :: es)) (hfirst : FirstGroup e g)
    (hnames : ((empty stem).answer b).1 = .ok names) :
    ((empty stem).after [b]).Covers (.many names) g := by
  obtain ⟨f, hanswer⟩ | ⟨es', xs, u, hes', hanswer, hthread⟩ := answer_cases (keyed_empty stem) b
  · cases (congrArg Prod.fst hanswer).symm.trans hnames
  · cases hes.symm.trans hes'
    cases (congrArg Prod.fst hanswer).symm.trans hnames
    cases hthread with
    | @cons _ v _ _ y _ ys _ hstep hrest =>
        obtain ⟨root, w, hroot, hname⟩ := optimizeTree_eq_ok hstep.2
        obtain ⟨hentry, hreach⟩ := first_of_condense hfirst hroot
        obtain ⟨-, hw⟩ := extends_of_condense_eq (keyed_empty stem) hroot
        have hknown := contains_name (lt_size_of_getElem? hentry)
        have hgrows : w.Extends v := by
          obtain ⟨h, -⟩ := (kept_extends w).rootName ⟨.refl w, hw⟩ root
          rwa [hname] at h
        have hleads := hrest.grows.leads (leads_of_rootName hw hreach hknown hname)
        rw [after, after, hanswer]
        have hgrown := hgrows.trans hrest.grows
        refine ⟨w.name 0, ⟨y, List.mem_cons_self, hleads⟩, ?_⟩
        exact entry?_eq_some_iff.2 ⟨0, hgrown.name 0, hgrown.entry hentry⟩

end Memo.Table

end Gantry
