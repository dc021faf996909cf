import Gantry.Proofs.Code.Quoting
import Gantry.Memo.Script
import Gantry.Proofs.Formula.Signs

/-!
Texts that are read as expressions. A text stands for an expression if it is
read as that expression wherever it stands, as long as there is room for the
brackets in it and what follows ends it; where there is no room it is not read.
-/

namespace Gantry.Code

open Decimal Formula

variable {fuel room : Nat} {c : Code} {cs rest : List Char}

/-! ### Beginnings -/

@[simp] theorem behind?_append (start rest : List Char) :
    behind? start (start ++ rest) = some rest := by
  have hprefix : start.isPrefixOf (start ++ rest) = true :=
    List.isPrefixOf_iff_prefix.2 (List.prefix_append _ _)
  rw [behind?, if_pos hprefix, List.drop_left]

/-! ### Brackets -/

mutual

/-- How many brackets are open at a time in the text of an expression. -/
def nesting : Code → Nat
  | .literal _ | .name _ => 0
  | .minus c => c.nesting
  | .item _ => 1
  | .call _ args => nestingAll args + 1

def nestingAll : List Code → Nat
  | [] => 0
  | c :: cs => max c.nesting (nestingAll cs)

end

theorem nestingAll_le_iff {cs : List Code} {n : Nat} :
    nestingAll cs ≤ n ↔ ∀ c ∈ cs, c.nesting ≤ n := by
  induction cs with
  | nil => simp [nestingAll]
  | cons c cs ih => rw [nestingAll, Nat.max_le, ih, List.forall_mem_cons]

/-! ### Sequences -/

section Sequences

variable {α : Type} {p : α → Prop} [DecidablePred p] {one : List Char → Option (α × List Char)}
  {close : Char} {texts : List (List Char)} {as : List α}

/-- What follows a member of a sequence. -/
def Follows (close : Char) (rest : List Char) : Prop :=
  ∃ tail, rest = ',' :: ' ' :: tail ∨ rest = close :: tail

theorem separated_comma {a : α} (h : one cs = some (a, ',' :: ' ' :: rest)) :
    separated close one (fuel + 1) cs =
      (separated close one fuel rest).map fun more => (a :: more.1, more.2) := by
  rw [separated, h, Option.bind_eq_bind, Option.bind_some]
  cases h : separated close one fuel rest <;> simp [h]

theorem separated_close {a : α} (hclose : close ≠ ',') (h : one cs = some (a, close :: rest)) :
    separated close one (fuel + 1) cs = some ([a], rest) := by
  rw [separated, h]
  simp [hclose]

theorem separated_none (h : one cs = none) : separated close one (fuel + 1) cs = none := by
  rw [separated, h]
  rfl

/-- Members of a sequence are read one by one, unless one of them is not read. -/
theorem separated_intercalate (hclose : close ≠ ',')
    (h : List.Forall₂ (fun cs a => ∀ rest, Follows close rest →
      one (cs ++ rest) = if p a then some (a, rest) else none) texts as)
    (hne : texts ≠ []) (hfuel : texts.length ≤ fuel) (rest : List Char) :
    separated close one fuel ([',', ' '].intercalate texts ++ close :: rest) =
      if ∀ a ∈ as, p a then some (as, rest) else none := by
  induction h generalizing fuel with
  | nil => exact absurd rfl hne
  | @cons cs a texts as hone htexts ih =>
      obtain ⟨fuel, rfl⟩ : ∃ n, fuel = n + 1 :=
        Nat.exists_eq_succ_of_ne_zero (Nat.ne_of_gt (Nat.lt_of_lt_of_le (Nat.succ_pos _) hfuel))
      rw [List.length_cons, Nat.succ_le_succ_iff] at hfuel
      cases htexts with
      | nil =>
          have hlast := hone (close :: rest) ⟨rest, .inr rfl⟩
          rw [List.intercalate_singleton]
          by_cases hp : p a
          · rw [if_pos hp] at hlast
            rw [separated_close hclose hlast, if_pos (by simpa using hp)]
          · rw [if_neg hp] at hlast
            rw [separated_none hlast, if_neg (by simpa using hp)]
      | @cons ds b texts as hnext hrest =>
          have hfirst := hone _
            ⟨[',', ' '].intercalate (ds :: texts) ++ close :: rest, .inl rfl⟩
          rw [List.intercalate_cons_cons, List.append_assoc, List.append_assoc, List.cons_append,
            List.cons_append, List.nil_append]
          by_cases hp : p a
          · rw [if_pos hp] at hfirst
            rw [separated_comma hfirst, ih (by simp) hfuel]
            simp only [List.forall_mem_cons (a := a), hp, true_and]
            split <;> rfl
          · rw [if_neg hp] at hfirst
            rw [separated_none hfirst, if_neg fun hall => hp (hall a List.mem_cons_self)]

theorem length_add_one_le (h : ∀ cs ∈ texts, cs ≠ []) :
    texts.length ≤ ([',', ' '].intercalate texts).length + 1 ∧
      ∀ cs ∈ texts, cs.length ≤ ([',', ' '].intercalate texts).length := by
  induction texts with
  | nil => simp
  | cons cs texts ih =>
      obtain ⟨-, htexts⟩ := List.forall_mem_cons.1 h
      cases texts with
      | nil => simp
      | cons ds texts =>
          obtain ⟨hcount, hlength⟩ := ih htexts
          rw [List.intercalate_cons_cons, List.length_append, List.length_append]
          refine ⟨by simp only [List.length_cons] at *; omega, fun es hes => ?_⟩
          rcases List.mem_cons.1 hes with rfl | hes
          · omega
          · have := hlength es hes
            omega

/-- A sequence is read up to the bracket that closes it, unless one of its members is not read. -/
theorem listed_intercalate (hclose : close ≠ ',')
    (h : List.Forall₂ (fun cs a => ∀ rest, Follows close rest →
      one (cs ++ rest) = if p a then some (a, rest) else none) texts as)
    (hhead : ∀ cs ∈ texts, ∃ c ∈ cs.head?, c ≠ close)
    (hfuel : ([',', ' '].intercalate texts).length < fuel) (rest : List Char) :
    listed close one fuel ([',', ' '].intercalate texts ++ close :: rest) =
      if ∀ a ∈ as, p a then some (as, rest) else none := by
  have hne : ∀ cs ∈ texts, cs ≠ [] := by
    rintro _ hcs rfl
    obtain ⟨c, hc, -⟩ := hhead _ hcs
    cases hc
  have hcount := (length_add_one_le hne).1
  have hread (hne : texts ≠ []) (hlength : texts.length ≤ fuel) :=
    separated_intercalate hclose h hne hlength
  cases h with
  | nil => simp [listed]
  | @cons cs a texts as _ htexts =>
      obtain ⟨c, hc, hother⟩ := hhead cs List.mem_cons_self
      obtain ⟨tail, rfl⟩ : ∃ tail, cs = c :: tail := List.head?_eq_some_iff.1 hc
      have hcons : ∃ more, [',', ' '].intercalate ((c :: tail) :: texts) = c :: more := by
        cases texts with
        | nil => exact ⟨_, List.intercalate_singleton⟩
        | cons ds texts => exact ⟨_, List.intercalate_cons_cons⟩
      obtain ⟨more, hmore⟩ := hcons
      rw [← hread (by simp) (by omega), hmore, List.cons_append, listed, if_neg hother]

end Sequences

/-! ### Expressions -/

/-- What follows an expression does not go on with it. -/
def Ends (rest : List Char) : Prop := ∀ c ∈ rest.head?, c = ',' ∨ c = ')' ∨ c = '\n'

theorem Ends.closed (h : Ends rest) : EndsNumber rest ∧ EndsName rest := by
  constructor <;> intro c hc <;> rcases h c hc with rfl | rfl | rfl <;> decide

theorem Follows.ends (h : Follows ')' rest) : Ends rest := by
  obtain ⟨tail, rfl | rfl⟩ := h <;> rintro _ ⟨⟩ <;> simp

/-- A text is read as an expression where there is room for its brackets, and else is not read. -/
structure Reads (cs : List Char) (c : Code) : Prop where
  head : ∃ d ∈ cs.head?, d ≠ ')'
  read : ∀ fuel room rest, cs.length ≤ fuel → Ends rest →
    read? fuel room (cs ++ rest) = if c.nesting ≤ room then some (c, rest) else none

theorem read?_number {k : Nat} (hsign : cs.head? ≠ some '-')
    (hfront : front? cs = some (.number, k)) :
    read? (fuel + 1) room cs = (numberValue? (String.ofList (cs.take k))).map fun v =>
      (.literal v, cs.drop k) := by
  rw [read?]
  simp only [hfront]
  rintro rest rfl
  exact hsign rfl

theorem read?_name {k : Nat} (hsign : cs.head? ≠ some '-')
    (hfront : front? cs = some (.name, k)) :
    read? (fuel + 1) room cs = named (listed ')' (read? fuel (room - 1)) fuel) fuel room
      (String.ofList (cs.take k)) (cs.drop k) := by
  rw [read?]
  simp only [hfront]
  rintro rest rfl
  exact hsign rfl

theorem reads_numeral {n : Numeral} {v : Number}
    (hv : numberValue? (String.ofList n.chars) = some v) : Reads n.chars (.literal v) := by
  obtain ⟨d, ds, hchars, hd⟩ := n.exists_cons
  have hsign : d ≠ '-' ∧ d ≠ ')' := by
    constructor <;> rintro rfl <;> cases hd
  refine ⟨⟨d, by simp [hchars], hsign.2⟩, fun fuel room rest hfuel hrest => ?_⟩
  obtain ⟨fuel, rfl⟩ : ∃ k, fuel = k + 1 :=
    Nat.exists_eq_succ_of_ne_zero (by simp only [hchars, List.length_cons] at hfuel; omega)
  rw [read?_number (by simp [hchars, hsign.1]) (front?_number n hrest.closed.1), List.take_left,
    List.drop_left, hv, Option.map_some, nesting, if_pos (Nat.zero_le _)]

theorem Reads.minus (h : Reads cs c) : Reads ('-' :: cs) (.minus c) := by
  refine ⟨⟨'-', rfl, by decide⟩, fun fuel room rest hfuel hrest => ?_⟩
  obtain ⟨fuel, rfl⟩ : ∃ k, fuel = k + 1 :=
    Nat.exists_eq_succ_of_ne_zero (by simp only [List.length_cons] at hfuel; omega)
  rw [List.length_cons, Nat.succ_le_succ_iff] at hfuel
  rw [List.cons_append, read?, h.read fuel room rest hfuel hrest, nesting]
  split <;> rfl

/-! ### Names -/

theorem head_of_isName {x : String} (h : isName x = true) :
    ∃ d ∈ x.toList.head?, d ≠ '-' ∧ d ≠ ')' := by
  obtain ⟨d, ds, hx, hd, -⟩ := exists_cons_of_isName h
  exact ⟨d, by simp [hx], by constructor <;> rintro rfl <;> cases hd⟩

/-- What a name begins is settled by what stands behind it. -/
theorem read?_append {x : String} (hx : isName x = true) (hrest : EndsName rest) :
    read? (fuel + 1) room (x.toList ++ rest) =
      named (listed ')' (read? fuel (room - 1)) fuel) fuel room x rest := by
  obtain ⟨d, ds, hchars, hd, hds⟩ := exists_cons_of_isName hx
  have hfront := front?_name hd hds hrest
  rw [← hchars] at hfront
  have hsign : (x.toList ++ rest).head? ≠ some '-' := by
    obtain ⟨e, he, hne, -⟩ := head_of_isName hx
    rw [List.head?_append_of_ne_nil _ (by simp [hchars]), Option.mem_def.1 he]
    simpa using hne
  rw [read?_name hsign hfront, List.take_left, List.drop_left, String.ofList_toList]

theorem reads_name {x : String} (hx : isName x = true) : Reads x.toList (.name x) := by
  obtain ⟨d, hd, -, hclose⟩ := head_of_isName hx
  refine ⟨⟨d, hd, hclose⟩, fun fuel room rest hfuel hrest => ?_⟩
  obtain ⟨fuel, rfl⟩ : ∃ k, fuel = k + 1 := by
    refine Nat.exists_eq_succ_of_ne_zero fun hzero => ?_
    rw [hzero, Nat.le_zero, List.length_eq_zero_iff] at hfuel
    simp [hfuel] at hd
  rw [read?_append hx hrest.closed.2, nesting, if_pos (Nat.zero_le _)]
  cases rest with
  | nil => rfl
  | cons e rest => rcases hrest e rfl with rfl | rfl | rfl <;> rfl

theorem key?_append {key : String} (hfuel : (Text.quoted key).toList.length ≤ fuel)
    (rest : List Char) :
    key? fuel ('[' :: ((Text.quoted key).toList ++ ']' :: rest)) = some (key, rest) := by
  rw [key?, quoted?_quoted hfuel]
  rfl

theorem toList_itemText (key : String) : (Memo.Script.itemText key).toList =
    "scope".toList ++ '[' :: ((Text.quoted key).toList ++ [']']) := by
  rw [Memo.Script.itemText, String.toList_append, String.toList_append]
  simp

theorem reads_item (key : String) :
    Reads (Memo.Script.itemText key).toList (.item key) := by
  have hname : isName "scope" = true := by decide
  rw [toList_itemText]
  refine ⟨⟨'s', rfl, by decide⟩, fun fuel room rest hfuel hrest => ?_⟩
  obtain ⟨fuel, rfl⟩ : ∃ k, fuel = k + 1 :=
    Nat.exists_eq_succ_of_ne_zero (by simp only [List.length_append, List.length_cons] at hfuel; omega)
  have hquoted : (Text.quoted key).toList.length ≤ fuel := by
    simp only [List.length_append, List.length_cons] at hfuel
    omega
  rw [List.append_assoc, List.cons_append, List.append_assoc, List.singleton_append,
    read?_append hname (by rintro _ ⟨⟩; rfl), named, key?_append hquoted, nesting]
  by_cases hroom : room = 0
  · rw [if_pos (.inl hroom), if_neg (by omega)]
  · rw [if_neg (by simpa using hroom), if_pos (by omega)]
    rfl

/-! ### Calls -/

theorem toList_listedCall (callee : String) (args : List String) :
    (listedCall callee args).toList =
      callee.toList ++ '(' :: ([',', ' '].intercalate (args.map String.toList) ++ [')']) := by
  rw [listedCall, String.toList_append, String.toList_append, String.toList_append,
    String.toList_intercalate]
  simp

theorem reads_call {callee : String} (hcallee : isName callee = true) {texts : List String}
    {args : List Code} (h : List.Forall₂ (fun s c => Reads s.toList c) texts args) :
    Reads (listedCall callee texts).toList (.call callee args) := by
  rw [toList_listedCall]
  obtain ⟨d, hd, -, hclose⟩ := head_of_isName hcallee
  have hne : callee.toList ≠ [] := by
    intro hnil
    simp [hnil] at hd
  refine ⟨⟨d, by rwa [List.head?_append_of_ne_nil _ hne], hclose⟩,
    fun fuel room rest hfuel hrest => ?_⟩
  rw [List.length_append, List.length_cons, List.length_append, List.length_singleton] at hfuel
  have hpos := List.length_pos_iff.2 hne
  obtain ⟨fuel, rfl⟩ : ∃ k, fuel = k + 1 := Nat.exists_eq_succ_of_ne_zero (by omega)
  rw [List.append_assoc, List.cons_append, List.append_assoc, List.singleton_append,
    read?_append hcallee (by rintro _ ⟨⟩; rfl), named, nesting]
  cases room with
  | zero => rw [if_pos rfl, if_neg (by omega)]
  | succ room =>
      have hheads : ∀ cs ∈ texts.map String.toList, ∃ c ∈ cs.head?, c ≠ ')' :=
        List.forall_mem_map.2
          ((List.forall₂_and_left _ _).1 (h.imp fun s c hread => ⟨hread.head, hread⟩)).1
      have hlengths := (length_add_one_le fun cs hcs hnil => by
        obtain ⟨c, hc, -⟩ := hheads cs hcs
        simp [hnil] at hc).2
      have hbounded : ∀ s ∈ texts, s.toList.length ≤ fuel := fun s hs => by
        have := hlengths _ (List.mem_map_of_mem hs)
        omega
      have hone : List.Forall₂ (fun cs c => ∀ rest, Follows ')' rest →
          read? fuel room (cs ++ rest) = if c.nesting ≤ room then some (c, rest) else none)
          (texts.map String.toList) args :=
        List.forall₂_map_left_iff.2
          (((List.forall₂_and_left _ _).2 ⟨hbounded, h⟩).imp fun s c hread rest hrest =>
            hread.2.read fuel room rest hread.1 hrest.ends)
      rw [if_neg (Nat.succ_ne_zero _), Nat.add_sub_cancel,
        listed_intercalate (by decide) hone hheads (by omega)]
      simp only [← nestingAll_le_iff, Nat.succ_le_succ_iff]
      split <;> rfl

end Gantry.Code
