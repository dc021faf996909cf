import Gantry.Proofs.Formula.Numbers
import Mathlib.Data.List.DropRight

/-!
Where the tokens of a text stand, and where there are no more. A token reads as it does at its
place in the text, whatever comes behind it; so the place at which a text cannot be split any
further is the end of its longest beginning that is split into tokens.
-/

namespace Gantry.Formula

open Text

variable {cs rest : List Char} {c : Char} {kind : TokenKind} {n p : Nat} {ts : List Token}

/-! ### One token -/

theorem tokensFrom_of_isBlank (hc : isBlank c = true) :
    tokensFrom p (c :: rest) = tokensFrom (p + 1) rest := by
  rw [tokensFrom.eq_def]
  exact if_pos hc

theorem tokensFrom_of_none (hc : ¬isBlank c = true) (hfront : front? (c :: rest) = none) :
    tokensFrom p (c :: rest) = .error p := by
  rw [tokensFrom.eq_def]
  dsimp only
  rw [if_neg hc]
  split
  · rfl
  · next h => cases hfront.symm.trans h

theorem tokensFrom_of_front? (hblank : ∀ c ∈ cs.head?, ¬isBlank c = true)
    (hfront : front? cs = some (kind, n)) : tokensFrom p cs =
      (tokensFrom (p + n) (cs.drop n)).map (⟨kind, tokenText kind (cs.take n), p⟩ :: ·) := by
  cases cs with
  | nil => cases hfront
  | cons c rest =>
      rw [tokensFrom.eq_def]
      dsimp only
      rw [if_neg (hblank c rfl)]
      split
      · next h => cases hfront.symm.trans h
      · next h =>
        cases hfront.symm.trans h
        cases tokensFrom (p + n) ((c :: rest).drop n) <;> rfl

/-! ### The text behind a token -/

theorem nameLength_take (h : nameLength cs ≤ n) : nameLength (cs.take n) = nameLength cs := by
  cases n with
  | zero => rw [List.take_zero, Nat.le_zero.1 h]; rfl
  | succ n =>
      cases cs with
      | nil => rfl
      | cons c rest =>
          rw [nameLength] at h
          rw [List.take_succ_cons, nameLength, nameLength]
          split at h
          · rw [← List.take_takeWhile, List.take_of_length_le (by omega)]
          · next hc => rw [if_neg hc, if_neg hc]

theorem operatorLength_cons (c : Char) (rest : List Char) : operatorLength (c :: rest) =
    if c = '*' ∧ rest.head? = some '*' then 2 else if isOperator c = true then 1 else 0 := by
  unfold operatorLength
  split
  · next h =>
    cases h
    rfl
  · next hne h =>
    cases h
    have hsingle : ¬(c = '*' ∧ rest.head? = some '*') := by
      rintro ⟨hc, hrest⟩
      obtain ⟨tail, htail⟩ := List.head?_eq_some_iff.1 hrest
      exact hne tail hc htail
    rw [if_neg hsingle]
  · next h => cases h

theorem operatorLength_take (h : operatorLength cs ≤ n) :
    operatorLength (cs.take n) = operatorLength cs := by
  cases n with
  | zero => rw [List.take_zero, Nat.le_zero.1 h]; rfl
  | succ n =>
      cases cs with
      | nil => rfl
      | cons c rest =>
          rw [operatorLength_cons] at h
          rw [List.take_succ_cons, operatorLength_cons, operatorLength_cons]
          cases n with
          | zero =>
              have hsingle : ¬(c = '*' ∧ rest.head? = some '*') := fun hc => by
                rw [if_pos hc] at h
                omega
              rw [List.take_zero, if_neg hsingle, if_neg (by simp)]
          | succ n => rw [List.head?_take, if_neg (Nat.succ_ne_zero n)]

theorem front?_take (h : front? cs = some (kind, n)) {m : Nat} (hn : n ≤ m) :
    front? (cs.take m) = some (kind, n) := by
  unfold front? at *
  split at h
  · next hnumber =>
    cases h
    rw [numberLength_take hn, if_pos hnumber]
  · next hnumber =>
    rw [numberLength_take (by omega), if_neg hnumber]
    split at h
    · next hname =>
      cases h
      rw [nameLength_take hn, if_pos hname]
    · next hname =>
      rw [nameLength_take (by omega), if_neg hname]
      split at h
      · next hoperator =>
        cases h
        rw [operatorLength_take hn, if_pos hoperator]
      · cases h

theorem numberLength_of_front? (h : front? cs = some (.number, n)) :
    0 < numberLength cs ∧ numberLength cs = n := by
  unfold front? at h
  split at h
  · next hnumber => exact ⟨hnumber, by cases h; rfl⟩
  · split at h
    · cases h
    · split at h <;> cases h

theorem front?_eq_none_iff :
    front? cs = none ↔ numberLength cs = 0 ∧ nameLength cs = 0 ∧ operatorLength cs = 0 := by
  unfold front?
  constructor
  · intro h
    split at h
    · cases h
    · split at h
      · cases h
      · split at h
        · cases h
        · omega
  · rintro ⟨hnumber, hname, hoperator⟩
    rw [hnumber, hname, hoperator]
    rfl

theorem front?_take_of_none (h : front? cs = none) (m : Nat) : front? (cs.take m) = none := by
  obtain ⟨hnumber, hname, hoperator⟩ := front?_eq_none_iff.1 h
  rw [front?_eq_none_iff, numberLength_take (by omega), nameLength_take (by omega),
    operatorLength_take (by omega)]
  exact ⟨hnumber, hname, hoperator⟩

/-! ### All tokens -/

/-- A token as it reads at its place in a text. -/
def Token.At (cs : List Char) (t : Token) : Prop :=
  ∃ n, front? (cs.drop t.position) = some (t.kind, n) ∧
    t.text = tokenText t.kind ((cs.drop t.position).take n)

theorem exists_front?_of_tokensFrom (h : tokensFrom p cs = .ok ts) {t : Token} (ht : t ∈ ts) :
    ∃ k n, t.position = p + k ∧ front? (cs.drop k) = some (t.kind, n) ∧
      t.text = tokenText t.kind ((cs.drop k).take n) := by
  fun_induction tokensFrom p cs generalizing ts with
  | case1 p =>
      cases h
      cases ht
  | case2 p c rest hblank ih =>
      obtain ⟨k, n, hk, hfront⟩ := ih h ht
      exact ⟨k + 1, n, by omega, hfront⟩
  | case3 => cases h
  | case4 p c rest hblank kind n hfront ih =>
      cases htail : tokensFrom (p + n) ((c :: rest).drop n) with
      | error q =>
          rw [htail] at h
          cases h
      | ok tail =>
          rw [htail] at h
          cases h
          obtain rfl | ht := List.mem_cons.1 ht
          · exact ⟨0, n, rfl, hfront, rfl⟩
          · obtain ⟨k, m, hk, hrest⟩ := ih htail ht
            rw [List.drop_drop] at hrest
            exact ⟨n + k, m, by omega, hrest⟩

theorem at_of_tokensFrom (h : tokensFrom 0 cs = .ok ts) {t : Token} (ht : t ∈ ts) : t.At cs := by
  obtain ⟨k, n, hk, hfront⟩ := exists_front?_of_tokensFrom h ht
  obtain rfl : t.position = k := by omega
  exact ⟨n, hfront⟩

/-- Splitting fails at the end of the longest beginning that is split. -/
theorem tokensFrom_eq_error (h : tokensFrom p cs = .error n) : ∃ k, n = p + k ∧ k < cs.length ∧
    (∃ ts, tokensFrom p (cs.take k) = .ok ts) ∧
      ∀ m, k < m → tokensFrom p (cs.take m) = .error n := by
  fun_induction tokensFrom p cs with
  | case1 p => cases h
  | case2 p c rest hblank ih =>
      obtain ⟨k, rfl, hk, ⟨ts, hts⟩, hfail⟩ := ih h
      refine ⟨k + 1, by omega, Nat.succ_lt_succ hk, ⟨ts, ?_⟩, fun m hm => ?_⟩
      · rw [List.take_succ_cons, tokensFrom_of_isBlank hblank, hts]
      · obtain ⟨m, rfl⟩ : ∃ m', m = m' + 1 := ⟨m - 1, by omega⟩
        rw [List.take_succ_cons, tokensFrom_of_isBlank hblank, hfail m (by omega)]
  | case3 p c rest hblank hfront =>
      cases h
      refine ⟨0, rfl, Nat.succ_pos _, ⟨[], tokensFrom_nil _⟩, fun m hm => ?_⟩
      obtain ⟨m, rfl⟩ : ∃ m', m = m' + 1 := ⟨m - 1, by omega⟩
      have hcut := front?_take_of_none hfront (m + 1)
      rw [List.take_succ_cons] at *
      exact tokensFrom_of_none hblank hcut
  | case4 p c rest hblank kind l hfront ih =>
      cases htail : tokensFrom (p + l) ((c :: rest).drop l) with
      | ok tail =>
          rw [htail] at h
          cases h
      | error q =>
          rw [htail] at h
          cases h
          obtain ⟨k, rfl, hk, ⟨ts, hts⟩, hfail⟩ := ih htail
          have hpos : 0 < l := length_pos_of_front? hfront
          -- A text that is cut behind the token begins with it.
          have hcut (m : Nat) : tokensFrom p ((c :: rest).take (l + m)) =
              (tokensFrom (p + l) (((c :: rest).drop l).take m)).map
                (⟨kind, tokenText kind ((c :: rest).take l), p⟩ :: ·) := by
            have hhead : ∀ d ∈ ((c :: rest).take (l + m)).head?, ¬isBlank d = true := by
              rw [List.head?_take, if_neg (by omega)]
              rintro _ ⟨⟩
              exact hblank
            rw [tokensFrom_of_front? hhead (front?_take hfront (Nat.le_add_right l m)),
              List.drop_take, List.take_take, Nat.add_sub_cancel_left,
              Nat.min_eq_left (Nat.le_add_right l m)]
          rw [List.length_drop] at hk
          refine ⟨l + k, by omega, by omega, ⟨_, by rw [hcut, hts]; rfl⟩, fun m hm => ?_⟩
          obtain ⟨m, rfl⟩ : ∃ m', m = l + m' := ⟨m - l, by omega⟩
          rw [hcut, hfail m (by omega)]
          rfl

/-! ### The end -/

theorem textEnd_eq (cs : List Char) : textEnd cs = (cs.rdropWhile isBlank).length := by
  rw [textEnd, List.rdropWhile, List.length_reverse]

theorem tokensFrom_eq_nil_iff : tokensFrom p cs = .ok [] ↔ ∀ c ∈ cs, isBlank c = true := by
  fun_induction tokensFrom p cs with
  | case1 => simp
  | case2 p c rest hblank ih => simp [ih, hblank]
  | case3 p c rest hblank => simp [hblank]
  | case4 p c rest hblank kind n hfront ih =>
      cases tokensFrom (p + n) ((c :: rest).drop n) <;> simp [hblank, bind, Except.bind, pure, Except.pure]

end Gantry.Formula
