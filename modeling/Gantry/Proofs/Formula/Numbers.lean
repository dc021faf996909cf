import Gantry.Proofs.Formula.Spelling

/-!
What number tokens look like, and how far they reach. Digits of every script count, the point may
stand in front of, among or behind them, and the exponent may have a sign. The length of a number
does not depend on the text behind it, and every number token is read: with a point or an
exponent it is a double, and without it is all digits.
-/

namespace Gantry.Formula

open Text Decimal

/-! ### Runs of digits -/

/-- Number of digits at the front of a text. -/
def runLength (cs : List Char) : Nat := (cs.takeWhile isDigit).length

/-- Length of a point and the digits behind it, at the front of a text. -/
def pointLength (cs : List Char) : Nat :=
  if cs.head? = some '.' then 1 + runLength cs.tail else 0

/-- Length of a sign at the front of a text. -/
def signLength (cs : List Char) : Nat :=
  if cs.head? = some '+' ∨ cs.head? = some '-' then 1 else 0

variable {cs rest m x w : List Char} {c : Char} {n : Nat}

theorem runLength_take (n : Nat) (cs : List Char) : runLength (cs.take n) = min n (runLength cs) := by
  rw [runLength, ← List.take_takeWhile, List.length_take, runLength]

theorem pointLength_take (n : Nat) (cs : List Char) :
    pointLength (cs.take n) = min n (pointLength cs) := by
  cases n with
  | zero => rw [List.take_zero, Nat.zero_min]; rfl
  | succ n =>
      cases cs with
      | nil => rfl
      | cons c rest =>
          unfold pointLength
          rw [List.take_succ_cons, List.tail_cons, List.tail_cons, runLength_take, List.head?_cons,
            List.head?_cons]
          split <;> omega

theorem signLength_take (n : Nat) (cs : List Char) :
    signLength (cs.take n) = min n (signLength cs) := by
  cases n with
  | zero => rw [List.take_zero, Nat.zero_min]; rfl
  | succ n =>
      cases cs with
      | nil => rfl
      | cons c rest =>
          unfold signLength
          rw [List.take_succ_cons, List.head?_cons, List.head?_cons]
          split <;> omega

theorem take_runLength (cs : List Char) : cs.take (runLength cs) = cs.takeWhile isDigit :=
  (List.prefix_iff_eq_take.1 (List.takeWhile_prefix isDigit)).symm

theorem isDigit_of_mem_run : ∀ c ∈ cs.take (runLength cs), isDigit c = true := by
  rw [take_runLength]
  exact fun c hc => List.mem_takeWhile_imp hc

theorem pointLength_eq_zero (h : ∀ rest, cs ≠ '.' :: rest) : pointLength cs = 0 := by
  cases cs with
  | nil => rfl
  | cons c rest =>
      refine if_neg fun hc => h rest ?_
      rw [Option.some.inj hc]

theorem mantissaLength_eq (cs : List Char) : mantissaLength cs =
    if runLength cs = 0 ∧ pointLength (cs.drop (runLength cs)) ≤ 1 then 0
    else runLength cs + pointLength (cs.drop (runLength cs)) := by
  have hpoint (rest : List Char) : pointLength ('.' :: rest) = 1 + runLength rest := rfl
  have hrun (cs : List Char) : (cs.takeWhile isDigit).length = runLength cs := rfl
  unfold mantissaLength
  simp only [hrun]
  cases runLength cs with
  | zero =>
      rw [List.drop_zero]
      dsimp only
      split
      · next rest =>
        rw [hpoint]
        split <;> split <;> omega
      · next hne => rw [pointLength_eq_zero hne, if_pos ⟨rfl, Nat.zero_le 1⟩]
  | succ k =>
      rw [if_neg (by omega)]
      dsimp only
      split
      · next rest hrest => rw [hrest, hpoint, Nat.add_assoc]
      · next hne => rw [pointLength_eq_zero hne, Nat.add_zero]

theorem exponentLength_cons (c : Char) (rest : List Char) : exponentLength (c :: rest) =
    if (c = 'e' ∨ c = 'E') ∧ 0 < runLength (rest.drop (signLength rest)) then
      1 + signLength rest + runLength (rest.drop (signLength rest))
    else 0 := by
  have hrun (cs : List Char) : (cs.takeWhile isDigit).length = runLength cs := rfl
  have hsign (s : Char) (rest : List Char) :
      signLength (s :: rest) = if s = '+' ∨ s = '-' then 1 else 0 := by
    simp [signLength]
  unfold exponentLength
  simp only [hrun]
  cases rest with
  | nil => exact (ite_self 0).trans (if_neg fun h => absurd h.2 (Nat.lt_irrefl 0)).symm
  | cons s rest =>
      rw [hsign]
      dsimp only
      generalize (if s = '+' ∨ s = '-' then 1 else 0) = k
      by_cases hc : c = 'e' ∨ c = 'E'
      · rw [if_pos hc]
        cases runLength ((s :: rest).drop k) with
        | zero => rw [if_neg (by omega)]
        | succ n => rw [if_pos ⟨hc, Nat.succ_pos n⟩]
      · rw [if_neg hc, if_neg fun h => hc h.1]

/-! ### The text behind a number -/

theorem mantissaLength_take (h : mantissaLength cs ≤ n) :
    mantissaLength (cs.take n) = mantissaLength cs := by
  have hrun : min n (runLength cs) = runLength cs := by
    rw [mantissaLength_eq] at h
    split at h <;> omega
  rw [mantissaLength_eq] at h
  rw [mantissaLength_eq, mantissaLength_eq, runLength_take, hrun, List.drop_take, pointLength_take]
  split at h
  · next hnone => rw [if_pos (by omega), if_pos hnone]
  · next hsome => rw [if_neg (by omega), if_neg hsome, Nat.min_eq_right (by omega)]

theorem exponentLength_take (h : exponentLength cs ≤ n) :
    exponentLength (cs.take n) = exponentLength cs := by
  cases n with
  | zero => rw [List.take_zero, Nat.le_zero.1 h]; rfl
  | succ n =>
      cases cs with
      | nil => rfl
      | cons c rest =>
          rw [exponentLength_cons] at h
          rw [List.take_succ_cons, exponentLength_cons, exponentLength_cons, signLength_take,
            List.drop_take, runLength_take]
          split at h
          · next hsome =>
            have hsign : min n (signLength rest) = signLength rest := by omega
            rw [hsign, if_pos hsome, if_pos ⟨hsome.1, by omega⟩]
            omega
          · next hnone =>
            rw [if_neg hnone, if_neg]
            rintro ⟨hc, hpos⟩
            have hsign : min n (signLength rest) = signLength rest := by omega
            rw [hsign] at hpos
            exact hnone ⟨hc, by omega⟩

/-- A text that is cut behind its number begins with the same number. -/
theorem numberLength_take (h : numberLength cs ≤ n) :
    numberLength (cs.take n) = numberLength cs := by
  unfold numberLength at *
  have hmantissa : mantissaLength cs ≤ n := by split at h <;> omega
  rw [mantissaLength_take hmantissa]
  split
  · rfl
  · next k hk =>
    rw [hk] at h
    dsimp only at h
    rw [List.drop_take, exponentLength_take (by omega)]

/-! ### Number tokens -/

/-- The digits of a number with its point. -/
inductive IsMantissa : List Char → Prop
  | whole (ds : List Char) : ds ≠ [] → (∀ c ∈ ds, isDigit c = true) → IsMantissa ds
  | point (ds fs : List Char) : ds ≠ [] ∨ fs ≠ [] → (∀ c ∈ ds, isDigit c = true) →
      (∀ c ∈ fs, isDigit c = true) → IsMantissa (ds ++ '.' :: fs)

/-- The exponent of a number, if it has one. -/
inductive IsExponent : List Char → Prop
  | none : IsExponent []
  | some (c : Char) (sign ds : List Char) : c = 'e' ∨ c = 'E' →
      sign = [] ∨ sign = ['+'] ∨ sign = ['-'] → ds ≠ [] → (∀ c ∈ ds, isDigit c = true) →
      IsExponent (c :: (sign ++ ds))

/-- The text of a number in a formula. -/
def IsNumberText (w : List Char) : Prop := ∃ m x, w = m ++ x ∧ IsMantissa m ∧ IsExponent x

theorem take_ne_nil_of_runLength (h : 0 < runLength cs) : cs.take (runLength cs) ≠ [] := by
  rw [take_runLength]
  exact List.ne_nil_of_length_pos h

theorem isMantissa_take (h : 0 < mantissaLength cs) : IsMantissa (cs.take (mantissaLength cs)) := by
  rw [mantissaLength_eq] at h ⊢
  split at h
  · cases h
  · next hsome =>
    rw [if_neg hsome, List.take_add]
    generalize hrest : cs.drop (runLength cs) = rest at *
    by_cases hpoint : rest.head? = some '.'
    · obtain ⟨fs, rfl⟩ := List.head?_eq_some_iff.1 hpoint
      have hlength : pointLength ('.' :: fs) = runLength fs + 1 := Nat.add_comm 1 _
      rw [hlength] at hsome ⊢
      refine .point _ _ ?_ isDigit_of_mem_run isDigit_of_mem_run
      by_cases hrun : 0 < runLength cs
      · exact .inl (take_ne_nil_of_runLength hrun)
      · exact .inr (take_ne_nil_of_runLength (by omega))
    · have hlength : pointLength rest = 0 := if_neg hpoint
      rw [hlength, List.take_zero, List.append_nil]
      exact .whole _ (take_ne_nil_of_runLength (by omega)) isDigit_of_mem_run

theorem take_signLength (cs : List Char) : cs.take (signLength cs) = [] ∨
    cs.take (signLength cs) = ['+'] ∨ cs.take (signLength cs) = ['-'] := by
  unfold signLength
  split
  · next h =>
    obtain h | h := h
    · obtain ⟨rest, rfl⟩ := List.head?_eq_some_iff.1 h
      exact .inr (.inl rfl)
    · obtain ⟨rest, rfl⟩ := List.head?_eq_some_iff.1 h
      exact .inr (.inr rfl)
  · exact .inl rfl

theorem isExponent_take (cs : List Char) : IsExponent (cs.take (exponentLength cs)) := by
  cases cs with
  | nil => exact .none
  | cons c rest =>
      rw [exponentLength_cons]
      split
      · next h =>
        have hword : (c :: rest).take (1 + signLength rest +
            runLength (rest.drop (signLength rest))) = c :: (rest.take (signLength rest) ++
              (rest.drop (signLength rest)).take (runLength (rest.drop (signLength rest)))) := by
          rw [Nat.add_assoc, Nat.add_comm 1, List.take_succ_cons, List.take_add]
        rw [hword]
        exact .some c _ _ h.1 (take_signLength rest) (take_ne_nil_of_runLength h.2)
          isDigit_of_mem_run
      · exact .none

theorem isNumberText_take (h : 0 < numberLength cs) :
    IsNumberText (cs.take (numberLength cs)) := by
  unfold numberLength at *
  split at *
  · cases h
  · next n hmantissa =>
    have hm : IsMantissa (cs.take (n + 1)) := by
      rw [← Nat.succ_eq_add_one, ← hmantissa]
      exact isMantissa_take (by omega)
    exact ⟨cs.take (n + 1), _, List.take_add, hm, isExponent_take _⟩

/-! ### Text of this form is read -/

theorem IsMantissa.head (h : IsMantissa m) : ∃ c cs, m = c :: cs ∧ (isDigit c = true ∨ c = '.') := by
  cases h with
  | whole ds hne hds =>
      obtain ⟨c, cs, rfl⟩ := List.exists_cons_of_ne_nil hne
      exact ⟨c, cs, rfl, .inl (hds c List.mem_cons_self)⟩
  | point ds fs _ hds _ =>
      cases ds with
      | nil => exact ⟨'.', fs, rfl, .inr rfl⟩
      | cons c ds => exact ⟨c, ds ++ '.' :: fs, rfl, .inl (hds c List.mem_cons_self)⟩

theorem IsNumberText.isBlank (h : IsNumberText w) : ∀ c ∈ w, isBlank c = false := by
  obtain ⟨m, x, rfl, hm, hx⟩ := h
  rw [List.forall_mem_append]
  constructor
  · cases hm with
    | whole ds _ hds => exact fun c hc => isBlank_of_isDigit (hds c hc)
    | point ds fs _ hds hfs =>
        rw [List.forall_mem_append, List.forall_mem_cons]
        exact ⟨fun c hc => isBlank_of_isDigit (hds c hc), rfl,
          fun c hc => isBlank_of_isDigit (hfs c hc)⟩
  · cases hx with
    | none => simp
    | some c sign ds hc hsign _ hds =>
        rw [List.forall_mem_cons, List.forall_mem_append]
        refine ⟨?_, ?_, fun c hc => isBlank_of_isDigit (hds c hc)⟩
        · obtain rfl | rfl := hc <;> rfl
        · obtain rfl | rfl | rfl := hsign <;> simp <;> rfl

theorem IsExponent.endsRun (h : IsExponent x) : EndsRun x := by
  cases h with
  | none => rintro _ ⟨⟩
  | some c sign ds hc =>
      rintro _ ⟨⟩
      obtain rfl | rfl := hc <;> decide

theorem IsExponent.exponentRun (h : IsExponent x) : ∃ e, exponentRun x = (e, []) := by
  cases h with
  | none => exact ⟨0, rfl⟩
  | some c sign ds hc hsign hne hds =>
      have hend : EndsRun [] := by rintro _ ⟨⟩
      have hrun : digitRun false ds = (ds, []) := by simpa using digitRun_append hds hend false
      obtain ⟨d, ds, rfl⟩ := List.exists_cons_of_ne_nil hne
      have hsigned : ∃ negative, signRun (sign ++ d :: ds) = (negative, d :: ds) := by
        obtain rfl | rfl | rfl := hsign
        · refine ⟨false, signRun_of_head ?_⟩
          rintro _ ⟨⟩
          exact .inl (hds d List.mem_cons_self)
        · exact ⟨false, rfl⟩
        · exact ⟨true, rfl⟩
      obtain ⟨negative, hsigned⟩ := hsigned
      simp [Decimal.exponentRun, hc, hsigned, hrun]

theorem IsExponent.fractionRun (h : IsExponent x) : fractionRun x = ([], x) := by
  cases h with
  | none => rfl
  | some c sign ds hc => obtain rfl | rfl := hc <;> rfl

theorem unsigned?_isSome (hm : IsMantissa m) (hx : IsExponent x) (negative : Bool) :
    (unsigned? negative (m ++ x)).isSome = true := by
  obtain ⟨e, he⟩ := hx.exponentRun
  cases hm with
  | whole _ hne hds =>
      simp [unsigned?, digitRun_append hds hx.endsRun, hx.fractionRun, he, hne]
  | point ds fs hne hds hfs =>
      have hpoint : EndsRun ('.' :: (fs ++ x)) := by
        rintro _ ⟨⟩
        decide
      have hempty : (ds.isEmpty && fs.isEmpty) = false := by
        rwa [Bool.and_eq_false_iff, List.isEmpty_eq_false_iff, List.isEmpty_eq_false_iff]
      rw [List.append_assoc, List.cons_append, unsigned?, digitRun_append hds hpoint]
      simp [Decimal.fractionRun, digitRun_append hfs hx.endsRun, he, hempty]

/-- Text of a number has no sign and is no word. -/
theorem IsNumberText.readReal?_eq (h : IsNumberText w) :
    readReal? (String.ofList w) = unsigned? false w := by
  have hblank := h.isBlank
  obtain ⟨m, x, rfl, hm, hx⟩ := h
  obtain ⟨c, cs, rfl, hc⟩ := hm.head
  have hhead : ∀ d ∈ (c :: cs ++ x).head?, isDigit d = true ∨ d = '.' := by
    rintro _ ⟨⟩
    exact hc
  exact readReal?_of_head hhead hblank

/-- Text of a number is read as a double. -/
theorem IsNumberText.readReal? (h : IsNumberText w) :
    (readReal? (String.ofList w)).isSome = true := by
  rw [h.readReal?_eq]
  obtain ⟨m, x, rfl, hm, hx⟩ := h
  exact unsigned?_isSome hm hx false

/-- Without a point and an exponent it is all digits. -/
theorem IsNumberText.digits (h : IsNumberText w)
    (hmark : (w.any fun c => c == '.' || c == 'e' || c == 'E') = false) :
    ∀ c ∈ w, isDigit c = true := by
  obtain ⟨m, x, rfl, hm, hx⟩ := h
  rw [List.any_append, Bool.or_eq_false_iff] at hmark
  cases hm with
  | point => simp at hmark
  | whole ds _ hds =>
      cases hx with
      | none => rwa [List.append_nil]
      | some c sign ds hc => obtain rfl | rfl := hc <;> simp at hmark

end Gantry.Formula
