import Mathlib.Data.List.Forall2
import Gantry.Proofs.Document.Quoting

/-!
Data are read back as they were written, if the numbers among them are. What a
number is read as does not depend on the comma or bracket behind it.
-/

namespace Gantry.Datum

variable {cs ds rest : List Char} {n : Number}

/-! ### Numbers before a comma or a bracket -/

/-- What stands behind a value in a document on one line. -/
def Closes (rest : List Char) : Prop := ∀ c ∈ rest.head?, c = ',' ∨ c = ']' ∨ c = '\x7d'

theorem takeWhile_append (hrest : Closes rest) (cs : List Char) :
    (cs ++ rest).takeWhile Char.isDigit = cs.takeWhile Char.isDigit := by
  induction cs with
  | nil =>
      cases rest with
      | nil => rfl
      | cons c rest => obtain rfl | rfl | rfl := hrest c rfl <;> rfl
  | cons c cs ih => simp only [List.cons_append, List.takeWhile_cons, ih]

theorem wholeRun_append (hrest : Closes rest) (cs : List Char) :
    wholeRun (cs ++ rest) = wholeRun cs := by
  cases cs with
  | nil =>
      cases rest with
      | nil => rfl
      | cons c rest => obtain rfl | rfl | rfl := hrest c rfl <;> rfl
  | cons c cs =>
      by_cases hc : c = '0'
      · subst hc
        rfl
      · have hwhole (ds : List Char) : wholeRun (c :: ds) = (c :: ds).takeWhile Char.isDigit := by
          rw [wholeRun]
          rintro _ ⟨⟩
          exact hc rfl
        rw [List.cons_append, hwhole, hwhole, ← List.cons_append, takeWhile_append hrest]

theorem fractionLength_append (hrest : Closes rest) (cs : List Char) :
    fractionLength (cs ++ rest) = fractionLength cs := by
  cases cs with
  | nil =>
      cases rest with
      | nil => rfl
      | cons c rest => obtain rfl | rfl | rfl := hrest c rfl <;> rfl
  | cons c cs =>
      by_cases hc : c = '.'
      · subst hc
        simp only [List.cons_append, fractionLength, takeWhile_append hrest]
      · have hother (ds : List Char) : fractionLength (c :: ds) = 0 := by
          rw [fractionLength]
          rintro _ ⟨⟩
          exact hc rfl
        rw [List.cons_append, hother, hother]

/-- Length of the sign of an exponent. -/
def signLength (cs : List Char) : Nat :=
  match cs with
  | '+' :: _ | '-' :: _ => 1
  | _ => 0

theorem exponentLength_cons (c : Char) (cs : List Char) :
    exponentLength (c :: cs) =
      if c = 'e' ∨ c = 'E' then
        match ((cs.drop (signLength cs)).takeWhile Char.isDigit).length with
        | 0 => 0
        | n + 1 => n + 2 + signLength cs
      else 0 := rfl

theorem signLength_cons (c : Char) (cs : List Char) :
    signLength (c :: cs) = if c = '+' ∨ c = '-' then 1 else 0 := by
  unfold signLength
  split <;> simp_all

theorem signLength_append (hrest : Closes rest) (cs : List Char) :
    signLength (cs ++ rest) = signLength cs := by
  cases cs with
  | nil =>
      cases rest with
      | nil => rfl
      | cons c rest => obtain rfl | rfl | rfl := hrest c rfl <;> rfl
  | cons c cs => rw [List.cons_append, signLength_cons, signLength_cons]

theorem signLength_le (cs : List Char) : signLength cs ≤ cs.length := by
  cases cs with
  | nil => exact Nat.le_refl 0
  | cons c cs =>
      rw [signLength_cons, List.length_cons]
      split <;> omega

theorem exponentLength_append (hrest : Closes rest) (cs : List Char) :
    exponentLength (cs ++ rest) = exponentLength cs := by
  cases cs with
  | nil =>
      cases rest with
      | nil => rfl
      | cons c rest => obtain rfl | rfl | rfl := hrest c rfl <;> rfl
  | cons c cs =>
      rw [List.cons_append, exponentLength_cons, exponentLength_cons, signLength_append hrest,
        List.drop_append_of_le_length (signLength_le cs), takeWhile_append hrest]

/-- The sign of a number, as a number of characters. -/
def minusLength (cs : List Char) : Nat :=
  match cs with
  | '-' :: _ => 1
  | _ => 0

theorem minusLength_cons (c : Char) (cs : List Char) :
    minusLength (c :: cs) = if c = '-' then 1 else 0 := by
  unfold minusLength
  split <;> simp_all

/-- Where a number ends, and how it is read up to there. -/
def numberAt (cs : List Char) (sign whole fraction exponent : Nat) : Option Number :=
  if fraction + exponent = 0 then
    if wholeDigitLimit < whole then none
    else (Decimal.readInt? (String.ofList (cs.take (sign + whole + fraction + exponent)))).map .int
  else (Decimal.readReal? (String.ofList (cs.take (sign + whole + fraction + exponent)))).map .real

theorem readNumber?_eq (cs : List Char) :
    readNumber? cs =
      match (wholeRun (cs.drop (minusLength cs))).length with
      | 0 => none
      | n + 1 =>
        (numberAt cs (minusLength cs) (n + 1)
          (fractionLength (cs.drop (minusLength cs + (n + 1))))
          (exponentLength (cs.drop (minusLength cs + (n + 1) +
            fractionLength (cs.drop (minusLength cs + (n + 1))))))).map fun v =>
          (v, cs.drop (minusLength cs + (n + 1) +
            fractionLength (cs.drop (minusLength cs + (n + 1))) +
            exponentLength (cs.drop (minusLength cs + (n + 1) +
              fractionLength (cs.drop (minusLength cs + (n + 1)))))) ) := rfl

theorem length_wholeRun_le (cs : List Char) : (wholeRun cs).length ≤ cs.length := by
  unfold wholeRun
  split
  · simp
  · exact (List.takeWhile_sublist _).length_le

theorem fractionLength_le (cs : List Char) : fractionLength cs ≤ cs.length := by
  unfold fractionLength
  split
  · rename_i ds
    have := (List.takeWhile_sublist (l := ds) Char.isDigit).length_le
    rw [List.length_cons]
    split <;> omega
  · exact Nat.zero_le _

theorem exponentLength_le (cs : List Char) : exponentLength cs ≤ cs.length := by
  cases cs with
  | nil => exact Nat.le_refl 0
  | cons c cs =>
      have htake := (List.takeWhile_sublist (l := cs.drop (signLength cs)) Char.isDigit).length_le
      rw [List.length_drop] at htake
      have hsign := signLength_le cs
      rw [exponentLength_cons, List.length_cons]
      split
      · split
        · exact Nat.zero_le _
        · rename_i k hk
          rw [hk] at htake
          show k + 2 + signLength cs ≤ cs.length + 1
          omega
      · exact Nat.zero_le _

/-- A number is read the same way if a comma or a bracket follows. -/
theorem readNumber?_append (hrest : Closes rest) (h : readNumber? cs = some (n, ds)) :
    readNumber? (cs ++ rest) = some (n, ds ++ rest) := by
  obtain ⟨c, cs, rfl⟩ : ∃ c cs', cs = c :: cs' := by
    cases cs with
    | nil => cases h
    | cons c cs => exact ⟨c, cs, rfl⟩
  have hminus : minusLength (c :: cs ++ rest) = minusLength (c :: cs) := by
    rw [List.cons_append, minusLength_cons, minusLength_cons]
  have hle : minusLength (c :: cs) ≤ (c :: cs).length := by
    rw [minusLength_cons, List.length_cons]
    split <;> omega
  rw [readNumber?_eq] at h ⊢
  rw [hminus, List.drop_append_of_le_length hle, wholeRun_append hrest]
  have hwhole := length_wholeRun_le ((c :: cs).drop (minusLength (c :: cs)))
  rw [List.length_drop] at hwhole
  generalize minusLength (c :: cs) = sign at *
  generalize c :: cs = cs at *
  split at h
  · cases h
  · rename_i k hk
    rw [hk] at hwhole
    have hfraction := fractionLength_le (cs.drop (sign + (k + 1)))
    rw [List.length_drop] at hfraction
    rw [List.drop_append_of_le_length (by omega : sign + (k + 1) ≤ cs.length),
      fractionLength_append hrest]
    generalize fractionLength (cs.drop (sign + (k + 1))) = fraction at *
    have hexponent := exponentLength_le (cs.drop (sign + (k + 1) + fraction))
    rw [List.length_drop] at hexponent
    rw [List.drop_append_of_le_length (by omega : sign + (k + 1) + fraction ≤ cs.length),
      exponentLength_append hrest]
    generalize exponentLength (cs.drop (sign + (k + 1) + fraction)) = exponent at *
    rw [List.drop_append_of_le_length (by omega), numberAt,
      List.take_append_of_le_length (by omega)]
    rw [numberAt] at h
    obtain ⟨v, hv, hpair⟩ := Option.map_eq_some_iff.1 h
    obtain ⟨rfl, rfl⟩ := Prod.mk.inj hpair
    rw [hv]
    rfl

/-! ### Words and numbers as values -/

theorem afterWord?_append (hrest : Closes rest) {w : List Char}
    (hw : ∀ c ∈ w, c ≠ ',' ∧ c ≠ ']' ∧ c ≠ '\x7d') (cs : List Char) :
    afterWord? w (cs ++ rest) = (afterWord? w cs).map (· ++ rest) := by
  induction w generalizing cs with
  | nil => rfl
  | cons c w ih =>
      rw [List.forall_mem_cons] at hw
      cases cs with
      | nil =>
          cases rest with
          | nil => rfl
          | cons d rest =>
              have hne : c ≠ d := by
                rintro rfl
                obtain h | h | h := hrest c rfl
                · exact hw.1.1 h
                · exact hw.1.2.1 h
                · exact hw.1.2.2 h
              simp [afterWord?, hne]
      | cons d cs =>
          rw [List.cons_append, afterWord?, afterWord?]
          split
          · exact ih hw.2 cs
          · rfl

/-- A word at the front of a text, and what follows. -/
def word? (cs : List Char) : Option (Datum × List Char) :=
  words.findSome? fun p => (afterWord? p.1 cs).map fun after => (p.2, after)

theorem word?_append (hrest : Closes rest) (cs : List Char) :
    word? (cs ++ rest) = (word? cs).map fun p => (p.1, p.2 ++ rest) := by
  have hwords : ∀ p ∈ words, ∀ c ∈ p.1, c ≠ ',' ∧ c ≠ ']' ∧ c ≠ '\x7d' := by
    simp [words]
  rw [word?, word?, List.map_findSome?]
  generalize words = ws at *
  induction ws with
  | nil => rfl
  | cons p ws ih =>
      rw [List.forall_mem_cons] at hwords
      rw [List.findSome?_cons, List.findSome?_cons, ih hwords.2, Function.comp_apply,
        afterWord?_append hrest hwords.1]
      cases afterWord? p.1 cs <;> rfl

/-- A value that is neither a text nor a list nor an object. -/
theorem readValue_scalar (fuel : Nat) {cs : List Char}
    (hcs : ∀ c ∈ cs.head?, c ≠ '"' ∧ c ≠ '[' ∧ c ≠ '\x7b') :
    readValue (fuel + 1) cs =
      match word? cs with
      | some found => some found
      | none => (readNumber? cs).map fun p => (.number p.1, p.2) := by
  cases cs with
  | nil => rfl
  | cons c cs =>
      obtain ⟨hquote, hbracket, hbrace⟩ := hcs c rfl
      rw [readValue]
      · rfl
      all_goals
        rintro _ ⟨⟩
        contradiction

/-- A number that is read from its own text. -/
def Legible (n : Number) : Prop := readValue 1 (numberText n).toList = some (.number n, [])

/-- The first character of a value. -/
def Starts (c : Char) : Prop := isSpace c = false ∧ c ≠ ']' ∧ c ≠ '\x7d'

theorem Legible.exists_cons (h : Legible n) : ∃ c cs, (numberText n).toList = c :: cs ∧ Starts c ∧
    c ≠ '"' ∧ c ≠ '[' ∧ c ≠ '\x7b' := by
  rw [Legible] at h
  cases hcs : (numberText n).toList with
  | nil =>
      rw [hcs] at h
      cases h
  | cons c cs =>
      rw [hcs] at h
      have hne {d : Char} (hd : readValue 1 (d :: cs) ≠ some (.number n, [])) : c ≠ d :=
        fun heq => hd (heq ▸ h)
      refine ⟨c, cs, rfl, ⟨?_, hne (nofun), hne (nofun)⟩, hne ?_, hne ?_, hne ?_⟩
      · cases hspace : isSpace c with
        | false => rfl
        | true =>
            simp only [isSpace, Bool.or_eq_true, beq_iff_eq] at hspace
            obtain ((rfl | rfl) | rfl) | rfl := hspace <;> cases h
      · intro htext
        rw [readValue] at htext
        obtain ⟨_, _, hpair⟩ := Option.map_eq_some_iff.1 htext
        cases hpair
      · intro hlist
        rw [readValue] at hlist
        split at hlist <;> cases hlist
      · intro hobject
        rw [readValue] at hobject
        split at hobject <;> cases hobject

/-- A number is read wherever it is written. -/
theorem Legible.readValue (h : Legible n) (fuel : Nat) (hrest : Closes rest) :
    Datum.readValue (fuel + 1) ((numberText n).toList ++ rest) = some (.number n, rest) := by
  obtain ⟨c, cs, hcs, -, hfirst⟩ := h.exists_cons
  rw [Legible, hcs, readValue_scalar 0 (by simpa using hfirst)] at h
  rw [hcs, readValue_scalar fuel (by simpa using hfirst), word?_append hrest]
  cases hword : word? (c :: cs) with
  | some found =>
      rw [hword] at h
      obtain rfl : found = (.number n, []) := Option.some.inj h
      rfl
  | none =>
      rw [hword] at h
      obtain ⟨⟨m, ds⟩, hnumber, hpair⟩ := Option.map_eq_some_iff.1 h
      obtain ⟨hm, rfl⟩ := Prod.mk.inj hpair
      obtain rfl : m = n := Datum.number.inj hm
      rw [Option.map_none]
      dsimp only
      rw [readNumber?_append hrest hnumber]
      rfl

theorem legible_of_readNumber? {c : Char} {cs : List Char} (htext : (numberText n).toList = c :: cs)
    (hfirst : c ≠ '"' ∧ c ≠ '[' ∧ c ≠ '\x7b') (hword : (word? (c :: cs)).isNone = true)
    (h : readNumber? (c :: cs) = some (n, [])) : Legible n := by
  rw [Legible, htext, readValue_scalar 0 (by simpa using hfirst), Option.isNone_iff_eq_none.1 hword, h]
  rfl

/-! ### Lists and objects -/

mutual

/-- All numbers of a datum are read from their texts, and no object has two
members of one name. -/
def Sound : Datum → Prop
  | .number n => Legible n
  | .list items => SoundItems items
  | .object ms => (ms.map Prod.fst).Nodup ∧ SoundMembers ms
  | .null => True
  | .flag _ => True
  | .text _ => True

def SoundItems : List Datum → Prop
  | [] => True
  | d :: ds => Sound d ∧ SoundItems ds

def SoundMembers : List (String × Datum) → Prop
  | [] => True
  | m :: ms => Sound m.2 ∧ SoundMembers ms

end

/-- A text from which a datum is read, wherever it stands in a document. -/
structure ReadFrom (d : Datum) (cs : List Char) : Prop where
  starts : ∀ c ∈ cs.head?, Starts c
  ne_nil : cs ≠ []
  read : ∀ fuel rest, 2 * cs.length ≤ fuel → Closes rest →
    Datum.readValue fuel (cs ++ rest) = some (d, rest)

/-- Texts of items, one behind the other. -/
def joined (texts : List String) : List Char := [',', ' '].intercalate (texts.map String.toList)

theorem joined_cons_cons (t u : String) (ts : List String) :
    joined (t :: u :: ts) = t.toList ++ ',' :: ' ' :: joined (u :: ts) := by
  simp [joined, List.intercalate_cons_cons]

@[simp] theorem joined_singleton (t : String) : joined [t] = t.toList := by
  simp [joined, List.intercalate_singleton]

theorem toList_enclosed (level : Nat) {opening closing : String} {texts : List String} :
    (enclosed .plain level opening closing texts).toList =
      opening.toList ++ (joined texts ++ closing.toList) := by
  unfold enclosed
  cases texts with
  | nil => simp [joined]
  | cons t ts =>
      have hseparator : (", " : String).toList = [',', ' '] := rfl
      simp [Style.plain, String.toList_intercalate, joined, hseparator]

theorem skipSpace_append {d : Datum} {cs : List Char} (h : ReadFrom d cs) (rest : List Char) :
    skipSpace (cs ++ rest) = cs ++ rest := by
  obtain ⟨c, cs, rfl⟩ := List.exists_cons_of_ne_nil h.ne_nil
  exact List.dropWhile_cons_of_neg (by simp [(h.starts c rfl).1])

theorem skipSpace_blank (cs : List Char) : skipSpace (' ' :: cs) = skipSpace cs := rfl

theorem ReadFrom.length_pos {d : Datum} {cs : List Char} (h : ReadFrom d cs) : 0 < cs.length :=
  List.length_pos_iff.2 h.ne_nil

theorem closes_cons {c : Char} (h : c = ',' ∨ c = ']' ∨ c = '\x7d') (rest : List Char) :
    Closes (c :: rest) := by
  rintro _ ⟨⟩
  exact h

/-- Items are read one by one. -/
theorem readItems_joined {d : Datum} {ds : List Datum} {t : String} {texts : List String}
    (hd : ReadFrom d t.toList) (h : List.Forall₂ (fun d t => ReadFrom d t.toList) ds texts)
    {fuel : Nat} (hfuel : 2 * (joined (t :: texts)).length < fuel) (rest : List Char) :
    readItems fuel (joined (t :: texts) ++ ']' :: rest) = some (d :: ds, rest) := by
  obtain ⟨fuel, rfl⟩ := Nat.exists_eq_succ_of_ne_zero (Nat.ne_zero_of_lt hfuel)
  have hpos := hd.length_pos
  induction h generalizing d t fuel with
  | nil =>
      rw [joined_singleton] at hfuel ⊢
      rw [readItems, skipSpace_append hd, hd.read fuel _ (by omega) (closes_cons (by simp) rest)]
      rfl
  | @cons d' t' ds texts hd' _ ih =>
      rw [joined_cons_cons, List.length_append, List.length_cons, List.length_cons] at hfuel
      rw [joined_cons_cons, List.append_assoc, List.cons_append, List.cons_append]
      have hitems : readItems fuel (' ' :: (joined (t' :: texts) ++ ']' :: rest)) =
          some (d' :: ds, rest) := by
        obtain ⟨fuel, rfl⟩ : ∃ k, fuel = k + 1 := ⟨fuel - 1, by omega⟩
        have := ih hd' fuel (by omega) hd'.length_pos
        rwa [readItems] at this ⊢
      rw [readItems, skipSpace_append hd, hd.read fuel _ (by omega) (closes_cons (by simp) _)]
      simp only [Option.bind_eq_bind, Option.bind_some]
      have hcomma (cs : List Char) : skipSpace (',' :: cs) = ',' :: cs := rfl
      rw [hcomma]
      simp only [hitems, Option.bind_some]
      rfl

/-- The text of a member. -/
def memberText (m : String × Datum) (t : String) : String := quotedText true m.1 ++ ": " ++ t

theorem put_of_notMem {key : String} {value : Datum} {known : List (String × Datum)}
    (h : key ∉ known.map Prod.fst) : put key value known = known ++ [(key, value)] := by
  induction known with
  | nil => rfl
  | cons m known ih =>
      rw [List.map_cons, List.mem_cons, not_or] at h
      rw [put, if_neg (Ne.symm h.1), ih h.2, List.cons_append]

/-- The head of an object's rest, with one member read. -/
theorem readMembers_member {m : String × Datum} {t : String} (hm : ReadFrom m.2 t.toList)
    {known : List (String × Datum)} (hnew : m.1 ∉ known.map Prod.fst) {fuel : Nat}
    (hfuel : 2 * t.toList.length ≤ fuel) {rest : List Char} (hrest : Closes rest) :
    readMembers (fuel + 1) known ((memberText m t).toList ++ rest) =
      match skipSpace rest with
      | ',' :: more => readMembers fuel (known ++ [m]) more
      | '\x7d' :: after => some (known ++ [m], after)
      | _ => none := by
  have htext : (memberText m t).toList ++ rest =
      '"' :: (m.1.toList.flatMap (quotedChar true) ++ ['"'] ++ ':' :: ' ' :: (t.toList ++ rest)) := by
    have hcolon : (": " : String).toList = [':', ' '] := rfl
    simp [memberText, toList_quotedText, hcolon]
  rw [htext, readMembers]
  have hquote (cs : List Char) : skipSpace ('"' :: cs) = '"' :: cs := rfl
  have hcolon (cs : List Char) : skipSpace (':' :: cs) = ':' :: cs := rfl
  simp only [hquote, quotedRest_quotedText, Option.bind_eq_bind, Option.bind_some, hcolon,
    skipSpace_blank, skipSpace_append hm, hm.read fuel rest hfuel hrest, String.ofList_toList,
    put_of_notMem hnew]
  rfl

theorem readMembers_joined {m : String × Datum} {ms : List (String × Datum)} {t : String}
    {texts : List String} (hm : ReadFrom m.2 t.toList)
    (h : List.Forall₂ (fun m t => ReadFrom m.2 t.toList) ms texts)
    {known : List (String × Datum)} (hdistinct : ((known ++ m :: ms).map Prod.fst).Nodup)
    {fuel : Nat} (hfuel : 2 * (joined (List.zipWith memberText (m :: ms) (t :: texts))).length < fuel)
    (rest : List Char) :
    readMembers fuel known
        (joined (List.zipWith memberText (m :: ms) (t :: texts)) ++ '\x7d' :: rest) =
      some (known ++ m :: ms, rest) := by
  obtain ⟨fuel, rfl⟩ := Nat.exists_eq_succ_of_ne_zero (Nat.ne_zero_of_lt hfuel)
  have hlength (m : String × Datum) (t : String) :
      t.toList.length ≤ (memberText m t).toList.length := by
    simp only [memberText, String.toList_append, List.length_append]
    omega
  have hnew {known : List (String × Datum)} {m : String × Datum} {ms : List (String × Datum)}
      (hdistinct : ((known ++ m :: ms).map Prod.fst).Nodup) : m.1 ∉ known.map Prod.fst := by
    rw [List.map_append, List.map_cons] at hdistinct
    intro hmem
    exact (List.nodup_append.1 hdistinct).2.2 _ hmem _ List.mem_cons_self rfl
  induction h generalizing m t fuel known with
  | nil =>
      rw [List.zipWith_cons_cons, List.zipWith_nil_left, joined_singleton] at hfuel ⊢
      have := hlength m t
      rw [readMembers_member hm (hnew hdistinct) (by omega) (closes_cons (by simp) rest)]
      rfl
  | @cons m' t' ms texts hm' _ ih =>
      rw [List.zipWith_cons_cons, List.zipWith_cons_cons, joined_cons_cons, List.length_append,
        List.length_cons, List.length_cons] at hfuel
      rw [List.zipWith_cons_cons, List.zipWith_cons_cons, joined_cons_cons, List.append_assoc,
        List.cons_append, List.cons_append]
      have := hlength m t
      have hpos := hm.length_pos
      rw [readMembers_member hm (hnew hdistinct) (by omega) (closes_cons (by simp) _)]
      have hcomma (cs : List Char) : skipSpace (',' :: cs) = ',' :: cs := rfl
      have hsplit : known ++ m :: m' :: ms = known ++ [m] ++ m' :: ms := by simp
      rw [hcomma, hsplit]
      obtain ⟨fuel, rfl⟩ : ∃ k, fuel = k + 1 := ⟨fuel - 1, by omega⟩
      rw [hsplit] at hdistinct
      have hrest := ih hm' hdistinct fuel (by rw [List.zipWith_cons_cons]; omega)
      rw [List.zipWith_cons_cons] at hrest
      show readMembers (fuel + 1) (known ++ [m]) (' ' :: (_ ++ '\x7d' :: rest)) = _
      rwa [readMembers] at hrest ⊢

/-! ### All data -/

theorem readFrom_word {d : Datum} {c : Char} {cs : List Char} (hstart : Starts c)
    (hfirst : c ≠ '"' ∧ c ≠ '[' ∧ c ≠ '\x7b') (hword : word? (c :: cs) = some (d, [])) :
    ReadFrom d (c :: cs) := by
  refine ⟨?_, List.cons_ne_nil _ _, fun fuel rest hfuel hrest => ?_⟩
  · rintro _ ⟨⟩
    exact hstart
  · obtain ⟨fuel, rfl⟩ : ∃ k, fuel = k + 1 := ⟨fuel - 1, by rw [List.length_cons] at hfuel; omega⟩
    rw [readValue_scalar fuel (by simpa using hfirst), word?_append hrest, hword]
    rfl

theorem readFrom_text (s : String) : ReadFrom (.text s) (quotedText true s).toList := by
  rw [toList_quotedText]
  refine ⟨?_, List.cons_ne_nil _ _, fun fuel rest hfuel _ => ?_⟩
  · rintro _ ⟨⟩
    exact ⟨rfl, by decide, by decide⟩
  · obtain ⟨fuel, rfl⟩ : ∃ k, fuel = k + 1 := ⟨fuel - 1, by rw [List.length_cons] at hfuel; omega⟩
    rw [List.cons_append, readValue, quotedRest_quotedText]
    simp

theorem Legible.readFrom (h : Legible n) : ReadFrom (.number n) (numberText n).toList := by
  obtain ⟨c, cs, hcs, hstart, -⟩ := h.exists_cons
  refine ⟨?_, by simp [hcs], fun fuel rest hfuel hrest => ?_⟩
  · rw [hcs]
    rintro _ ⟨⟩
    exact hstart
  · obtain ⟨fuel, rfl⟩ : ∃ k, fuel = k + 1 :=
      ⟨fuel - 1, by rw [hcs, List.length_cons] at hfuel; omega⟩
    exact h.readValue fuel hrest

theorem exists_joined_eq_cons {t : String} {c : Char} {cs : List Char} (h : t.toList = c :: cs)
    (texts : List String) (rest : List Char) : ∃ cs', joined (t :: texts) ++ rest = c :: cs' := by
  cases texts with
  | nil => exact ⟨cs ++ rest, by rw [joined_singleton, h, List.cons_append]⟩
  | cons u texts => exact ⟨_, by rw [joined_cons_cons, h, List.cons_append, List.cons_append]⟩

theorem readFrom_list {ds : List Datum} {texts : List String}
    (h : List.Forall₂ (fun d t => ReadFrom d t.toList) ds texts) :
    ReadFrom (.list ds) ('[' :: (joined texts ++ [']'])) := by
  refine ⟨?_, List.cons_ne_nil _ _, fun fuel rest hfuel _ => ?_⟩
  · rintro _ ⟨⟩
    exact ⟨rfl, by decide, by decide⟩
  · rw [List.length_cons, List.length_append] at hfuel
    obtain ⟨fuel, rfl⟩ : ∃ k, fuel = k + 1 := ⟨fuel - 1, by omega⟩
    rw [List.cons_append, List.append_assoc, List.singleton_append, readValue]
    cases h with
    | nil => rfl
    | @cons d t ds texts hd hds =>
        have hitems : readItems fuel (joined (t :: texts) ++ ']' :: rest) = some (d :: ds, rest) :=
          readItems_joined hd hds (by omega) rest
        obtain ⟨c, cs, hcs⟩ := List.exists_cons_of_ne_nil hd.ne_nil
        obtain ⟨cs', hcs'⟩ := exists_joined_eq_cons hcs texts (']' :: rest)
        have hstart := hd.starts c (by rw [hcs]; rfl)
        have hskip : skipSpace (c :: cs') = c :: cs' :=
          List.dropWhile_cons_of_neg (by simp [hstart.1])
        rw [hcs'] at hitems ⊢
        rw [hskip]
        split
        · rename_i heq
          exact absurd (List.cons.inj heq).1 hstart.2.1
        · rw [hitems]
          rfl

theorem readFrom_object {ms : List (String × Datum)} {texts : List String}
    (hdistinct : (ms.map Prod.fst).Nodup)
    (h : List.Forall₂ (fun m t => ReadFrom m.2 t.toList) ms texts) :
    ReadFrom (.object ms) ('\x7b' :: (joined (List.zipWith memberText ms texts) ++ ['\x7d'])) := by
  refine ⟨?_, List.cons_ne_nil _ _, fun fuel rest hfuel _ => ?_⟩
  · rintro _ ⟨⟩
    exact ⟨rfl, by decide, by decide⟩
  · rw [List.length_cons, List.length_append] at hfuel
    obtain ⟨fuel, rfl⟩ : ∃ k, fuel = k + 1 := ⟨fuel - 1, by omega⟩
    rw [List.cons_append, List.append_assoc, List.singleton_append, readValue]
    cases h with
    | nil => rfl
    | @cons m t ms texts hm hms =>
        have hmembers : readMembers fuel []
            (joined (List.zipWith memberText (m :: ms) (t :: texts)) ++ '\x7d' :: rest) =
              some ([] ++ m :: ms, rest) :=
          readMembers_joined hm hms hdistinct (by omega) rest
        have hquote : (memberText m t).toList = '"' :: (m.1.toList.flatMap (quotedChar true) ++
            ['"'] ++ (": " ++ t).toList) := by
          simp [memberText, toList_quotedText]
        obtain ⟨cs', hcs'⟩ := exists_joined_eq_cons hquote (List.zipWith memberText ms texts)
          ('\x7d' :: rest)
        rw [List.zipWith_cons_cons, hcs'] at hmembers
        rw [List.zipWith_cons_cons, hcs']
        have hskip : skipSpace ('"' :: cs') = '"' :: cs' := rfl
        rw [hskip]
        show Option.map _ (readMembers fuel [] ('"' :: cs')) = _
        rw [hmembers]
        rfl

theorem writeAt_number (level : Nat) (n : Number) :
    writeAt .plain level (.number n) = .ok (numberText n) := by
  cases n <;> simp [writeAt, Style.plain]

mutual

/-- Every sound datum is written as a text from which it is read. -/
theorem exists_text : ∀ (d : Datum) (level : Nat), d.Sound →
    ∃ t, writeAt .plain level d = .ok t ∧ ReadFrom d t.toList
  | .null, _, _ => ⟨"null", rfl, readFrom_word ⟨rfl, by decide, by decide⟩ (by decide) rfl⟩
  | .flag true, _, _ => ⟨"true", rfl, readFrom_word ⟨rfl, by decide, by decide⟩ (by decide) rfl⟩
  | .flag false, _, _ => ⟨"false", rfl, readFrom_word ⟨rfl, by decide, by decide⟩ (by decide) rfl⟩
  | .number n, level, h => ⟨numberText n, writeAt_number level n, Legible.readFrom h⟩
  | .text s, _, _ => ⟨quotedText true s, rfl, readFrom_text s⟩
  | .list items, level, h => by
      obtain ⟨texts, hwrite, hread⟩ := exists_texts items (level + 1) h
      refine ⟨enclosed .plain level "[" "]" texts, ?_, ?_⟩
      · rw [writeAt, hwrite]
        rfl
      · rw [toList_enclosed]
        exact readFrom_list hread
  | .object ms, level, h => by
      obtain ⟨texts, hwrite, hread⟩ := exists_memberTexts ms (level + 1) h.2
      refine ⟨enclosed .plain level "\x7b" "\x7d" (List.zipWith memberText ms texts), ?_, ?_⟩
      · have hsnd : (List.zipWith (fun m t => (m.1, memberText m t)) ms texts).map Prod.snd =
            List.zipWith memberText ms texts := by
          rw [List.map_zipWith]
        rw [writeAt, hwrite, ← hsnd]
        rfl
      · rw [toList_enclosed]
        exact readFrom_object h.1 hread

theorem exists_texts : ∀ (ds : List Datum) (level : Nat), SoundItems ds →
    ∃ texts, writeItems .plain level ds = .ok texts ∧
      List.Forall₂ (fun d t => ReadFrom d t.toList) ds texts
  | [], _, _ => ⟨[], rfl, .nil⟩
  | d :: ds, level, h => by
      obtain ⟨t, ht, hread⟩ := exists_text d level h.1
      obtain ⟨texts, htexts, hreads⟩ := exists_texts ds level h.2
      exact ⟨t :: texts, by rw [writeItems, ht, htexts]; rfl, .cons hread hreads⟩

theorem exists_memberTexts : ∀ (ms : List (String × Datum)) (level : Nat), SoundMembers ms →
    ∃ texts, writeMembers .plain level ms =
        .ok (List.zipWith (fun m t => (m.1, memberText m t)) ms texts) ∧
      List.Forall₂ (fun m t => ReadFrom m.2 t.toList) ms texts
  | [], _, _ => ⟨[], rfl, .nil⟩
  | (k, d) :: ms, level, h => by
      obtain ⟨t, ht, hread⟩ := exists_text d level h.1
      obtain ⟨texts, htexts, hreads⟩ := exists_memberTexts ms level h.2
      exact ⟨t :: texts, by rw [writeMembers, ht, htexts]; rfl, .cons hread hreads⟩

end

/-- A sound datum is read back from its text. -/
theorem read_write {d : Datum} (h : d.Sound) : read (write d) = .ok d := by
  obtain ⟨t, hwrite, hread⟩ := exists_text d 0 h
  have htext : write d = t := by rw [write, writeWith, hwrite]; rfl
  have hvalue := hread.read (2 * t.toList.length + 2) [] (by omega) (by simp [Closes])
  have hskip := skipSpace_append hread []
  rw [List.append_nil] at hvalue hskip
  rw [htext, read, read?]
  simp only [hskip, hvalue]
  rfl

end Gantry.Datum
