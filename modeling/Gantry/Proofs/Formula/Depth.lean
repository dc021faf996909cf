import Gantry.Proofs.Formula.Parsing
import Gantry.Proofs.Formula.Structure

/-!
How deep formulas are. A formula is nested no deeper than it has tokens, as every level of it takes
one, and so no deeper than its text is long.
-/

namespace Gantry.Formula

variable {σ : Signature}

theorem depth_binary_le {op : String} {l r : Formula} {n : Nat} (hl : l.depth ≤ n)
    (hr : r.depth ≤ n) : (binary op l r).depth ≤ n + 1 :=
  Nat.succ_le_succ (Nat.max_le.2 ⟨hl, hr⟩)

/-- The operands of an operator have their tokens on either side of it. -/
theorem depth_binary_le_length {op : String} {l r : Formula} {ts us : List Token} {t : Token}
    (hl : l.depth ≤ ts.length) (hr : r.depth ≤ us.length) :
    (binary op l r).depth ≤ (ts ++ t :: us).length := by
  rw [List.length_append, List.length_cons]
  exact depth_binary_le (Nat.le_add_right_of_le hl) (Nat.le_add_left_of_le hr)

mutual

theorem depth_le_of_isSum : ∀ {ts : List Token} {e : Formula}, IsSum σ ts e → e.depth ≤ ts.length
  | _, _, .product h => depth_le_of_isProduct h
  | _, _, .term ha _ hb => depth_binary_le_length (depth_le_of_isSum ha) (depth_le_of_isProduct hb)

theorem depth_le_of_isProduct : ∀ {ts : List Token} {e : Formula}, IsProduct σ ts e →
    e.depth ≤ ts.length
  | _, _, .signed h => depth_le_of_isSigned h
  | _, _, .factor ha _ hb => depth_binary_le_length (depth_le_of_isProduct ha) (depth_le_of_isSigned hb)

theorem depth_le_of_isSigned : ∀ {ts : List Token} {e : Formula}, IsSigned σ ts e →
    e.depth ≤ ts.length
  | _, _, .power h => depth_le_of_isPower h
  | _, _, .sign _ h => Nat.succ_le_succ (depth_le_of_isSigned h)

theorem depth_le_of_isPower : ∀ {ts : List Token} {e : Formula}, IsPower σ ts e →
    e.depth ≤ ts.length
  | _, _, .atom h => depth_le_of_isAtom h
  | _, _, .power ha _ hb => depth_binary_le_length (depth_le_of_isAtom ha) (depth_le_of_isSigned hb)

theorem depth_le_of_isAtom : ∀ {ts : List Token} {e : Formula}, IsAtom σ ts e →
    e.depth ≤ ts.length
  | _, _, .number _ _ => Nat.le_refl 1
  | _, _, .constant _ _ => Nat.le_refl 1
  | _, _, .var _ _ => Nat.le_refl 1
  | _, _, .group _ h _ => by
      have hinside := depth_le_of_isSum h
      rw [depth, List.length_cons, List.length_append]
      omega
  | _, _, .call _ _ h _ _ => by
      have hinside := (depthAll_le_iff _ _).2 (depth_le_of_areArguments h)
      rw [depth, List.length_cons, List.length_cons, List.length_append]
      omega

theorem depth_le_of_areArguments : ∀ {ts : List Token} {args : List Formula},
    AreArguments σ ts args → ∀ a ∈ args, a.depth ≤ ts.length
  | _, _, .none => nofun
  | _, _, .last h => List.forall_mem_singleton.2 (depth_le_of_isSum h)
  | _, _, .more ha _ hb => by
      rw [List.length_append, List.length_cons]
      refine List.forall_mem_cons.2 ⟨?_, fun a hmem => ?_⟩
      · have hfirst := depth_le_of_isSum ha
        omega
      · have hrest := depth_le_of_areArguments hb a hmem
        omega

end

theorem length_le_of_tokensFrom {position : Nat} {cs : List Char} {ts : List Token}
    (h : tokensFrom position cs = .ok ts) : ts.length ≤ cs.length := by
  fun_induction tokensFrom position cs generalizing ts with
  | case1 position =>
      cases h
      exact Nat.le_refl 0
  | case2 position c rest hblank ih => exact Nat.le_succ_of_le (ih h)
  | case3 => cases h
  | case4 position c rest hblank kind n hfront ih =>
      cases htail : tokensFrom (position + n) ((c :: rest).drop n) with
      | error p =>
          rw [htail] at h
          cases h
      | ok tail =>
          rw [htail] at h
          cases h
          have hpos := length_pos_of_front? hfront
          have hlength := ih htail
          rw [List.length_drop] at hlength
          rw [List.length_cons, List.length_cons] at *
          omega

/-- A formula is nested no deeper than its text is long. -/
theorem depth_le_length {s : String} {e : Formula} (h : parse s = .ok e) :
    e.depth ≤ s.toList.length := by
  obtain ⟨ts, htokens, hsum⟩ := parseWith_eq_ok_iff.1 h
  exact Nat.le_trans (depth_le_of_isSum hsum) (length_le_of_tokensFrom htokens)

end Gantry.Formula
