import Gantry.Proofs.Number.Arithmetic

/-!
Order of numbers by value. Numbers that are not not-a-number stand at places
of one line, so of two of them either the first is less than the second or the
second is not greater than the first.
-/

namespace Gantry

namespace Binary64

variable {x y z : Binary64}

theorem le_iff : x.le y = true ↔ x.isNaN = false ∧ y.isNaN = false ∧ x.rank ≤ y.rank := by
  simp [le, and_assoc]

theorem le_trans (hxy : x.le y = true) (hyz : y.le z = true) : x.le z = true := by
  rw [le_iff] at *
  exact ⟨hxy.1, hyz.2.1, hxy.2.2.trans hyz.2.2⟩

theorem le_refl (h : x.isNaN = false) : x.le x = true := le_iff.2 ⟨h, h, Int.le_refl _⟩

theorem not_lt (hx : x.isNaN = false) (hy : y.isNaN = false) : x.lt y = false ↔ y.le x = true := by
  simp [lt, le, hx, hy]

theorem le_of_lt (h : x.lt y = true) : x.le y = true := by
  rw [lt_iff] at h
  exact le_iff.2 ⟨h.1, h.2.1, h.2.2.le⟩

end Binary64

namespace Place

theorem lt_trans {p q r : Place} (hpq : p.lt q = true) (hqr : q.lt r = true) : p.lt r = true := by
  cases p <;> cases q <;> cases r <;> simp_all [lt]
  omega

theorem lt_or_eq_or_gt (p q : Place) : p.lt q = true ∨ p = q ∨ q.lt p = true := by
  cases p <;> cases q <;> simp [lt]
  omega

end Place

namespace Number

theorem lt_iff (a b : Number) :
    a.lt b = true ↔ ∃ p q, a.place? = some p ∧ b.place? = some q ∧ p.lt q = true := by
  have hunit : (0 : Int) < (1 <<< 1074 : Nat) := by
    rw [Nat.shiftLeft_eq]
    exact_mod_cast Nat.mul_pos Nat.one_pos (Nat.two_pow_pos _)
  unfold lt
  cases a with
  | int m =>
      cases b with
      | int n =>
          simp only [place?, decide_eq_true_eq, Option.some.injEq, exists_and_left,
            exists_eq_left', Place.lt]
          exact (Int.mul_lt_mul_right hunit).symm
      | real y => cases (Number.int m).place? <;> cases (Number.real y).place? <;> simp
  | real x => cases (Number.real x).place? <;> cases b.place? <;> simp

theorem le_iff (a b : Number) :
    a.le b = true ↔ ∃ p q, a.place? = some p ∧ b.place? = some q ∧ (p.lt q = true ∨ p = q) := by
  rw [le, Bool.or_eq_true, lt_iff, same_iff]
  constructor
  · rintro (⟨p, q, hp, hq, hlt⟩ | ⟨p, hp, hq⟩)
    · exact ⟨p, q, hp, hq, .inl hlt⟩
    · exact ⟨p, p, hp, hq, .inr rfl⟩
  · rintro ⟨p, q, hp, hq, hlt | rfl⟩
    · exact .inl ⟨p, q, hp, hq, hlt⟩
    · exact .inr ⟨p, hp, hq⟩

theorem le_of_same {a b c : Number} (h : b.same c = true) :
    (a.le b = true ↔ a.le c = true) ∧ (b.le a = true ↔ c.le a = true) := by
  obtain ⟨p, hb, hc⟩ := (same_iff b c).1 h
  simp only [le_iff, hb, hc, iff_self, and_self]

theorem lt_of_lt_of_le {a b c : Number} (hab : a.lt b = true) (hbc : b.le c = true) :
    a.lt c = true := by
  rw [lt_iff] at *
  obtain ⟨p, q, ha, hb, hpq⟩ := hab
  obtain ⟨q', r, hb', hc, hqr⟩ := (le_iff b c).1 hbc
  obtain rfl : q = q' := Option.some.inj (hb.symm.trans hb')
  refine ⟨p, r, ha, hc, ?_⟩
  rcases hqr with hqr | rfl
  · exact Place.lt_trans hpq hqr
  · exact hpq

theorem lt_of_le_of_lt {a b c : Number} (hab : a.le b = true) (hbc : b.lt c = true) :
    a.lt c = true := by
  obtain ⟨p, q, ha, hb, hpq⟩ := (le_iff a b).1 hab
  obtain ⟨q', r, hb', hc, hqr⟩ := (lt_iff b c).1 hbc
  obtain rfl : q = q' := Option.some.inj (hb.symm.trans hb')
  refine (lt_iff a c).2 ⟨p, r, ha, hc, ?_⟩
  rcases hpq with hpq | rfl
  · exact Place.lt_trans hpq hqr
  · exact hqr

theorem le_trans {a b c : Number} (hab : a.le b = true) (hbc : b.le c = true) :
    a.le c = true := by
  obtain ⟨p, q, ha, hb, hpq⟩ := (le_iff a b).1 hab
  rcases hpq with hlt | rfl
  · have hab : a.lt b = true := (lt_iff a b).2 ⟨p, q, ha, hb, hlt⟩
    have hac := lt_of_lt_of_le hab hbc
    rw [le, hac, Bool.true_or]
  · obtain ⟨p', r, hb', hc, hpr⟩ := (le_iff b c).1 hbc
    obtain rfl := Option.some.inj (hb.symm.trans hb')
    exact (le_iff a c).2 ⟨p, r, ha, hc, hpr⟩

theorem lt_irrefl (a : Number) : a.lt a = false := by
  rw [← Bool.not_eq_true, lt_iff]
  rintro ⟨p, q, hp, hq, hlt⟩
  obtain rfl : p = q := Option.some.inj (hp.symm.trans hq)
  cases p <;> simp [Place.lt] at hlt

theorem not_lt_of_le {a b : Number} (h : a.le b = true) : b.lt a = false := by
  rw [← Bool.not_eq_true]
  intro hlt
  exact Bool.false_ne_true ((lt_irrefl b).symm.trans (lt_of_lt_of_le hlt h))

theorem isNaN_of_le {a b : Number} (h : a.le b = true) : b.isNaN = false := by
  obtain ⟨p, q, -, hq, -⟩ := (le_iff a b).1 h
  rw [← Bool.not_eq_true, ← place?_eq_none_iff, hq]
  simp

theorem isNaN_left_of_le {a b : Number} (h : a.le b = true) : a.isNaN = false := by
  obtain ⟨p, q, hp, -, -⟩ := (le_iff a b).1 h
  rw [← Bool.not_eq_true, ← place?_eq_none_iff, hp]
  simp

theorem le_of_not_lt {a b : Number} (ha : a.isNaN = false) (hb : b.isNaN = false)
    (h : a.lt b = false) : b.le a = true := by
  rw [← Bool.not_eq_true, ← place?_eq_none_iff, ← Ne, Option.ne_none_iff_exists'] at ha hb
  obtain ⟨p, hp⟩ := ha
  obtain ⟨q, hq⟩ := hb
  refine (le_iff b a).2 ⟨q, p, hq, hp, ?_⟩
  rcases Place.lt_or_eq_or_gt p q with hlt | rfl | hgt
  · exact absurd ((lt_iff a b).2 ⟨p, q, hp, hq, hlt⟩) (by simp [h])
  · exact .inr rfl
  · exact .inl hgt

theorem le_of_lt {a b : Number} (h : a.lt b = true) : a.le b = true := by simp [le, h]

theorem same_le {a b : Number} (h : a.same b = true) : a.le b = true := by simp [le, h]

theorem same_eq_false_of_lt {a b : Number} (h : a.lt b = true) :
    a.same b = false ∧ b.same a = false := by
  simp only [← Bool.not_eq_true]
  refine ⟨fun hsame => ?_, fun hsame => ?_⟩
  · exact Bool.false_ne_true ((not_lt_of_le (same_le (same_symm hsame))).symm.trans h)
  · exact Bool.false_ne_true ((not_lt_of_le (same_le hsame)).symm.trans h)

theorem le_refl {a : Number} (h : a.isNaN = false) : a.le a = true := by simp [le, same_self h]

theorem isNaN_of_lt {a b : Number} (h : a.lt b = true) : a.isNaN = false := by
  obtain ⟨p, q, hp, -, -⟩ := (lt_iff a b).1 h
  rw [← Bool.not_eq_true, ← place?_eq_none_iff, hp]
  simp

theorem le_smaller_iff {a b c : Number} (ha : a.isNaN = false) (hb : b.isNaN = false) :
    c.le (a.smaller b) = true ↔ c.le a = true ∧ c.le b = true := by
  unfold smaller
  split
  · rename_i hlt
    exact ⟨fun h => ⟨le_trans h (le_of_lt hlt), h⟩, And.right⟩
  · rename_i hlt
    have hle := le_of_not_lt hb ha (Bool.eq_false_iff.2 hlt)
    exact ⟨fun h => ⟨h, le_trans h hle⟩, And.left⟩

/-- The least of some numbers is what all of them are no less than. -/
theorem le_foldl_smaller_iff {s d : Number} {ds : List Number} (hd : d.isNaN = false)
    (hds : ∀ e ∈ ds, e.isNaN = false) :
    s.le (ds.foldl smaller d) = true ↔ ∀ e ∈ d :: ds, s.le e = true := by
  induction ds generalizing d with
  | nil => simp
  | cons e ds ih =>
    rw [List.forall_mem_cons] at hds
    have hless : (d.smaller e).isNaN = false := by
      unfold smaller
      split
      · exact hds.1
      · exact hd
    rw [List.foldl_cons, ih hless hds.2]
    simp only [List.forall_mem_cons, le_smaller_iff hd hds.1, and_assoc]

/-- The greater of two numbers and then the lesser of that and a third lies
between the first and the third, whatever the second is. -/
theorem between_smaller_larger {low high : Number} (h : low.lt high = true) (a : Number) :
    low.le ((low.larger a).smaller high) = true ∧ ((low.larger a).smaller high).le high = true := by
  have hlow : low.isNaN = false := isNaN_of_lt h
  have hhigh : high.isNaN = false := isNaN_of_le (le_of_lt h)
  have hlarger : low.le (low.larger a) = true := by
    unfold larger
    split
    · rename_i hlt
      exact le_of_lt hlt
    · exact le_refl hlow
  unfold smaller
  split
  · exact ⟨le_of_lt h, le_refl hhigh⟩
  · rename_i hlt
    exact ⟨hlarger, le_of_not_lt hhigh (isNaN_of_le hlarger) (Bool.eq_false_iff.2 hlt)⟩

/-- As `between_smaller_larger`, with the arguments in the other order, so that
what is not a number ends at the upper bound. -/
theorem between_smaller_larger_symm {low high : Number} (h : low.lt high = true) (a : Number) :
    low.le (high.smaller (a.larger low)) = true ∧ (high.smaller (a.larger low)).le high = true := by
  have hlow : low.isNaN = false := isNaN_of_lt h
  unfold smaller
  split
  · rename_i hlt
    refine ⟨?_, le_of_lt hlt⟩
    unfold larger at hlt ⊢
    split
    · exact le_refl hlow
    · rename_i hnot
      rw [if_neg hnot] at hlt
      exact le_of_not_lt (isNaN_of_lt hlt) hlow (Bool.eq_false_iff.2 hnot)
  · exact ⟨le_of_lt h, le_refl (isNaN_of_le (le_of_lt h))⟩

/-- Doubles below zero are numbers below zero. -/
theorem lt_zero_of_lt_zero {x : Binary64} (h : x.lt Binary64.zero = true) :
    (Number.real x).lt (.int 0) = true := by
  obtain ⟨hnan, -, hrank⟩ := Binary64.lt_iff.1 h
  have hzero : (Number.int 0).place? = some (.at Binary64.zero.units) := by
    simp [place?, Binary64.units_eq, Binary64.wordSize, show Binary64.zero.magnitude = 0 from rfl]
  have hunits := (Binary64.units_lt_units_iff _ _).2 hrank
  have hsign : x.signBit = true := by
    by_contra hsign
    have hzrank : Binary64.zero.rank = 0 := rfl
    rw [hzrank, Binary64.rank, if_neg hsign] at hrank
    omega
  rw [lt_iff, hzero]
  simp only [place?, hnan, hsign, Bool.false_eq_true, if_false, if_true]
  split
  · exact ⟨_, _, rfl, rfl, rfl⟩
  · exact ⟨_, _, rfl, rfl, decide_eq_true hunits⟩

end Number

end Gantry
