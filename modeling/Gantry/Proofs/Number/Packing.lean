import Gantry.Proofs.Number.Word
import Mathlib

/-!
Words as the arithmetic of the machine takes them apart and puts them
together. Packing loses nothing but what a word without a number was.
-/

namespace Gantry.Binary64

open Float.Model (UnpackedFloat Format)
open Float.Model.UnpackedFloat

variable {x : Binary64}

/-! ### Unpacking -/

/-- The sign of a double, as the arithmetic of the machine knows it. -/
def direction (x : Binary64) : Sign := if x.signBit then .negative else .positive

/-- The word as the arithmetic of the machine takes it apart. -/
def packed (x : Binary64) : BitVec Format.binary64.numBits := x.bits.toBitVec

/-- What a double stands for. -/
def unpacked (x : Binary64) : UnpackedFloat := UnpackedFloat.unpack Format.binary64 x.packed

/-- The double that a result is packed into. -/
def ofUnpacked (r : UnpackedFloat) : Binary64 :=
  ⟨UInt64.ofBitVec (UnpackedFloat.pack Format.binary64 r)⟩

theorem toNat_packComponents (s : Sign) (e : BitVec 11) (m : BitVec 52) :
    (packComponents Format.binary64 s e m).toNat =
      s.toBitVec.toNat * 2 ^ 63 + (e.toNat * hiddenBit + m.toNat) := by
  have he := e.isLt
  have hm := m.isLt
  simp only [packComponents, BitVec.toNat_append]
  rw [← Nat.shiftLeft_add_eq_or_of_lt hm, ← Nat.shiftLeft_add_eq_or_of_lt he]
  simp only [Nat.shiftLeft_eq, hiddenBit]
  simp
  omega

theorem toNat_unpackMantissa (x : Binary64) :
    (unpackMantissa x.packed).toNat = x.magnitude % hiddenBit := by
  rw [magnitude_eq]
  simp [packed, unpackMantissa, hiddenBit]

theorem toNat_unpackExponent (x : Binary64) :
    (unpackExponent x.packed).toNat = x.magnitude / hiddenBit := by
  have := x.bits.toNat_lt
  rw [magnitude_eq]
  simp [packed, unpackExponent, Nat.shiftRight_eq_div_pow, hiddenBit]
  omega

theorem ofBitVec_unpackSign (x : Binary64) :
    Sign.ofBitVec (unpackSign x.packed) = x.direction := by
  have := x.bits.toNat_lt
  simp only [direction, signBit_eq, Sign.ofBitVec, ← BitVec.toNat_inj, decide_eq_true_iff]
  unfold unpackSign
  simp [packed, Nat.shiftRight_eq_div_pow]
  split <;> split <;> first | rfl | omega

theorem unpackExponent_eq_ones_iff (x : Binary64) :
    unpackExponent x.packed = -1#_ ↔ infinityWord ≤ x.magnitude := by
  have hlt := magnitude_lt x
  rw [← BitVec.toNat_inj, toNat_unpackExponent]
  show x.magnitude / 0x10000000000000 = 2047 ↔ 0x7ff0000000000000 ≤ x.magnitude
  omega

theorem unpackMantissa_eq_zero_iff (x : Binary64) :
    unpackMantissa x.packed = 0#_ ↔ x.magnitude % hiddenBit = 0 := by
  rw [← BitVec.toNat_inj, toNat_unpackMantissa]
  rfl

/-- Among the words with the largest exponent, those of the infinities have no fraction. -/
theorem fraction_eq_zero_iff (h : infinityWord ≤ x.magnitude) :
    x.magnitude % hiddenBit = 0 ↔ x.magnitude = infinityWord := by
  have hlt := magnitude_lt x
  simp only [infinityWord, hiddenBit] at *
  omega

theorem unpacked_eq (x : Binary64) : x.unpacked =
    if x.isNaN then .notANumber
    else if x.isInfinite then .infinity x.direction
    else if h : x.magnitude = 0 then .zero x.direction
    else .finite x.direction x.significand x.exponent (significand_pos h) := by
  have hones := unpackExponent_eq_ones_iff x
  have hmantissa := unpackMantissa_eq_zero_iff x
  have hexponent : unpackExponent x.packed = 0#_ ↔ x.magnitude / hiddenBit = 0 := by
    rw [← BitVec.toNat_inj, toNat_unpackExponent]
    rfl
  have hfraction : x.magnitude % hiddenBit < 2 ^ Format.binary64.mantissaBitsWithoutImplicit :=
    Nat.mod_lt _ (by decide)
  have hsmall : x.magnitude / hiddenBit = 0 → x.magnitude % hiddenBit = x.magnitude := fun h =>
    Nat.mod_eq_of_lt ((Nat.div_eq_zero_iff_lt (by decide)).1 h)
  unfold unpacked UnpackedFloat.unpack
  dsimp only
  rw [ofBitVec_unpackSign]
  by_cases hspecial : infinityWord ≤ x.magnitude
  · rw [if_pos (hones.2 hspecial)]
    by_cases hinfinite : x.magnitude = infinityWord
    · rw [if_pos (hmantissa.2 ((fraction_eq_zero_iff hspecial).2 hinfinite)), if_neg (by rw [isNaN_iff]; omega),
        if_pos (isInfinite_iff.2 hinfinite)]
    · rw [if_neg (mt hmantissa.1 (mt (fraction_eq_zero_iff hspecial).1 hinfinite)),
        if_pos (by rw [isNaN_iff]; omega)]
  · have hnumber : ¬infinityWord < x.magnitude := by omega
    have hfinite : ¬x.magnitude = infinityWord := by omega
    rw [if_neg (mt hones.1 hspecial), if_neg (mt isNaN_iff.1 hnumber),
      if_neg (mt isInfinite_iff.1 hfinite)]
    by_cases hfield : x.magnitude / hiddenBit = 0
    · rw [if_pos (hexponent.2 hfield)]
      by_cases hzero : x.magnitude = 0
      · rw [dif_pos (hmantissa.2 ((hsmall hfield).trans hzero)), dif_pos hzero]
      · rw [dif_neg (mt hmantissa.1 ((hsmall hfield).symm ▸ hzero)), dif_neg hzero]
        congr 1
        · rw [toNat_unpackMantissa, significand, if_pos hfield, hsmall hfield]
        · rw [toNat_unpackExponent, exponent, if_pos hfield, hfield]
          rfl
    · rw [if_neg (mt hexponent.1 hfield), dif_neg fun h => hfield (by rw [h, Nat.zero_div])]
      congr 1
      · rw [significand, if_neg hfield, BitVec.toNat_append, toNat_unpackMantissa,
          ← Nat.shiftLeft_add_eq_or_of_lt hfraction]
        rfl
      · rw [toNat_unpackExponent, exponent, if_neg hfield]
        rfl

/-! ### Packing -/

/-- A word put together of its three fields. -/
def ofFields (s : Sign) (e : BitVec 11) (m : BitVec 52) : Binary64 :=
  ⟨UInt64.ofBitVec (packComponents Format.binary64 s e m)⟩

theorem toNat_ofFields (s : Sign) (e : BitVec 11) (m : BitVec 52) :
    (ofFields s e m).bits.toNat = s.toBitVec.toNat * 2 ^ 63 + (e.toNat * hiddenBit + m.toNat) :=
  toNat_packComponents s e m

theorem fields_lt (e : BitVec 11) (m : BitVec 52) : e.toNat * hiddenBit + m.toNat < 2 ^ 63 := by
  have he := e.isLt
  have hm := m.isLt
  simp only [hiddenBit]
  omega

@[simp] theorem magnitude_ofFields (s : Sign) (e : BitVec 11) (m : BitVec 52) :
    (ofFields s e m).magnitude = e.toNat * hiddenBit + m.toNat := by
  have hlt := fields_lt e m
  rw [magnitude_eq, toNat_ofFields]
  cases s <;> simp [Sign.toBitVec] <;> omega

@[simp] theorem direction_ofFields (s : Sign) (e : BitVec 11) (m : BitVec 52) :
    (ofFields s e m).direction = s := by
  have hlt := fields_lt e m
  rw [direction, signBit_eq, toNat_ofFields]
  cases s
  · rw [if_pos (decide_eq_true (by simp [Sign.toBitVec]))]
  · rw [if_neg (by simpa [Sign.toBitVec] using hlt)]

theorem ofUnpacked_infinity (s : Sign) : ofUnpacked (.infinity s) = ofFields s (-1#_) 0 := rfl

theorem ofUnpacked_zero (s : Sign) : ofUnpacked (.zero s) = ofFields s 0 0 := rfl

theorem ofUnpacked_finite {s : Sign} {m : Nat} {e : Int} {h : 0 < m} :
    ofUnpacked (.finite s m e h) =
      if 972 ≤ e then ofFields s (-1#_) 0
      else if m.log2 = 52 then ofFields s (BitVec.ofNat _ (e + 1075).toNat) (BitVec.ofNat _ m)
      else ofFields s 0#_ (BitVec.ofNat _ m) := by
  have hbias : (e + (Format.binary64.exponentBias : Int) +
      (Format.binary64.mantissaBitsWithoutImplicit : Int)).toNat = (e + 1075).toNat := by
    change (e + 1023 + 52).toNat = _
    omega
  have hbits : m.log2 + 1 = Format.binary64.mantissaBits ↔ m.log2 = 52 := by
    change m.log2 + 1 = 1 + 52 ↔ _
    omega
  have hlarge : 2 ^ Format.binary64.exponentBits ≤ (e + 1075).toNat + 1 ↔ 972 ≤ e := by
    change 2048 ≤ _ ↔ _
    omega
  unfold ofUnpacked UnpackedFloat.pack
  dsimp only
  rw [hbias, if_congr hbits rfl rfl, if_congr hlarge rfl rfl]
  split
  · rfl
  · split <;> rfl

theorem direction_ofUnpacked_finite {s : Sign} {m : Nat} {e : Int} {h : 0 < m} :
    (ofUnpacked (.finite s m e h)).direction = s := by
  rw [ofUnpacked_finite]
  split
  · simp
  · split <;> simp

theorem isNaNBits_packed (x : Binary64) : isNaNBits x.packed = x.isNaN := by
  rw [Bool.eq_iff_iff, isNaN_iff, isNaNBits, decide_eq_true_iff, unpackExponent_eq_ones_iff,
    ne_eq, unpackMantissa_eq_zero_iff]
  constructor
  · rintro ⟨hle, hne⟩
    exact hle.lt_of_ne fun h => hne ((fraction_eq_zero_iff hle).2 h.symm)
  · intro hlt
    exact ⟨hlt.le, mt (fraction_eq_zero_iff hlt.le).1 hlt.ne'⟩

/-- Packing loses nothing but what a word without a number was. -/
theorem ofUnpacked_unpacked (h : x.isNaN = false) : ofUnpacked x.unpacked = x := by
  have hpack : x.unpacked.pack Format.binary64 = x.packed := by
    rw [unpacked, pack_unpack, isNaNBits_packed, h, if_neg Bool.false_ne_true]
  rw [ofUnpacked, hpack, packed, UInt64.ofBitVec_toBitVec]

end Gantry.Binary64
