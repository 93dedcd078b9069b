import Mathlib
import Scriptlet.Decimal.Binary

namespace Scriptlet

/-- Neither negative nor `-0.0` nor NaN. -/
def Unsigned (x : Float) : Prop := x.isNaN = false ∧ Decimal.isNegative x = false

namespace Decimal

open Float.Model Float.Model.UnpackedFloat

abbrev Word := BitVec Format.binary64.numBits

theorem toNat_unpackExponent (b : Word) : (unpackExponent b).toNat = b.toNat / 2 ^ 52 % 2 ^ 11 := by
  simp [unpackExponent, Nat.shiftRight_eq_div_pow]

theorem toNat_unpackMantissa (b : Word) : (unpackMantissa b).toNat = b.toNat % 2 ^ 52 := by
  simp [unpackMantissa]

theorem toNat_unpackSign (b : Word) : (unpackSign b).toNat = b.toNat / 2 ^ 63 % 2 := by
  simp [unpackSign, Nat.shiftRight_eq_div_pow]

theorem toNat_packComponents (s : Sign) (e : BitVec 11) (m : BitVec 52) :
    (packComponents Format.binary64 s e m).toNat =
      s.toBitVec.toNat * 2 ^ 63 + e.toNat * 2 ^ 52 + m.toNat := by
  rw [packComponents, BitVec.toNat_append, BitVec.toNat_append,
    ← Nat.shiftLeft_add_eq_or_of_lt e.isLt, ← Nat.shiftLeft_add_eq_or_of_lt m.isLt,
    Nat.shiftLeft_eq, Nat.shiftLeft_eq]
  omega

theorem toBitVec_ofBitVec (v : BitVec 1) : (Sign.ofBitVec v).toBitVec = v := by
  rcases BitVec.eq_zero_or_eq_one v with rfl | rfl <;> rfl

theorem packComponents_unpack (b : Word) :
    packComponents Format.binary64 (Sign.ofBitVec (unpackSign b)) (unpackExponent b)
      (unpackMantissa b) = b := by
  have bound : b.toNat < 2 ^ 64 := b.isLt
  apply BitVec.eq_of_toNat_eq
  rw [toNat_packComponents, toBitVec_ofBitVec, toNat_unpackSign, toNat_unpackExponent,
    toNat_unpackMantissa]
  omega

theorem toNat_implicit (m : BitVec 52) : (1#1 ++ m).toNat = 2 ^ 52 + m.toNat := by
  rw [BitVec.toNat_append, ← Nat.shiftLeft_add_eq_or_of_lt m.isLt, Nat.shiftLeft_eq]
  rfl

theorem pack_subnormal (s : Sign) (m : BitVec 52) (pos : 0 < m.toNat) {e : Int}
    (least : e = -1074) :
    pack Format.binary64 (.finite s m.toNat e pos) = packComponents Format.binary64 s 0#11 m := by
  have short : m.toNat.log2 < 52 := (Nat.log2_lt (by omega)).mpr m.isLt
  subst least
  rw [UnpackedFloat.pack, if_neg (by decide),
    if_neg (by simp only [Format.mantissaBits]; omega), BitVec.ofNat_toNat,
    BitVec.setWidth_eq]

theorem pack_normal (s : Sign) (e : BitVec 11) (m : BitVec 52) (below : e ≠ -1#11)
    (pos : 0 < (1#1 ++ m).toNat) {e' : Int} (same : e' = e.toNat - 1075) :
    pack Format.binary64 (.finite s (1#1 ++ m).toNat e' pos) =
      packComponents Format.binary64 s e m := by
  have small : m.toNat < 2 ^ 52 := m.isLt
  have ne : e.toNat ≠ 2047 := fun top => below (BitVec.eq_of_toNat_eq top)
  have long : (2 ^ 52 + m.toNat).log2 = 52 :=
    (Nat.log2_eq_iff (by omega)).mpr (by omega)
  have biased : (e' + (Format.binary64.exponentBias : Nat) +
      Format.binary64.mantissaBitsWithoutImplicit).toNat = e.toNat := by
    have bias : Format.binary64.exponentBias = 1023 := rfl
    have bits : Format.binary64.mantissaBitsWithoutImplicit = 52 := rfl
    omega
  have rest : BitVec.ofNat 52 (2 ^ 52 + m.toNat) = m := by
    apply BitVec.eq_of_toNat_eq
    rw [BitVec.toNat_ofNat]
    omega
  rw [UnpackedFloat.pack]
  simp only [biased, toNat_implicit, long]
  rw [if_neg (by omega), if_pos (show 52 + 1 = Format.binary64.mantissaBits from rfl),
    BitVec.ofNat_toNat, BitVec.setWidth_eq, rest]

theorem pack_unpack {b : Word} (number : (unpack Format.binary64 b).isNaN = false) :
    pack Format.binary64 (unpack Format.binary64 b) = b := by
  have whole := packComponents_unpack b
  unfold UnpackedFloat.unpack at number ⊢
  simp only at number ⊢
  split at number
  · split at number
    · rename_i top zero
      rw [if_pos top, if_pos zero]
      rw [top, zero] at whole
      exact whole
    · cases number
  · rename_i below
    rw [if_neg below]
    split
    · rename_i low
      split
      · rename_i zero
        rw [low, zero] at whole
        exact whole
      · rw [low] at whole
        exact (pack_subnormal _ _ _ (by rw [low]; rfl)).trans whole
    · exact (pack_normal _ _ _ below _ rfl).trans whole

theorem unpackExponent_eq_top_iff (b : Word) :
    unpackExponent b = -1#11 ↔ b.toNat / 2 ^ 52 % 2 ^ 11 = 2047 := by
  rw [← toNat_unpackExponent]
  exact ⟨fun h => h ▸ rfl, fun h => BitVec.eq_of_toNat_eq h⟩

theorem unpackMantissa_eq_zero_iff (b : Word) :
    unpackMantissa b = 0#52 ↔ b.toNat % 2 ^ 52 = 0 := by
  rw [← toNat_unpackMantissa]
  exact ⟨fun h => h ▸ rfl, fun h => BitVec.eq_of_toNat_eq h⟩

theorem isNaN_unpack (b : Word) : (unpack Format.binary64 b).isNaN ↔
    b.toNat / 2 ^ 52 % 2 ^ 11 = 2047 ∧ b.toNat % 2 ^ 52 ≠ 0 := by
  rw [← unpackExponent_eq_top_iff, ne_eq, ← unpackMantissa_eq_zero_iff]
  unfold UnpackedFloat.unpack
  simp only
  split
  · split <;> simp_all [UnpackedFloat.isNaN]
  · split
    · split <;> simp_all [UnpackedFloat.isNaN]
    · simp_all [UnpackedFloat.isNaN]

theorem toBits_ofBits {b : UInt64} (number : (unpack Format.binary64 b.toBitVec).isNaN = false) :
    (Float.ofBits b).toBits = b := by
  have same := pack_unpack number
  exact congrArg UInt64.ofBitVec same

theorem eq_of_toBits {x y : Float} (same : x.toBits = y.toBits) : x = y := by
  cases x with | ofModel x => cases y with | ofModel y =>
  cases x with | mk x => cases y with | mk y =>
  cases same
  rfl

theorem infinityBits_eq : infinityBits = 2047 * 2 ^ 52 := rfl

theorem isNegative_iff (x : Float) : isNegative x ↔ 2 ^ 63 ≤ x.toBits.toNat := decide_eq_true_iff

theorem not_isNaN_of_le {b : Word} (le : b.toNat ≤ infinityBits) :
    (unpack Format.binary64 b).isNaN = false := by
  rw [Bool.eq_false_iff, ne_eq, isNaN_unpack]
  rw [infinityBits_eq] at le
  omega

theorem unsigned_iff (x : Float) : Unsigned x ↔ x.toBits.toNat ≤ infinityBits := by
  have nan : x.isNaN = (unpack Format.binary64 x.toBits.toBitVec).isNaN := rfl
  rw [Unsigned, nan, Bool.eq_false_iff, Bool.eq_false_iff, ne_eq, ne_eq, isNaN_unpack,
    isNegative_iff, UInt64.toNat_toBitVec, infinityBits_eq]
  omega

theorem toBits_ofBits_ofNat {n : Nat} (le : n ≤ infinityBits) :
    (Float.ofBits (UInt64.ofNat n)).toBits.toNat = n := by
  have word : (UInt64.ofNat n).toNat = n := by
    rw [infinityBits_eq] at le
    exact UInt64.toNat_ofNat_of_lt' (Nat.lt_of_le_of_lt le (by decide))
  rw [toBits_ofBits (not_isNaN_of_le (Nat.le_trans (Nat.le_of_eq word) le)), word]

theorem unsigned_ofBits {n : Nat} (le : n ≤ infinityBits) :
    Unsigned (Float.ofBits (UInt64.ofNat n)) := by
  rwa [unsigned_iff, toBits_ofBits_ofNat le]

theorem ofBits_toBits {x : Float} (unsigned : Unsigned x) : Float.ofBits x.toBits = x :=
  eq_of_toBits (toBits_ofBits unsigned.1)

end Decimal

end Scriptlet
