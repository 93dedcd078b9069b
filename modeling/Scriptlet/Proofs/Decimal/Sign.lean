import Scriptlet.Proofs.Decimal.Nearest

namespace Scriptlet.Decimal

open Float.Model Float.Model.UnpackedFloat

abbrev flipped (b : Word) : Word :=
  packComponents Format.binary64 (-Sign.ofBitVec (unpackSign b)) (unpackExponent b)
    (unpackMantissa b)

theorem toNat_neg_sign (s : Sign) : (-s).toBitVec.toNat = 1 - s.toBitVec.toNat := by
  cases s <;> rfl

theorem toNat_flipped (b : Word) : (flipped b).toNat = (b.toNat + 2 ^ 63) % 2 ^ 64 := by
  have bound : b.toNat < 2 ^ 64 := b.isLt
  rw [toNat_packComponents, toNat_neg_sign, toBitVec_ofBitVec, toNat_unpackSign,
    toNat_unpackExponent, toNat_unpackMantissa]
  omega

theorem pack_neg_unpack {b : Word} (number : (unpack Format.binary64 b).isNaN = false) :
    pack Format.binary64 (unpack Format.binary64 b).neg = flipped b := by
  unfold flipped
  unfold UnpackedFloat.unpack at number ⊢
  simp only at number ⊢
  split at number
  · split at number
    · rename_i top zero
      rw [if_pos top, if_pos zero, top, zero]
      rfl
    · cases number
  · rename_i below
    rw [if_neg below]
    split
    · rename_i low
      split
      · rename_i zero
        rw [low, zero]
        rfl
      · rw [low]
        exact pack_subnormal _ _ _ rfl
    · exact pack_normal _ _ _ below _ rfl

theorem isNaN_eq (x : Float) : x.isNaN = (unpack Format.binary64 x.toBits.toBitVec).isNaN := rfl

theorem toBits_neg {x : Float} (number : x.isNaN = false) :
    (-x).toBits.toNat = (x.toBits.toNat + 2 ^ 63) % 2 ^ 64 := by
  have packed := pack_neg_unpack number
  exact (congrArg BitVec.toNat packed).trans (toNat_flipped _)

theorem isNaN_iff (x : Float) : x.isNaN ↔ infinityBits < x.toBits.toNat % 2 ^ 63 := by
  rw [isNaN_eq, isNaN_unpack, UInt64.toNat_toBitVec, infinityBits_eq]
  omega

theorem isInf_unpack (b : Word) : (unpack Format.binary64 b).isInf ↔
    b.toNat / 2 ^ 52 % 2 ^ 11 = 2047 ∧ b.toNat % 2 ^ 52 = 0 := by
  rw [← unpackExponent_eq_top_iff, ← unpackMantissa_eq_zero_iff]
  unfold UnpackedFloat.unpack
  simp only
  split
  · split <;> simp_all [UnpackedFloat.isInf]
  · split
    · split <;> simp_all [UnpackedFloat.isInf]
    · simp_all [UnpackedFloat.isInf]

theorem isInf_iff (x : Float) : x.isInf ↔ x.toBits.toNat % 2 ^ 63 = infinityBits := by
  have packed : x.isInf = (unpack Format.binary64 x.toBits.toBitVec).isInf := rfl
  rw [packed, isInf_unpack, UInt64.toNat_toBitVec, infinityBits_eq]
  omega

variable {x : Float}

theorem finite_iff : x.isNaN = false ∧ x.isInf = false ↔
    x.toBits.toNat % 2 ^ 63 < infinityBits := by
  rw [Bool.eq_false_iff, Bool.eq_false_iff, ne_eq, ne_eq, isNaN_iff, isInf_iff]
  omega

theorem isNaN_neg (number : x.isNaN = false) : (-x).isNaN = false := by
  have word := number
  rw [Bool.eq_false_iff, ne_eq, isNaN_iff] at word ⊢
  rw [toBits_neg number]
  omega

theorem neg_neg (number : x.isNaN = false) : - -x = x := by
  have bound := x.toBits.toNat_lt
  apply eq_of_toBits
  apply UInt64.toNat_inj.mp
  rw [toBits_neg (isNaN_neg number), toBits_neg number]
  omega

theorem ofFloat_neg (number : x.isNaN = false) : Binary.ofFloat (-x) = Binary.ofFloat x := by
  have bound := x.toBits.toNat_lt
  have field : (-x).toBits.toNat / 2 ^ 52 % 2 ^ 11 = x.toBits.toNat / 2 ^ 52 % 2 ^ 11 := by
    rw [toBits_neg number]
    omega
  have fraction : (-x).toBits.toNat % 2 ^ 52 = x.toBits.toNat % 2 ^ 52 := by
    rw [toBits_neg number]
    omega
  simp only [Binary.ofFloat, Nat.pow_eq, field, fraction]

def absolute (x : Float) : Float := if isNegative x then -x else x

theorem ofFloat_absolute (number : x.isNaN = false) :
    Binary.ofFloat (absolute x) = Binary.ofFloat x := by
  rw [absolute]
  split
  · exact ofFloat_neg number
  · rfl

theorem finite_absolute (number : x.isNaN = false) (bounded : x.isInf = false) :
    Finite (absolute x) := by
  have bits := finite_iff.mp ⟨number, bounded⟩
  have bound := x.toBits.toNat_lt
  rw [Finite, absolute]
  split
  · rename_i negative
    rw [isNegative_iff] at negative
    rw [toBits_neg number]
    omega
  · rename_i nonnegative
    rw [isNegative_iff] at nonnegative
    omega

end Scriptlet.Decimal
