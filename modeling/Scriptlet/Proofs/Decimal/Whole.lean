import Scriptlet.Proofs.Decimal.Parts

namespace Scriptlet.Decimal

open Float.Model Float.Model.UnpackedFloat

def Binary.whole (b : Binary) : Nat := ⌊b.value⌋₊

theorem Binary.whole_eq (b : Binary) :
    b.whole = b.mantissa * 2 ^ b.exponent.toNat / 2 ^ (-b.exponent).toNat := by
  have parts : b.value =
      (b.mantissa * 2 ^ b.exponent.toNat : Nat) / (2 ^ (-b.exponent).toNat : Nat) := by
    rw [Binary.value, zpow_parts]
    push_cast
    ring
  rw [whole, parts, Nat.floor_div_eq_div]

theorem mantissa_shiftRight (k : Nat) (m : ExtendedMantissa) :
    (m >>> k).mantissa = m.mantissa / 2 ^ k := by
  induction k with
  | zero => exact (Nat.div_one _).symm
  | succ k ih =>
    show (m >>> k).mantissa / 2 = _
    rw [ih, Nat.div_div_eq_div_mul, Nat.pow_succ]

theorem toInt_ofParts (s : Sign) (b : Binary) (least most : Int) :
    (ofParts s b).toInt least most = s.apply b.whole := by
  rw [ofParts]
  split
  · rw [UnpackedFloat.toInt, roundToInt]
    simp only [decreaseExponent, shiftToExponent, mantissa_shiftRight, Nat.shiftLeft_eq,
      ExtendedMantissa.ofMantissaAndAccuracy, Binary.whole_eq, Int.sub_zero]
    have shift : (0 - (b.exponent - b.exponent.toNat)).toNat = (-b.exponent).toNat := by omega
    rw [shift]
  · rename_i nothing
    rw [Binary.whole_eq, Nat.eq_zero_of_not_pos nothing, Nat.zero_mul, Nat.zero_div]
    cases s <;> rfl

/-- The real without what stands after its point: those bits are cleared. -/
def truncated (x : Float) : Float :=
  let exponent := (Binary.ofFloat x).exponent
  let cleared := if exponent < -52 then 63 else (-exponent).toNat
  let bits := x.toBits.toNat
  Float.ofBits (UInt64.ofNat (bits - bits % 2 ^ cleared))

variable {x : Float}

/-- The one real is the whole part of the other. -/
structure WholePart (x y : Float) : Prop where
  number : y.isNaN = false
  bounded : y.isInf = false
  sign : signOf y = signOf x
  value : (Binary.ofFloat y).value = (Binary.ofFloat x).whole
  aligned : (Binary.ofFloat y).mantissa = 0 ∨
    (Binary.ofFloat y).exponent = (Binary.ofFloat x).exponent

theorem ofFloat_cleared (finite : x.toBits.toNat % 2 ^ 63 < infinityBits) {c : Nat} (few : c ≤ 52)
    (normal : x.toBits.toNat / 2 ^ 52 % 2 ^ 11 ≠ 0) {y : Float}
    (cleared : y = Float.ofBits (UInt64.ofNat (x.toBits.toNat - x.toBits.toNat % 2 ^ c))) :
    y.isNaN = false ∧ y.isInf = false ∧ signOf y = signOf x ∧ Binary.ofFloat y =
      ⟨(Binary.ofFloat x).mantissa - (Binary.ofFloat x).mantissa % 2 ^ c,
        (Binary.ofFloat x).exponent⟩ := by
  have bound := x.toBits.toNat_lt
  obtain ⟨n, bits⟩ : ∃ n, x.toBits.toNat = n := ⟨_, rfl⟩
  rw [bits] at finite normal bound cleared
  rw [infinityBits_eq] at finite
  have divides : 2 ^ c ∣ 2 ^ 52 := Nat.pow_dvd_pow 2 few
  have low : n % 2 ^ 52 % 2 ^ c = n % 2 ^ c := Nat.mod_mod_of_dvd n divides
  have implicit : (n % 2 ^ 52 + 2 ^ 52) % 2 ^ c = n % 2 ^ c := by
    rw [← low, Nat.add_mod, Nat.mod_eq_zero_of_dvd divides, Nat.add_zero, Nat.mod_mod]
  have le : n % 2 ^ c ≤ n % 2 ^ 52 := low ▸ Nat.mod_le _ _
  obtain ⟨r, rest⟩ : ∃ r, n % 2 ^ c = r := ⟨_, rfl⟩
  rw [rest] at le implicit cleared
  have bits' : y.toBits.toNat = n - r := by
    rw [cleared]
    exact toBits_word (by omega) (by rw [infinityBits_eq]; omega)
  have field : (n - r) / 2 ^ 52 % 2 ^ 11 = n / 2 ^ 52 % 2 ^ 11 := by omega
  rw [← and_assoc, finite_iff, signOf, signOf]
  simp only [isNegative_iff, Binary.ofFloat, bits, bits', Nat.pow_eq, field, if_neg normal,
    implicit, infinityBits_eq]
  refine ⟨by omega, ?_, ?_⟩
  · by_cases negative : 2 ^ 63 ≤ n
    · rw [if_pos negative, if_pos (by omega)]
    · rw [if_neg negative, if_neg (by omega)]
  · rw [Binary.mk.injEq]
    omega

theorem ofFloat_emptied {y : Float}
    (cleared : y = Float.ofBits (UInt64.ofNat (x.toBits.toNat - x.toBits.toNat % 2 ^ 63))) :
    y.isNaN = false ∧ y.isInf = false ∧ signOf y = signOf x ∧
      Binary.ofFloat y = ⟨0, minExponent⟩ := by
  have bound := x.toBits.toNat_lt
  have bits' : y.toBits.toNat = x.toBits.toNat - x.toBits.toNat % 2 ^ 63 := by
    rw [cleared]
    exact toBits_word (by omega) (by rw [infinityBits_eq]; omega)
  rw [← and_assoc, finite_iff, signOf, signOf]
  simp only [isNegative_iff, Binary.ofFloat, bits', Nat.pow_eq, infinityBits_eq]
  refine ⟨by omega, ?_, ?_⟩
  · by_cases negative : 2 ^ 63 ≤ x.toBits.toNat
    · rw [if_pos negative, if_pos (by omega)]
    · rw [if_neg negative, if_neg (by omega)]
  · rw [if_pos (by omega), Binary.mk.injEq]
    omega

theorem value_cleared {m : Nat} {e : Int} :
    Binary.value ⟨m - m % 2 ^ (-e).toNat, e⟩ = Binary.whole ⟨m, e⟩ := by
  have multiple : m - m % 2 ^ (-e).toNat = m / 2 ^ (-e).toNat * 2 ^ (-e).toNat := by
    have parts := Nat.div_add_mod' m (2 ^ (-e).toNat)
    omega
  rw [Binary.whole_eq, Binary.value]
  simp only [multiple]
  rcases Int.le_total 0 e with nonneg | nonpos
  · obtain ⟨k, rfl⟩ := Int.eq_ofNat_of_zero_le nonneg
    simp
  · obtain ⟨k, rfl⟩ := Int.exists_eq_neg_ofNat nonpos
    simp

theorem whole_eq_zero {b : Binary} (small : b.mantissa < 2 ^ 53) (low : b.exponent < -52) :
    b.whole = 0 := by
  rw [Binary.whole_eq, Int.toNat_of_nonpos (by omega), Nat.pow_zero, Nat.mul_one]
  apply Nat.div_eq_of_lt
  calc b.mantissa < 2 ^ 53 := small
    _ ≤ 2 ^ (-b.exponent).toNat := Nat.pow_le_pow_right (by decide) (by omega)

theorem wholePart_truncated (number : x.isNaN = false) (bounded : x.isInf = false) :
    WholePart x (truncated x) := by
  have canonical := canonical_ofFloat number bounded
  have finite := finite_iff.mp ⟨number, bounded⟩
  by_cases low : (Binary.ofFloat x).exponent < -52
  · have cleared : truncated x =
        Float.ofBits (UInt64.ofNat (x.toBits.toNat - x.toBits.toNat % 2 ^ 63)) := by
      simp only [truncated, if_pos low]
    obtain ⟨number', bounded', sign, parts⟩ := ofFloat_emptied cleared
    refine ⟨number', bounded', sign, ?_, .inl (by rw [parts])⟩
    rw [whole_eq_zero canonical.small low, parts, Binary.value, Nat.cast_zero, zero_mul]
  · have cleared : truncated x = Float.ofBits (UInt64.ofNat
        (x.toBits.toNat - x.toBits.toNat % 2 ^ (-(Binary.ofFloat x).exponent).toNat)) := by
      simp only [truncated, if_neg low]
    have normal : x.toBits.toNat / 2 ^ 52 % 2 ^ 11 ≠ 0 := by
      intro zero
      apply low
      rw [Binary.ofFloat]
      simp only [Nat.pow_eq, if_pos zero]
      decide
    obtain ⟨number', bounded', sign, parts⟩ := ofFloat_cleared finite (by omega) normal cleared
    refine ⟨number', bounded', sign, ?_, .inr (by rw [parts])⟩
    rw [parts]
    exact value_cleared

def toward (x : Float) : Int := (signOf x).apply (Binary.ofFloat x).whole

theorem toward_bounds (x : Float) :
    0 ≤ toward x ∧ (toward x : ℚ) ≤ signed x ∧ signed x < toward x + 1 ∨
      toward x ≤ 0 ∧ signed x ≤ toward x ∧ (toward x : ℚ) < signed x + 1 := by
  have nonneg : 0 ≤ (Binary.ofFloat x).value := by
    rw [Binary.value]
    positivity
  have low : ((Binary.ofFloat x).whole : ℚ) ≤ (Binary.ofFloat x).value := Nat.floor_le nonneg
  have high : (Binary.ofFloat x).value < (Binary.ofFloat x).whole + 1 := Nat.lt_floor_add_one _
  rw [toward, signed_eq]
  cases signOf x with
  | positive => exact .inl ⟨Int.natCast_nonneg _, low, high⟩
  | negative =>
    right
    simp only [signedBy, Sign.apply, Int.cast_neg, Int.cast_natCast]
    exact ⟨by omega, by linarith, by linarith⟩

theorem abs_toward_le (x : Float) : |(toward x : ℚ)| ≤ |signed x| ∧ |signed x - toward x| < 1 := by
  rcases toward_bounds x with ⟨sign, low, high⟩ | ⟨sign, low, high⟩
  · have sign' : (0 : ℚ) ≤ toward x := by exact_mod_cast sign
    rw [abs_of_nonneg sign', abs_of_nonneg (sign'.trans low), abs_lt]
    exact ⟨low, by linarith, by linarith⟩
  · have sign' : (toward x : ℚ) ≤ 0 := by exact_mod_cast sign
    rw [abs_of_nonpos sign', abs_of_nonpos (low.trans sign'), abs_lt]
    exact ⟨by linarith, by linarith, by linarith⟩

theorem compare_toward (n : Int) (x : Float) : compare (n : ℚ) (signed x) =
    (compare n (toward x)).then (compare 0 (signed x - toward x)) := by
  have bounds := toward_bounds x
  rcases lt_trichotomy n (toward x) with lt | rfl | gt
  · have next : (n : ℚ) + 1 ≤ toward x := by exact_mod_cast lt
    rw [compare_lt_iff_lt.mpr lt, compare_lt_iff_lt.mpr]
    · rfl
    · rcases bounds with ⟨-, low, -⟩ | ⟨-, -, high⟩ <;> linarith
  · rw [compare_eq_iff_eq.mpr rfl, Ordering.then]
    rcases lt_trichotomy (toward x : ℚ) (signed x) with lt | eq | gt
    · rw [compare_lt_iff_lt.mpr lt, compare_lt_iff_lt.mpr (sub_pos.mpr lt)]
    · rw [← eq, sub_self, compare_eq_iff_eq.mpr rfl, compare_eq_iff_eq.mpr rfl]
    · rw [compare_gt_iff_gt.mpr gt, compare_gt_iff_gt.mpr (sub_neg.mpr gt)]
  · have next : (toward x : ℚ) + 1 ≤ n := by exact_mod_cast gt
    rw [compare_gt_iff_gt.mpr gt, compare_gt_iff_gt.mpr]
    · rfl
    · rcases bounds with ⟨-, -, high⟩ | ⟨-, low, -⟩ <;> linarith

namespace WholePart

variable {y : Float}

theorem signed_eq (part : WholePart x y) : signed y = toward x := by
  rw [Decimal.signed_eq, part.sign, part.value, toward]
  cases signOf x with
  | positive => rfl
  | negative =>
    rw [signedBy, Sign.apply, Int.cast_neg, Int.cast_natCast]

theorem toInt_eq (part : WholePart x y) (least most : Int) :
    y.toModel.unpack.toInt least most = toward x := by
  have whole : (Binary.ofFloat y).whole = (Binary.ofFloat x).whole := by
    rw [Binary.whole, part.value, Nat.floor_natCast]
  rw [unpack_eq part.number part.bounded, toInt_ofParts, part.sign, whole, toward]

/-- The whole part is taken away without rounding. -/
theorem stands_sub (part : WholePart x y) (number : x.isNaN = false) (bounded : x.isInf = false) :
    Stands (UnpackedFloat.sub Format.binary64 x.toModel.unpack y.toModel.unpack)
      (signed x - toward x) := by
  rw [unpack_eq part.number part.bounded]
  by_cases pos : 0 < (Binary.ofFloat y).mantissa
  · have pos' : 0 < (Binary.ofFloat x).mantissa := by
      by_contra nothing
      have zero : (Binary.ofFloat x).whole = 0 := by
        rw [Binary.whole_eq, Nat.eq_zero_of_not_pos nothing, Nat.zero_mul, Nat.zero_div]
      have above := Binary.value_pos pos
      rw [part.value, zero] at above
      exact lt_irrefl _ above
    have exponent := part.aligned.resolve_left pos.ne'
    have canonical := canonical_ofFloat part.number part.bounded
    rw [unpack_eq number bounded, ← part.signed_eq, Decimal.signed_eq, Decimal.signed_eq, part.sign,
      ofParts, ofParts, dif_pos pos, dif_pos pos']
    exact Decimal.stands_sub (signOf x) (canonical_ofFloat number bounded) canonical exponent
      pos' pos
  · have nothing : toward x = (0 : ℚ) := by
      rw [← part.signed_eq, Decimal.signed_eq, Binary.value, Nat.eq_zero_of_not_pos pos,
        Nat.cast_zero, zero_mul, signedBy_zero]
    rw [nothing, sub_zero, ofParts, dif_neg pos]
    exact (stands_unpack number bounded).sub_zero _

end WholePart

end Scriptlet.Decimal
