import Scriptlet.Proofs.Values.Quantity

namespace Scriptlet

theorem compare_of_strictMono {α β : Type} [LinearOrder α] [LinearOrder β] {f : α → β}
    (mono : StrictMono f) (a b : α) : compare (f a) (f b) = compare a b := by
  rw [← cmp_eq_compare, ← cmp_eq_compare]
  exact mono.cmp_map_eq a b

namespace Decimal

open Float.Model Float.Model.UnpackedFloat

def Binary.value (b : Binary) : ℚ := b.mantissa * 2 ^ b.exponent

/-- The form in which finite reals are kept: as many digits in the mantissa as there can be. -/
structure Canonical (b : Binary) : Prop where
  small : b.mantissa < 2 ^ 53
  low : minExponent ≤ b.exponent
  high : b.exponent ≤ 971
  normal : 2 ^ 52 ≤ b.mantissa ∨ b.exponent = minExponent

theorem Binary.value_pos {b : Binary} (pos : 0 < b.mantissa) : 0 < b.value := by
  have pos' : (0 : ℚ) < b.mantissa := Nat.cast_pos.mpr pos
  rw [Binary.value]
  positivity

namespace Canonical

variable {b c : Binary}

theorem value_lt (hb : Canonical b) (hc : Canonical c) (lt : b.exponent < c.exponent) :
    b.value < c.value := by
  have least := hb.low
  have large : 2 ^ 52 ≤ c.mantissa := hc.normal.resolve_right (by omega)
  have small : (b.mantissa : ℚ) < 2 ^ 53 := by exact_mod_cast hb.small
  have large : (2 : ℚ) ^ 52 ≤ c.mantissa := by exact_mod_cast large
  calc (b.mantissa * 2 ^ b.exponent : ℚ) < 2 ^ 53 * 2 ^ b.exponent := by gcongr
    _ = 2 ^ 52 * 2 ^ (b.exponent + 1) := by
      rw [zpow_add₀ two_ne_zero]
      ring
    _ ≤ c.mantissa * 2 ^ c.exponent := by
      gcongr
      · exact one_le_two
      · omega

theorem compare_value (hb : Canonical b) (hc : Canonical c) :
    compare b.value c.value =
      (compare b.exponent c.exponent).then (compare b.mantissa c.mantissa) := by
  rcases lt_trichotomy b.exponent c.exponent with lt | same | gt
  · rw [compare_lt_iff_lt.mpr lt, compare_lt_iff_lt.mpr (hb.value_lt hc lt)]
    rfl
  · have scale : StrictMono fun m : Nat => (m * 2 ^ c.exponent : ℚ) := by
      intro m n lt
      simp only
      gcongr
    rw [Binary.value, Binary.value, same, compare_eq_iff_eq.mpr rfl]
    exact compare_of_strictMono scale b.mantissa c.mantissa
  · rw [compare_gt_iff_gt.mpr gt, compare_gt_iff_gt.mpr (hc.value_lt hb gt)]
    rfl

end Canonical

def signOf (x : Float) : Sign := if isNegative x then .negative else .positive

def signedBy : Sign → ℚ → ℚ
  | .negative, q => -q
  | .positive, q => q

theorem signedBy_zero (s : Sign) : signedBy s 0 = 0 := by
  cases s with
  | positive => rfl
  | negative => exact neg_zero

def ofParts (s : Sign) (b : Binary) : UnpackedFloat :=
  if pos : 0 < b.mantissa then .finite s b.mantissa b.exponent pos else .zero s

theorem signed_eq (x : Float) : signed x = signedBy (signOf x) (Binary.ofFloat x).value := by
  rw [signed, signOf]
  split <;> rfl

theorem compare_neg_neg (p q : ℚ) : compare (-p) (-q) = (compare p q).swap := by
  have anti : StrictAnti fun q : ℚ => -q := fun _ _ => neg_lt_neg
  rw [← cmp_eq_compare, ← cmp_eq_compare, cmp_swap]
  exact anti.cmp_map_eq p q

/-- The real that the parts make up is a finite one, and stands for the number. -/
inductive Stands : UnpackedFloat → ℚ → Prop
  | zero (s : Sign) : Stands (.zero s) 0
  | finite (s : Sign) {b : Binary} (canonical : Canonical b) (pos : 0 < b.mantissa) :
      Stands (.finite s b.mantissa b.exponent pos) (signedBy s b.value)

namespace Stands

theorem of_parts (s : Sign) {b : Binary} (canonical : Canonical b) :
    Stands (ofParts s b) (signedBy s b.value) := by
  rw [ofParts]
  split
  · rename_i pos
    exact .finite s canonical pos
  · rename_i nothing
    have zero : b.value = 0 := by
      rw [Binary.value, Nat.eq_zero_of_not_pos nothing, Nat.cast_zero, zero_mul]
    rw [zero, signedBy_zero]
    exact .zero s

variable {u v : UnpackedFloat} {p q : ℚ}

theorem compare_eq (hu : Stands u p) (hv : Stands v q) : u.compare v = some (compare p q) := by
  cases hu with
  | zero s =>
    cases hv with
    | zero s' => exact congrArg some (compare_eq_iff_eq.mpr rfl).symm
    | @finite s' c canonical pos =>
      have above := Binary.value_pos pos
      cases s' with
      | positive => exact congrArg some (compare_lt_iff_lt.mpr above).symm
      | negative => exact congrArg some (compare_gt_iff_gt.mpr (neg_lt_zero.mpr above)).symm
  | @finite s b canonical pos =>
    have above := Binary.value_pos pos
    cases hv with
    | zero s' =>
      cases s with
      | positive => exact congrArg some (compare_gt_iff_gt.mpr above).symm
      | negative => exact congrArg some (compare_lt_iff_lt.mpr (neg_lt_zero.mpr above)).symm
    | @finite s' c canonical' pos' =>
      have above' := Binary.value_pos pos'
      cases s with
      | positive =>
        cases s' with
        | positive => exact congrArg some (canonical.compare_value canonical').symm
        | negative =>
          have below := (neg_lt_zero.mpr above').trans above
          exact congrArg some (compare_gt_iff_gt.mpr below).symm
      | negative =>
        cases s' with
        | positive =>
          have below := (neg_lt_zero.mpr above).trans above'
          exact congrArg some (compare_lt_iff_lt.mpr below).symm
        | negative =>
          have swapped := compare_neg_neg b.value c.value
          rw [canonical.compare_value canonical'] at swapped
          exact congrArg some swapped.symm

end Stands

theorem canonical_ofFloat {x : Float} (number : x.isNaN = false) (bounded : x.isInf = false) :
    Canonical (Binary.ofFloat x) := by
  obtain ⟨m, e, eq, low, high, small, normal, -⟩ := (finite_absolute number bounded).decompose
  rw [ofFloat_absolute number] at eq
  rw [eq]
  exact ⟨small, low, high, normal⟩

abbrev word (x : Float) : Word := x.toBits.toBitVec

theorem ofBitVec_unpackSign (x : Float) : Sign.ofBitVec (unpackSign (word x)) = signOf x := by
  have bit := toNat_unpackSign (word x)
  have zero : unpackSign (word x) = 0#1 ↔ (unpackSign (word x)).toNat = 0 :=
    ⟨fun h => h ▸ rfl, fun h => BitVec.eq_of_toNat_eq h⟩
  have bound := x.toBits.toNat_lt
  simp only [signOf, Sign.ofBitVec, zero, bit, isNegative_iff, UInt64.toNat_toBitVec]
  by_cases negative : 2 ^ 63 ≤ x.toBits.toNat
  · rw [if_pos negative, if_neg (by omega)]
  · rw [if_neg negative, if_pos (by omega)]

theorem unpack_eq {x : Float} (number : x.isNaN = false) (bounded : x.isInf = false) :
    x.toModel.unpack = ofParts (signOf x) (Binary.ofFloat x) := by
  have bits := finite_iff.mp ⟨number, bounded⟩
  rw [infinityBits_eq] at bits
  have exponent := toNat_unpackExponent (word x)
  have mantissa := toNat_unpackMantissa (word x)
  rw [UInt64.toNat_toBitVec] at exponent mantissa
  have fields : Binary.ofFloat x = if x.toBits.toNat / 2 ^ 52 % 2 ^ 11 = 0
      then ⟨x.toBits.toNat % 2 ^ 52, -1074⟩
      else ⟨x.toBits.toNat % 2 ^ 52 + 2 ^ 52,
        (x.toBits.toNat / 2 ^ 52 % 2 ^ 11 : Nat) - 1075⟩ := rfl
  rw [← exponent, ← mantissa] at fields
  have below : unpackExponent (word x) ≠ -1#11 := by
    intro top
    have top : (unpackExponent (word x)).toNat = 2047 := congrArg BitVec.toNat top
    omega
  have unpacked : x.toModel.unpack = UnpackedFloat.unpack Format.binary64 (word x) := rfl
  rw [unpacked, UnpackedFloat.unpack]
  simp only [ofBitVec_unpackSign]
  rw [if_neg below]
  by_cases low : unpackExponent (word x) = 0#11
  · rw [if_pos low, fields, low]
    by_cases zero : unpackMantissa (word x) = 0#52
    · rw [dif_pos zero, zero]
      rfl
    · have pos : 0 < (unpackMantissa (word x)).toNat :=
        Nat.pos_of_ne_zero fun none => zero (BitVec.eq_of_toNat_eq none)
      rw [dif_neg zero]
      exact (dif_pos pos).symm
  · have nonzero : (unpackExponent (word x)).toNat ≠ 0 := fun zero =>
      low (BitVec.eq_of_toNat_eq zero)
    rw [if_neg low, fields, if_neg nonzero, ← Nat.add_comm (2 ^ 52), ← toNat_implicit]
    exact (dif_pos (by rw [toNat_implicit]; omega)).symm

theorem stands_unpack {x : Float} (number : x.isNaN = false) (bounded : x.isInf = false) :
    Stands x.toModel.unpack (signed x) := by
  rw [unpack_eq number bounded, signed_eq]
  exact .of_parts _ (canonical_ofFloat number bounded)

theorem toBits_word {n : Nat} (bound : n < 2 ^ 64) (number : n % 2 ^ 63 ≤ infinityBits) :
    (Float.ofBits (UInt64.ofNat n)).toBits.toNat = n := by
  have word : (UInt64.ofNat n).toNat = n := UInt64.toNat_ofNat_of_lt' bound
  rw [toBits_ofBits, word]
  rw [Bool.eq_false_iff, ne_eq, isNaN_unpack, UInt64.toNat_toBitVec, word]
  rw [infinityBits_eq] at number
  omega

theorem Canonical.exists_real {b : Binary} (canonical : Canonical b) (s : Sign) :
    ∃ x : Float, x.isNaN = false ∧ x.isInf = false ∧ signOf x = s ∧ Binary.ofFloat x = b := by
  obtain ⟨m, e⟩ := b
  obtain ⟨small, low, high, normal⟩ := canonical
  simp only [minExponent] at small low high normal
  obtain ⟨top, tops⟩ : ∃ top, top = 2 ^ 63 ∧ s = .negative ∨ top = 0 ∧ s = .positive := by
    cases s
    · exact ⟨_, .inl ⟨rfl, rfl⟩⟩
    · exact ⟨_, .inr ⟨rfl, rfl⟩⟩
  obtain ⟨bits, sum⟩ : ∃ bits, bits = top + (e + 1074).toNat * 2 ^ 52 + m := ⟨_, rfl⟩
  have word : (Float.ofBits (UInt64.ofNat bits)).toBits.toNat = bits :=
    toBits_word (by omega) (by rw [infinityBits_eq]; omega)
  refine ⟨Float.ofBits (UInt64.ofNat bits), ?_⟩
  rw [← and_assoc, finite_iff, word, infinityBits_eq, signOf]
  simp only [isNegative_iff, word, Binary.ofFloat, Nat.pow_eq]
  refine ⟨by omega, ?_, ?_⟩
  · rcases tops with ⟨rfl, rfl⟩ | ⟨rfl, rfl⟩
    · rw [if_pos (by omega)]
    · rw [if_neg (by omega)]
  · split
    · rw [Binary.mk.injEq, minExponent]
      omega
    · rw [Binary.mk.injEq]
      omega

theorem Stands.exists_real {u : UnpackedFloat} {q : ℚ} (stands : Stands u q) :
    ∃ x : Float, x.isNaN = false ∧ x.toModel.unpack = u ∧ signed x = q := by
  have given {s : Sign} {b : Binary} (canonical : Canonical b) :
      ∃ x : Float, x.isNaN = false ∧ x.toModel.unpack = ofParts s b ∧
        signed x = signedBy s b.value := by
    obtain ⟨x, number, bounded, rfl, rfl⟩ := canonical.exists_real s
    exact ⟨x, number, unpack_eq number bounded, signed_eq x⟩
  cases stands with
  | zero s =>
    have nothing : Canonical ⟨0, minExponent⟩ := ⟨by decide, le_refl _, by decide, .inr rfl⟩
    obtain ⟨x, number, parts, value⟩ := @given s _ nothing
    refine ⟨x, number, parts, value.trans ?_⟩
    rw [Binary.value, Nat.cast_zero, zero_mul, signedBy_zero]
  | finite s canonical pos =>
    obtain ⟨x, number, parts, value⟩ := @given s _ canonical
    exact ⟨x, number, parts.trans (dif_pos pos), value⟩

theorem Stands.pack {u : UnpackedFloat} {q : ℚ} (stands : Stands u q) :
    (Float.Model.pack u).unpack = u ∧ signed (.ofModel (Float.Model.pack u)) = q := by
  obtain ⟨x, number, rfl, rfl⟩ := stands.exists_real
  have same : Float.ofModel (Float.Model.pack x.toModel.unpack) = x := by
    apply eq_of_toBits
    have word := pack_unpack number
    exact congrArg UInt64.ofBitVec word
  exact ⟨congrArg (fun y : Float => y.toModel.unpack) same, congrArg signed same⟩

theorem Canonical.targetExponent_eq {b : Binary} (canonical : Canonical b) (pos : 0 < b.mantissa) :
    Format.binary64.targetExponent (totalExponent b.mantissa b.exponent) = b.exponent := by
  obtain ⟨small, low, high, normal⟩ := canonical
  have short : b.mantissa.log2 ≤ 52 := Nat.lt_succ_iff.mp ((Nat.log2_lt pos.ne').mpr small)
  have long : 2 ^ 52 ≤ b.mantissa → 52 ≤ b.mantissa.log2 := (Nat.le_log2 pos.ne').mpr
  simp only [Format.targetExponent, totalExponent, Format.mantissaBits, Format.minExponent,
    minExponent] at low normal ⊢
  omega

theorem shiftToTargetExponent_eq {b : Binary} (canonical : Canonical b) (pos : 0 < b.mantissa) :
    shiftToTargetExponent Format.binary64 b.mantissa b.exponent .exact =
      (⟨b.mantissa, false, false⟩, b.exponent) := by
  rw [shiftToTargetExponent, canonical.targetExponent_eq pos, shiftToExponent, Int.sub_self]
  exact congrArg (Prod.mk _) (Int.add_zero _)

theorem roundWithAccuracy_eq (s : Sign) {b : Binary} (canonical : Canonical b)
    (pos : 0 < b.mantissa) : roundWithAccuracy Format.binary64 s b.mantissa b.exponent .exact =
      .finite s b.mantissa b.exponent pos := by
  have shifted := shiftToTargetExponent_eq canonical pos
  have rounded : ExtendedMantissa.roundedMantissa ⟨b.mantissa, false, false⟩ = b.mantissa := rfl
  unfold roundWithAccuracy
  simp only [shifted, rounded]
  exact dif_neg pos.ne'

theorem exists_shift {m : Nat} {e : Int} (pos : 0 < m) (small : m < 2 ^ 53)
    (low : minExponent ≤ e) (high : e ≤ 971) : ∃ k : Nat, Canonical ⟨m * 2 ^ k, e - k⟩ ∧
      Format.binary64.targetExponent (totalExponent m e) = e - k := by
  have short : m.log2 ≤ 52 := Nat.lt_succ_iff.mp ((Nat.log2_lt pos.ne').mpr small)
  have least : 2 ^ m.log2 ≤ m := Nat.log2_self_le pos.ne'
  have most : m < 2 ^ (m.log2 + 1) := Nat.lt_log2_self
  rw [minExponent] at low
  obtain ⟨k, moved⟩ : ∃ k : Nat, k = min (52 - m.log2) (e + 1074).toNat := ⟨_, rfl⟩
  refine ⟨k, ⟨?_, ?_, ?_, ?_⟩, ?_⟩
  · calc m * 2 ^ k < 2 ^ (m.log2 + 1) * 2 ^ k := by gcongr
      _ = 2 ^ (m.log2 + 1 + k) := (Nat.pow_add ..).symm
      _ ≤ 2 ^ 53 := Nat.pow_le_pow_right (by decide) (by omega)
  · simp only [minExponent]
    omega
  · simp only
    omega
  · by_cases full : k = 52 - m.log2
    · left
      calc 2 ^ 52 = 2 ^ (m.log2 + k) := by rw [full, Nat.add_sub_cancel' short]
        _ = 2 ^ m.log2 * 2 ^ k := Nat.pow_add ..
        _ ≤ m * 2 ^ k := by gcongr
    · right
      simp only [minExponent]
      omega
  · simp only [Format.targetExponent, totalExponent, Format.mantissaBits, Format.minExponent]
    omega

theorem stands_round (s : Sign) {m : Nat} {e : Int} (pos : 0 < m) (small : m < 2 ^ 53)
    (low : minExponent ≤ e) (high : e ≤ 971) :
    Stands (round Format.binary64 s m e) (signedBy s (Binary.value ⟨m, e⟩)) := by
  obtain ⟨k, canonical, target⟩ := exists_shift pos small low high
  have pos' : 0 < m * 2 ^ k := Nat.mul_pos pos (Nat.two_pow_pos k)
  have same : Binary.value ⟨m, e⟩ = Binary.value ⟨m * 2 ^ k, e - k⟩ := by
    simp only [Binary.value]
    rw [zpow_sub₀ two_ne_zero, zpow_natCast]
    push_cast
    field_simp
  have shift : (e - (e - k)).toNat = k := by omega
  have kept := roundWithAccuracy_eq s canonical pos'
  rw [same, UnpackedFloat.round]
  simp only [target, decreaseExponent, shift, Nat.shiftLeft_eq]
  rw [kept]
  exact .finite s canonical pos'

theorem stands_normalize (n : Int) (s : Sign) {e : Int} (small : |n| < 2 ^ 53)
    (low : minExponent ≤ e) (high : e ≤ 971) :
    Stands (UnpackedFloat.normalize Format.binary64 n e s) (n * 2 ^ e) := by
  rw [UnpackedFloat.normalize]
  rcases lt_trichotomy n 0 with neg | rfl | pos
  · obtain ⟨m, rfl⟩ := Int.exists_eq_neg_ofNat neg.le
    rw [abs_neg, Nat.abs_cast] at small
    have rounded := @stands_round .negative m e (by omega) (by omega) low high
    have value : signedBy .negative (Binary.value ⟨m, e⟩) = (-(m : Int) : Int) * 2 ^ e := by
      push_cast
      exact (neg_mul ..).symm
    rw [value] at rounded
    rw [compare_lt_iff_lt.mpr neg, Int.neg_neg, Int.toNat_natCast]
    exact rounded
  · rw [compare_eq_iff_eq.mpr rfl, Int.cast_zero, zero_mul]
    exact .zero s
  · obtain ⟨m, rfl⟩ := Int.eq_ofNat_of_zero_le pos.le
    rw [Nat.abs_cast] at small
    rw [compare_gt_iff_gt.mpr pos, Int.toNat_natCast]
    exact stands_round .positive (by omega) (by omega) low high

theorem Stands.sub_zero {u : UnpackedFloat} {q : ℚ} (stands : Stands u q) (s : Sign) :
    Stands (UnpackedFloat.sub Format.binary64 u (.zero s)) q := by
  cases stands with
  | zero s' =>
    rw [UnpackedFloat.sub]
    split <;> exact .zero _
  | finite s' canonical pos => exact .finite s' canonical pos

/-- Reals with the same sign and exponent differ by one that needs no rounding. -/
theorem stands_sub (s : Sign) {b c : Binary} (hb : Canonical b) (hc : Canonical c)
    (aligned : c.exponent = b.exponent) (pos : 0 < b.mantissa) (pos' : 0 < c.mantissa) :
    Stands (UnpackedFloat.sub Format.binary64 (.finite s b.mantissa b.exponent pos)
        (.finite s c.mantissa c.exponent pos'))
      (signedBy s b.value - signedBy s c.value) := by
  have small := hb.small
  have small' := hc.small
  have bound : |s.apply b.mantissa - s.apply c.mantissa| < 2 ^ 53 := by
    rw [abs_lt]
    cases s <;> simp only [Sign.apply] <;> omega
  have rounded := stands_normalize (s.apply b.mantissa - s.apply c.mantissa) .positive bound hb.low
    hb.high
  have value : signedBy s b.value - signedBy s c.value =
      ((s.apply b.mantissa - s.apply c.mantissa : Int) : ℚ) * 2 ^ b.exponent := by
    rw [Binary.value, Binary.value, aligned]
    cases s <;> simp only [signedBy, Sign.apply] <;> push_cast <;> ring
  rw [value]
  simpa [UnpackedFloat.sub, decreaseExponent, aligned] using rounded

end Decimal

end Scriptlet
