import Scriptlet.Proofs.Decimal.Bits

namespace Scriptlet.Decimal

theorem unsigned_nearest (num den : Nat) : Unsigned (nearest num den) := by
  rw [nearest]
  split
  · exact unsigned_ofBits (n := 0) (Nat.zero_le _)
  · exact unsigned_ofBits (Nat.min_le_right _ _)

theorem unsigned_ofScientific (digits : Nat) (exponent : Int) :
    Unsigned (ofScientific digits exponent) := by
  rw [ofScientific]
  split
  · exact unsigned_ofBits (n := 0) (Nat.zero_le _)
  · split
    · exact unsigned_ofBits (Nat.le_refl _)
    · exact unsigned_nearest _ _

theorem zpow_parts (b : ℚ) (k : Int) : b ^ k = b ^ k.toNat / b ^ (-k).toNat := by
  rcases Int.le_total 0 k with nonneg | nonpos
  · obtain ⟨n, rfl⟩ := Int.eq_ofNat_of_zero_le nonneg
    simp
  · obtain ⟨n, rfl⟩ := Int.exists_eq_neg_ofNat nonpos
    simp

theorem two_zpow_le_iff {num den : Nat} (pos : 0 < den) (k : Int) :
    den * 2 ^ k.toNat ≤ num * 2 ^ (-k).toNat ↔ (2 : ℚ) ^ k ≤ num / den := by
  have pos' : (0 : ℚ) < den := Nat.cast_pos.mpr pos
  rw [zpow_parts, div_le_div_iff₀ (by positivity) pos', mul_comm ((2 : ℚ) ^ k.toNat)]
  norm_cast

theorem log2Fraction_eq (num den : Nat) : log2Fraction num den =
    let k : Int := (Nat.log2 num : Int) - Nat.log2 den
    if den * 2 ^ k.toNat ≤ num * 2 ^ (-k).toNat then k else k - 1 := rfl

theorem roundEven_mul {n den : Nat} (pos : 0 < den) : roundEven (n * den) den = n := by
  rw [roundEven]
  simp only [Nat.mul_div_cancel _ pos, Nat.mul_mod_left]
  rw [if_pos (by omega)]

theorem log2_bounds {n : Nat} (pos : 0 < n) :
    (2 : ℚ) ^ (n.log2 : Int) ≤ n ∧ (n : ℚ) < 2 ^ ((n.log2 : Int) + 1) := by
  constructor
  · rw [zpow_natCast]
    exact_mod_cast Nat.log2_self_le pos.ne'
  · have above : n < 2 ^ (n.log2 + 1) := Nat.lt_log2_self
    rw [← Nat.cast_succ, zpow_natCast]
    exact_mod_cast above

theorem log2Fraction_bounds {num den : Nat} (num_pos : 0 < num) (pos : 0 < den) :
    (2 : ℚ) ^ log2Fraction num den ≤ num / den ∧
      (num / den : ℚ) < 2 ^ (log2Fraction num den + 1) := by
  have two : (2 : ℚ) ≠ 0 := two_ne_zero
  have pos' : (0 : ℚ) < den := Nat.cast_pos.mpr pos
  have num' := log2_bounds num_pos
  have den' := log2_bounds pos
  rw [log2Fraction_eq]
  simp only [two_zpow_le_iff pos]
  split
  · rename_i le
    refine ⟨le, ?_⟩
    rw [div_lt_iff₀ pos']
    calc (num : ℚ) < 2 ^ ((num.log2 : Int) + 1) := num'.2
      _ = 2 ^ ((num.log2 : Int) - den.log2 + 1) * 2 ^ (den.log2 : Int) := by
        rw [← zpow_add₀ two]
        congr 1
        ring
      _ ≤ 2 ^ ((num.log2 : Int) - den.log2 + 1) * den := by
        gcongr
        exact den'.1
  · rename_i lt
    rw [not_le] at lt
    refine ⟨?_, by rwa [sub_add_cancel]⟩
    rw [le_div_iff₀ pos']
    calc (2 : ℚ) ^ ((num.log2 : Int) - den.log2 - 1) * den
        ≤ 2 ^ ((num.log2 : Int) - den.log2 - 1) * 2 ^ ((den.log2 : Int) + 1) := by
          gcongr
          exact den'.2.le
      _ = 2 ^ (num.log2 : Int) := by
        rw [← zpow_add₀ two]
        congr 1
        ring
      _ ≤ num := num'.1

theorem log2Fraction_unique {num den : Nat} (num_pos : 0 < num) (pos : 0 < den) {k : Int}
    (le : (2 : ℚ) ^ k ≤ num / den) (lt : (num / den : ℚ) < 2 ^ (k + 1)) :
    log2Fraction num den = k := by
  obtain ⟨le', lt'⟩ := log2Fraction_bounds num_pos pos
  have two : (1 : ℚ) < 2 := one_lt_two
  have below := (zpow_lt_zpow_iff_right₀ two).mp (le.trans_lt lt')
  have above := (zpow_lt_zpow_iff_right₀ two).mp (le'.trans_lt lt)
  omega

theorem log2Fraction_of_grid {num den m : Nat} (num_pos : 0 < num) (pos : 0 < den) {e : Int}
    (value : (num : ℚ) / den = m * 2 ^ e) (small : m < 2 ^ 53) :
    log2Fraction num den ≤ e + 52 ∧ (2 ^ 52 ≤ m → log2Fraction num den = e + 52) := by
  have shift (a : Nat) : (2 : ℚ) ^ (e + a) = 2 ^ a * 2 ^ e := by
    rw [zpow_add₀ two_ne_zero, zpow_natCast, mul_comm]
  have above : (num / den : ℚ) < 2 ^ (e + 52 + 1) := by
    rw [value, add_assoc]
    have bound : (m : ℚ) < 2 ^ 53 := by exact_mod_cast small
    calc (m : ℚ) * 2 ^ e < 2 ^ 53 * 2 ^ e := by gcongr
      _ = 2 ^ (e + 53) := (shift 53).symm
  constructor
  · have le := (log2Fraction_bounds num_pos pos).1
    have lt := (zpow_lt_zpow_iff_right₀ (one_lt_two : (1 : ℚ) < 2)).mp (le.trans_lt above)
    omega
  · intro large
    refine log2Fraction_unique num_pos pos ?_ above
    have bound : (2 : ℚ) ^ 52 ≤ m := by exact_mod_cast large
    calc (2 : ℚ) ^ (e + 52) = 2 ^ 52 * 2 ^ e := shift 52
      _ ≤ m * 2 ^ e := by gcongr
      _ = num / den := value.symm

/-- Finite, neither negative nor `-0.0` nor NaN. -/
def Finite (x : Float) : Prop := x.toBits.toNat < infinityBits

def magnitude (x : Float) : ℚ := (Binary.ofFloat x).mantissa * 2 ^ (Binary.ofFloat x).exponent

theorem Finite.decompose {x : Float} (finite : Finite x) : ∃ m : Nat, ∃ e : Int,
    Binary.ofFloat x = ⟨m, e⟩ ∧ minExponent ≤ e ∧ e ≤ 971 ∧ m < 2 ^ 53 ∧
    (2 ^ 52 ≤ m ∨ e = minExponent) ∧ (e - minExponent).toNat * 2 ^ 52 + m = x.toBits.toNat := by
  rw [Finite, infinityBits_eq] at finite
  have fields : Binary.ofFloat x = if x.toBits.toNat / 2 ^ 52 % 2 ^ 11 = 0
      then ⟨x.toBits.toNat % 2 ^ 52, -1074⟩
      else ⟨x.toBits.toNat % 2 ^ 52 + 2 ^ 52, (x.toBits.toNat / 2 ^ 52 % 2 ^ 11 : Nat) - 1075⟩ := rfl
  rw [fields]
  simp only [minExponent]
  split
  · exact ⟨_, _, rfl, by omega⟩
  · exact ⟨_, _, rfl, by omega⟩

theorem nearest_eq {x : Float} (finite : Finite x) {num den : Nat} (pos : 0 < den)
    (value : (num : ℚ) / den = magnitude x) : nearest num den = x := by
  obtain ⟨m, e, eq, low, high, small, normal, bits⟩ := finite.decompose
  rw [magnitude, eq] at value
  simp only at value
  have pos' : (0 : ℚ) < den := Nat.cast_pos.mpr pos
  have scaled : num * 2 ^ (-e).toNat = m * (den * 2 ^ e.toNat) := by
    rw [zpow_parts, div_eq_iff pos'.ne'] at value
    field_simp at value
    have value' : num * 2 ^ (-e).toNat = m * 2 ^ e.toNat * den := by exact_mod_cast value
    rw [value', Nat.mul_assoc, Nat.mul_comm (2 ^ e.toNat)]
  have rounded : roundEven (num * 2 ^ (-e).toNat) (den * 2 ^ e.toNat) = m := by
    rw [scaled]
    exact roundEven_mul (Nat.mul_pos pos (Nat.two_pow_pos _))
  apply eq_of_toBits
  apply UInt64.toNat_inj.mp
  rw [← bits, nearest]
  split
  · rename_i zero
    have none : m = 0 := by
      rw [zero, Nat.cast_zero, zero_div, eq_comm, mul_eq_zero] at value
      exact Nat.cast_eq_zero.mp (value.resolve_right (zpow_ne_zero _ two_ne_zero))
    have least : e = minExponent := normal.resolve_left (by omega)
    rw [none, least, Int.sub_self]
    exact toBits_ofBits_ofNat (n := 0) (Nat.zero_le _)
  · rename_i nonzero
    obtain ⟨le, eq_of_normal⟩ := log2Fraction_of_grid (Nat.pos_of_ne_zero nonzero) pos value small
    have exponent : max (log2Fraction num den - 52) minExponent = e := by
      rcases normal with large | least
      · have eq := eq_of_normal large
        omega
      · omega
    simp only [exponent, Nat.pow_eq, rounded, bits]
    rw [toBits_ofBits_ofNat (Nat.min_le_right _ _)]
    exact Nat.min_eq_left finite.le

theorem Finite.magnitude_bounds {x : Float} (finite : Finite x) :
    (magnitude x = 0 ∧ Float.ofBits 0 = x ∨ 2 ^ (-1074 : Int) ≤ magnitude x) ∧
      magnitude x < 2 ^ (1024 : Int) := by
  obtain ⟨m, e, eq, low, high, small, normal, bits⟩ := finite.decompose
  rw [minExponent] at low
  rw [magnitude, eq]
  constructor
  · rcases Nat.eq_zero_or_pos m with rfl | pos
    · have least : e = minExponent := normal.resolve_left (by omega)
      refine .inl ⟨by rw [Nat.cast_zero, zero_mul], ?_⟩
      apply eq_of_toBits
      apply UInt64.toNat_inj.mp
      rw [← bits, least, Int.sub_self]
      exact toBits_ofBits_ofNat (n := 0) (Nat.zero_le _)
    · have one : (1 : ℚ) ≤ m := by exact_mod_cast pos
      right
      calc (2 : ℚ) ^ (-1074 : Int) ≤ 2 ^ e := zpow_le_zpow_right₀ one_le_two low
        _ ≤ m * 2 ^ e := le_mul_of_one_le_left (by positivity) one
  · have bound : (m : ℚ) < 2 ^ (53 : Int) := by exact_mod_cast small
    calc (m : ℚ) * 2 ^ e < 2 ^ (53 : Int) * 2 ^ e := by gcongr
      _ = 2 ^ (53 + e) := (zpow_add₀ two_ne_zero _ _).symm
      _ ≤ 2 ^ (1024 : Int) := zpow_le_zpow_right₀ one_le_two (by omega)

theorem eight_zpow (k : Int) : (8 : ℚ) ^ k = 2 ^ (3 * k) := by
  have cube : (8 : ℚ) = 2 ^ (3 : Int) := by norm_num
  rw [cube, zpow_mul]

theorem ofScientific_eq_nearest {digits : Nat} (pos : 0 < digits) {exponent : Int}
    (low : (2 : ℚ) ^ (-1075 : Int) ≤ digits * 10 ^ exponent)
    (high : (digits : ℚ) * 10 ^ exponent < 2 ^ (1024 : Int)) : ofScientific digits exponent =
      nearest (digits * 10 ^ exponent.toNat) (10 ^ (-exponent).toNat) := by
  have two : (2 : ℚ) ≠ 0 := two_ne_zero
  have notTiny : ¬ (digits = 0 ∨ (digits.log2 : Int) + 3 * exponent < -1075) := by
    rintro (zero | tiny)
    · exact pos.ne' zero
    apply absurd low
    rw [not_le]
    have power : (10 : ℚ) ^ exponent ≤ 8 ^ exponent := by
      have nonneg : 0 ≤ -exponent := by omega
      rw [← neg_neg exponent, zpow_neg, zpow_neg 8]
      exact inv_anti₀ (by positivity) (zpow_le_zpow_left₀ nonneg (by norm_num) (by norm_num))
    calc (digits : ℚ) * 10 ^ exponent ≤ digits * 2 ^ (3 * exponent) := by
          rw [← eight_zpow]
          gcongr
      _ < 2 ^ ((digits.log2 : Int) + 1) * 2 ^ (3 * exponent) := by
          gcongr
          exact (log2_bounds pos).2
      _ = 2 ^ ((digits.log2 : Int) + 1 + 3 * exponent) := (zpow_add₀ two _ _).symm
      _ ≤ 2 ^ (-1075 : Int) := zpow_le_zpow_right₀ one_le_two (by omega)
  have notHuge : ¬ (0 ≤ exponent ∧ 1024 ≤ (digits.log2 : Int) + 3 * exponent) := by
    intro huge
    apply absurd high
    rw [not_lt]
    have power : (8 : ℚ) ^ exponent ≤ 10 ^ exponent :=
      zpow_le_zpow_left₀ huge.1 (by norm_num) (by norm_num)
    calc (2 : ℚ) ^ (1024 : Int) ≤ 2 ^ ((digits.log2 : Int) + 3 * exponent) :=
          zpow_le_zpow_right₀ one_le_two huge.2
      _ = 2 ^ (digits.log2 : Int) * 8 ^ exponent := by rw [zpow_add₀ two, eight_zpow]
      _ ≤ digits * 10 ^ exponent := by
          gcongr
          exact (log2_bounds pos).1
  rw [ofScientific, if_neg notTiny, if_neg notHuge]
  rfl

theorem decimal_fraction (digits : Nat) (exponent : Int) :
    ((digits * 10 ^ exponent.toNat : Nat) : ℚ) / (10 ^ (-exponent).toNat : Nat) =
      digits * 10 ^ exponent := by
  rw [zpow_parts 10]
  push_cast
  ring

/-- A decimal that is a finite real is read as it. -/
theorem ofScientific_eq {x : Float} (finite : Finite x) {digits : Nat} {exponent : Int}
    (value : (digits : ℚ) * 10 ^ exponent = magnitude x) : ofScientific digits exponent = x := by
  obtain ⟨zero_or_above, below⟩ := finite.magnitude_bounds
  rcases Nat.eq_zero_or_pos digits with rfl | pos
  · rw [Nat.cast_zero, zero_mul] at value
    rw [ofScientific, if_pos (.inl rfl)]
    refine (zero_or_above.resolve_right fun above => absurd above ?_).2
    rw [← value, not_le]
    positivity
  · have positive : 0 < (digits : ℚ) * 10 ^ exponent := by positivity
    have above := zero_or_above.resolve_left fun zero => positive.ne' (value.trans zero.1)
    rw [← value] at above below
    have low : (2 : ℚ) ^ (-1075 : Int) ≤ 2 ^ (-1074 : Int) :=
      zpow_le_zpow_right₀ one_le_two (by decide)
    rw [ofScientific_eq_nearest pos (low.trans above) below]
    exact nearest_eq finite (Nat.pow_pos (by decide)) ((decimal_fraction _ _).trans value)

end Scriptlet.Decimal
