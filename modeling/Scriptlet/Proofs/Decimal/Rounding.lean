import Scriptlet.Proofs.Decimal.Nearest

namespace Scriptlet.Decimal

def Near (m : Nat) (v : ℚ) : Prop :=
  (m - 1 / 2 ≤ v ∧ v ≤ m + 1 / 2) ∧ (m % 2 = 1 → m - 1 / 2 < v ∧ v < m + 1 / 2)

theorem roundEven_eq {num den m : Nat} (low : 2 * m * den ≤ 2 * num + den)
    (high : 2 * num ≤ (2 * m + 1) * den) (pos : 0 < den)
    (odd : m % 2 = 1 → 2 * m * den < 2 * num + den ∧ 2 * num < (2 * m + 1) * den) :
    roundEven num den = m := by
  have split := Nat.div_add_mod num den
  have rest := Nat.mod_lt num pos
  rw [roundEven]
  generalize num / den = q at split ⊢
  generalize num % den = r at split rest ⊢
  have above : m ≤ q + 1 := by
    by_contra far
    have : (q + 2) * den ≤ m * den := Nat.mul_le_mul_right den (by omega)
    nlinarith only [low, split, rest, this]
  have below : q ≤ m := by
    by_contra far
    have : (m + 1) * den ≤ q * den := Nat.mul_le_mul_right den (by omega)
    nlinarith only [high, split, pos, this]
  rcases Nat.eq_or_lt_of_le below with rfl | next
  · have le : 2 * r ≤ den := by nlinarith only [high, split]
    rcases Nat.lt_or_eq_of_le le with lt | half
    · rw [if_pos lt]
    · have even : q % 2 = 0 := by
        by_contra uneven
        have strict := (odd (by omega)).2
        nlinarith only [strict, split, half]
      rw [if_neg (by omega), if_neg (by omega), even, Nat.add_zero]
  · obtain rfl : m = q + 1 := by omega
    have le : den ≤ 2 * r := by nlinarith only [low, split]
    rw [if_neg (by omega)]
    rcases Nat.lt_or_eq_of_le le with lt | half
    · rw [if_pos lt]
    · have uneven : q % 2 = 1 := by
        by_contra even
        have strict := (odd (by omega)).1
        nlinarith only [strict, split, half]
      rw [if_neg (by omega), uneven]

theorem Near.roundEven_eq {num den m : Nat} (pos : 0 < den) (near : Near m (num / den)) :
    roundEven num den = m := by
  have pos' : (0 : ℚ) < den := by exact_mod_cast pos
  simp only [Near, le_div_iff₀ pos', div_le_iff₀ pos', lt_div_iff₀ pos', div_lt_iff₀ pos'] at near
  obtain ⟨⟨low, high⟩, odd⟩ := near
  refine Decimal.roundEven_eq ?_ ?_ pos fun uneven => ⟨?_, ?_⟩
  · have : (2 * m * den : ℚ) ≤ 2 * num + den := by linarith
    exact_mod_cast this
  · have : (2 * num : ℚ) ≤ (2 * m + 1) * den := by linarith
    exact_mod_cast this
  · have : (2 * m * den : ℚ) < 2 * num + den := by linarith [(odd uneven).1]
    exact_mod_cast this
  · have : (2 * num : ℚ) < (2 * m + 1) * den := by linarith [(odd uneven).2]
    exact_mod_cast this

theorem scaled_fraction {num den : Nat} (pos : 0 < den) (e : Int) :
    ((num * 2 ^ (-e).toNat : Nat) : ℚ) / (den * 2 ^ e.toNat : Nat) = num / den / 2 ^ e := by
  have pos' : (den : ℚ) ≠ 0 := by exact_mod_cast pos.ne'
  rw [zpow_parts 2 e]
  push_cast
  field_simp

theorem nearest_of_near {x : Float} (finite : Finite x) {num den m : Nat} {e : Int} (pos : 0 < den)
    (num_pos : 0 < num) (exponent : max (log2Fraction num den - 52) minExponent = e)
    (near : Near m (num / den / 2 ^ e))
    (bits : (e - minExponent).toNat * 2 ^ 52 + m = x.toBits.toNat) : nearest num den = x := by
  rw [← scaled_fraction pos] at near
  have rounded := near.roundEven_eq (Nat.mul_pos pos (Nat.two_pow_pos _))
  apply eq_of_toBits
  apply UInt64.toNat_inj.mp
  rw [nearest, if_neg num_pos.ne']
  simp only [exponent, Nat.pow_eq, rounded, bits]
  rw [toBits_ofBits_ofNat (Nat.min_le_right _ _)]
  exact Nat.min_eq_left finite.le

/-- How far down numbers round to the real, in quarters of its last binary place. Below a power of
two the next smaller real is half as far away. -/
def Binary.below (b : Binary) : ℚ :=
  if b.mantissa = 2 ^ 52 ∧ minExponent < b.exponent then 1 else 2

/-- The number rounds to the real. -/
def Binary.Attracts (b : Binary) (v : ℚ) : Prop :=
  let low : ℚ := (4 * b.mantissa - b.below) * 2 ^ (b.exponent - 2)
  let high : ℚ := (4 * b.mantissa + 2) * 2 ^ (b.exponent - 2)
  (low ≤ v ∧ v ≤ high) ∧ (b.mantissa % 2 = 1 → low < v ∧ v < high)

variable {m : Nat} {e : Int} {v : ℚ}

theorem quarter (e : Int) : (2 : ℚ) ^ (e - 2) = 2 ^ e / 4 := by
  rw [zpow_sub₀ two_ne_zero]
  norm_num

theorem half (e : Int) : (2 : ℚ) ^ (e - 1) = 2 ^ e / 2 := by
  rw [zpow_sub₀ two_ne_zero, zpow_one]

theorem Binary.Attracts.ge (attracts : Attracts ⟨m, e⟩ v) (pos : 0 < m) : 2 ^ e / 2 ≤ v := by
  have power : (0 : ℚ) < 2 ^ e := by positivity
  have one : (1 : ℚ) ≤ m := by exact_mod_cast pos
  have few : Binary.below ⟨m, e⟩ ≤ 2 := by
    rw [Binary.below]
    split <;> norm_num
  have low := attracts.1.1
  simp only [quarter] at low
  nlinarith only [low, one, few, power]

theorem Binary.Attracts.pos (attracts : Attracts ⟨m, e⟩ v) (pos : 0 < m) : 0 < v :=
  lt_of_lt_of_le (by positivity) (attracts.ge pos)

theorem Binary.Attracts.near (attracts : Attracts ⟨m, e⟩ v)
    (usual : ¬ (m = 2 ^ 52 ∧ minExponent < e) ∨ m * 2 ^ e ≤ v) : Near m (v / 2 ^ e) := by
  have power : (0 : ℚ) < 2 ^ e := by positivity
  obtain ⟨⟨low, high⟩, odd⟩ := attracts
  simp only [quarter] at low high odd
  rw [Near, le_div_iff₀ power, div_le_iff₀ power, lt_div_iff₀ power, div_lt_iff₀ power]
  rcases usual with usual | above
  · rw [Binary.below, if_neg usual] at low odd
    refine ⟨⟨by linarith, by linarith⟩, fun uneven => ?_⟩
    obtain ⟨low, high⟩ := odd uneven
    exact ⟨by linarith, by linarith⟩
  · refine ⟨⟨by linarith, by linarith⟩, fun uneven => ?_⟩
    obtain ⟨low, high⟩ := odd uneven
    exact ⟨by linarith, by linarith⟩

/-- What rounds to the least mantissa from below lies on the finer grid of the next exponent. -/
theorem Binary.Attracts.near_finer (attracts : Attracts ⟨2 ^ 52, e⟩ v) (low : minExponent < e)
    (below : v < 2 ^ 52 * 2 ^ e) : Near (2 ^ 53) (v / 2 ^ (e - 1)) := by
  have power : (0 : ℚ) < 2 ^ e := by positivity
  have above := attracts.1.1
  simp only [quarter, Binary.below, low, and_self, if_true] at above
  rw [Near, half, le_div_iff₀ (by positivity), div_le_iff₀ (by positivity)]
  push_cast at above ⊢
  exact ⟨⟨by linarith, by linarith⟩, fun uneven => by norm_num at uneven⟩

theorem Binary.Attracts.eq_least (attracts : Attracts ⟨m, e⟩ v) (large : 2 ^ 52 ≤ m)
    (below : v < 2 ^ 52 * 2 ^ e) : m = 2 ^ 52 := by
  by_contra other
  have power : (0 : ℚ) < 2 ^ e := by positivity
  have next : (2 ^ 52 + 1 : ℚ) ≤ m := by exact_mod_cast Nat.lt_of_le_of_ne large (Ne.symm other)
  have low := attracts.1.1
  simp only [quarter, Binary.below, other, false_and, if_false] at low
  nlinarith only [low, next, below, power]

theorem Binary.Attracts.lt (attracts : Attracts ⟨m, e⟩ v) (small : m < 2 ^ 53) :
    v < 2 ^ 53 * 2 ^ e := by
  have power : (0 : ℚ) < 2 ^ e := by positivity
  have bound : (m : ℚ) + 1 ≤ 2 ^ 53 := by exact_mod_cast small
  have high := attracts.1.2
  simp only [quarter] at high
  nlinarith only [high, bound, power]

theorem two_pow_mul_zpow (k : Nat) (e : Int) : (2 : ℚ) ^ k * 2 ^ e = 2 ^ (e + k) := by
  rw [zpow_add₀ two_ne_zero, zpow_natCast, mul_comm]

section

variable {num den : Nat}

theorem log2Fraction_lt (num_pos : 0 < num) (pos : 0 < den)
    (below : (num / den : ℚ) < 2 ^ 52 * 2 ^ e) : log2Fraction num den < e + 52 := by
  rw [two_pow_mul_zpow] at below
  have le := (log2Fraction_bounds num_pos pos).1
  exact (zpow_lt_zpow_iff_right₀ (one_lt_two : (1 : ℚ) < 2)).mp (le.trans_lt below)

theorem Binary.Attracts.log2_eq (attracts : Attracts ⟨m, e⟩ (num / den)) (small : m < 2 ^ 53)
    (num_pos : 0 < num) (pos : 0 < den) (least : 2 ^ 52 * 2 ^ e ≤ (num / den : ℚ)) :
    log2Fraction num den = e + 52 := by
  have above := attracts.lt small
  rw [two_pow_mul_zpow] at least above
  exact log2Fraction_unique num_pos pos least (by rwa [add_assoc])

theorem Binary.Attracts.log2_finer (attracts : Attracts ⟨2 ^ 52, e⟩ (num / den))
    (num_pos : 0 < num) (pos : 0 < den) (low : minExponent < e)
    (below : (num / den : ℚ) < 2 ^ 52 * 2 ^ e) : log2Fraction num den = e + 51 := by
  have power : (0 : ℚ) < 2 ^ (e - 1) := by positivity
  have close := (le_div_iff₀ power).mp (attracts.near_finer low below).1.1
  have split : (2 : ℚ) ^ (e + 51) = 2 ^ 52 * 2 ^ (e - 1) := by
    rw [two_pow_mul_zpow]
    congr 1
    omega
  rw [two_pow_mul_zpow] at below
  refine log2Fraction_unique num_pos pos ?_ (by rwa [add_assoc])
  push_cast at close
  rw [split]
  linarith only [close, power]

theorem nearest_of_attracts {x : Float} (finite : Finite x)
    (nonzero : (Binary.ofFloat x).mantissa ≠ 0) (pos : 0 < den)
    (attracts : (Binary.ofFloat x).Attracts (num / den)) : nearest num den = x := by
  obtain ⟨m, e, eq, low, high, small, normal, bits⟩ := finite.decompose
  rw [eq] at attracts nonzero
  have pos' : (0 : ℚ) < den := by exact_mod_cast pos
  have num_pos : 0 < num := by
    have positive := attracts.pos (Nat.pos_of_ne_zero nonzero)
    rw [div_pos_iff_of_pos_right pos'] at positive
    exact_mod_cast positive
  by_cases below : (num / den : ℚ) < 2 ^ 52 * 2 ^ e
  · have top := log2Fraction_lt num_pos pos below
    by_cases finer : m = 2 ^ 52 ∧ minExponent < e
    · -- Rounding up on the finer grid carries over into the exponent.
      obtain ⟨rfl, above⟩ := finer
      have exponent := attracts.log2_finer num_pos pos above below
      have step : (e - minExponent).toNat = (e - 1 - minExponent).toNat + 1 := by omega
      refine nearest_of_near finite pos num_pos (by omega) (attracts.near_finer above below) ?_
      rw [step] at bits
      linarith only [bits]
    · have least : e = minExponent := by
        rcases normal with large | least
        · have same := attracts.eq_least large below
          omega
        · exact least
      exact nearest_of_near finite pos num_pos (by omega) (attracts.near (.inl finer)) bits
  · have above := not_lt.mp below
    have exponent := attracts.log2_eq small num_pos pos above
    refine nearest_of_near finite pos num_pos (by omega) (attracts.near ?_) bits
    by_cases finer : m = 2 ^ 52 ∧ minExponent < e
    · right
      rw [finer.1]
      exact_mod_cast above
    · exact .inl finer

end

theorem ofScientific_of_attracts {x : Float} (finite : Finite x)
    (nonzero : (Binary.ofFloat x).mantissa ≠ 0) {digits : Nat} {exponent : Int}
    (attracts : (Binary.ofFloat x).Attracts (digits * 10 ^ exponent)) :
    ofScientific digits exponent = x := by
  have fraction := decimal_fraction digits exponent
  obtain ⟨m, e, eq, low, high, small, normal, bits⟩ := finite.decompose
  rw [minExponent] at low
  have attracts' := attracts
  rw [eq] at attracts' nonzero
  have positive := attracts'.pos (Nat.pos_of_ne_zero nonzero)
  have pos : 0 < digits := by
    by_contra zero
    rw [Nat.eq_zero_of_not_pos zero, Nat.cast_zero, zero_mul] at positive
    exact lt_irrefl _ positive
  have above : (2 : ℚ) ^ (-1075 : Int) ≤ digits * 10 ^ exponent := by
    have above := attracts'.ge (Nat.pos_of_ne_zero nonzero)
    rw [← half] at above
    exact (zpow_le_zpow_right₀ one_le_two (by omega)).trans above
  have below : (digits : ℚ) * 10 ^ exponent < 2 ^ (1024 : Int) := by
    have below := attracts'.lt small
    rw [two_pow_mul_zpow] at below
    exact below.trans_le (zpow_le_zpow_right₀ one_le_two (by omega))
  rw [ofScientific_eq_nearest pos above below]
  exact nearest_of_attracts finite (eq ▸ nonzero) (Nat.pow_pos (by decide)) (fraction ▸ attracts)

end Scriptlet.Decimal
