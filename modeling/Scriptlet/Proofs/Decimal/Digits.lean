import Scriptlet.Decimal.Shortest
import Scriptlet.Proofs.Decimal.Rounding

namespace Scriptlet.Decimal

def Scientific.value (d : Scientific) : ℚ := d.digits * 10 ^ d.exponent

theorem Scientific.value_trim (d : Scientific) : d.trim.value = d.value := by
  fun_induction trim d with
  | case1 d more ih =>
    have tens : ((d.digits / 10 : Nat) : ℚ) * 10 = d.digits := by
      exact_mod_cast Nat.div_mul_cancel (Nat.dvd_of_mod_eq_zero more.2)
    rw [ih, value, value, zpow_add₀ (by norm_num), zpow_one, ← tens]
    ring
  | case2 d => rfl

namespace Interval

theorem fraction_le_iff {a den n : Nat} (pos : 0 < den) (k : Int) :
    (a * 10 ^ (-k).toNat ≤ n * 10 ^ k.toNat * den ↔ (a / den : ℚ) ≤ n * 10 ^ k) ∧
      (n * 10 ^ k.toNat * den ≤ a * 10 ^ (-k).toNat ↔ (n * 10 ^ k : ℚ) ≤ a / den) := by
  have pos' : (0 : ℚ) < den := by exact_mod_cast pos
  have unit : (0 : ℚ) < 10 ^ (-k).toNat := by positivity
  rw [zpow_parts 10, ← mul_div_assoc, div_le_div_iff₀ pos' unit, div_le_div_iff₀ unit pos']
  constructor <;> norm_cast

theorem scaled_quarters (q : Nat) (e : Int) :
    ((q * 2 ^ e.toNat : Nat) : ℚ) / (2 ^ (-e).toNat : Nat) = q * 2 ^ e := by
  rw [zpow_parts 2]
  push_cast
  ring

theorem below_eq (b : Binary) : b.below =
    ((if b.mantissa = 2 ^ 52 ∧ minExponent < b.exponent then 1 else 2 : Nat) : ℚ) := by
  rw [Binary.below]
  split <;> norm_num

theorem contains_iff {b : Binary} (nonzero : b.mantissa ≠ 0) {n : Nat} {k : Int} :
    (ofBinary b).contains n k ↔ b.Attracts (n * 10 ^ k) := by
  have den : 0 < 2 ^ (-(b.exponent - 2)).toNat := Nat.two_pow_pos _
  have high : ((4 * b.mantissa + 2) * 2 ^ (b.exponent - 2) : ℚ) =
      ((4 * b.mantissa + 2) * 2 ^ (b.exponent - 2).toNat : Nat) /
        (2 ^ (-(b.exponent - 2)).toNat : Nat) := by
    rw [scaled_quarters]
    norm_cast
  generalize step : (if b.mantissa = 2 ^ 52 ∧ minExponent < b.exponent then 1 else 2 : Nat) = down
  have few : down ≤ 4 * b.mantissa := by
    rw [← step]
    split <;> omega
  have low : ((4 * b.mantissa - down) * 2 ^ (b.exponent - 2) : ℚ) =
      ((4 * b.mantissa - down) * 2 ^ (b.exponent - 2).toNat : Nat) /
        (2 ^ (-(b.exponent - 2)).toNat : Nat) := by
    rw [scaled_quarters]
    push_cast [few]
    rfl
  rw [Binary.Attracts, below_eq, step, low, high]
  simp only [← not_le, ← (fraction_le_iff den k).1, ← (fraction_le_iff den k).2]
  simp only [contains, ofBinary, Nat.pow_eq, step]
  split
  · rename_i even
    rw [decide_eq_true_eq] at even
    simp only [even, decide_eq_true_eq, zero_ne_one, false_imp_iff, and_true]
  · rename_i odd
    rw [decide_eq_true_eq] at odd
    simp only [Nat.mod_two_ne_zero.mp odd, decide_eq_true_eq, not_le, forall_const]
    exact ⟨fun h => ⟨⟨h.1.le, h.2.le⟩, h⟩, And.right⟩

variable {i : Interval} {k : Int} {d : Scientific}

theorem contains_of_onGrid? (found : i.onGrid? k = some d) : i.contains d.digits d.exponent := by
  rw [onGrid?] at found
  split at found
  · rename_i low high
    cases found
    split
    · exact low
    · exact high
  · rename_i low _
    cases found
    exact low
  · rename_i _ high
    cases found
    exact high
  · cases found

theorem contains_of_search {fuel : Nat} (found : i.search fuel k = some d) :
    i.contains d.digits d.exponent := by
  induction fuel generalizing k with
  | zero => cases found
  | succ fuel ih =>
    rw [search] at found
    cases here : i.onGrid? k with
    | none => exact ih (by rwa [here] at found)
    | some d' =>
      rw [here, Option.orElse_some] at found
      cases found
      exact contains_of_onGrid? here

theorem search_isSome {fuel : Nat} {k₀ : Int} (hit : (i.onGrid? k).isSome) (le : k ≤ k₀)
    (reached : k₀ < k + fuel) : (i.search fuel k₀).isSome := by
  induction fuel generalizing k₀ with
  | zero => omega
  | succ fuel ih =>
    rw [search]
    cases here : i.onGrid? k₀ with
    | some d => rfl
    | none =>
      have other : k ≠ k₀ := by
        rintro rfl
        rw [here] at hit
        cases hit
      exact ih (by omega) (by omega)

theorem onGrid?_isSome {n : Nat} (pos : 0 < i.den) (same : (i.num / i.den : ℚ) = n * 10 ^ k)
    (inside : i.contains n k) : (i.onGrid? k).isSome := by
  have exact : i.num * 10 ^ (-k).toNat = n * (i.den * 10 ^ k.toNat) := by
    rw [Nat.mul_comm i.den, ← Nat.mul_assoc]
    obtain ⟨le, ge⟩ := @fraction_le_iff i.num i.den n pos k
    exact Nat.le_antisymm (le.mpr same.le) (ge.mpr same.ge)
  have point : i.num * 10 ^ (-k).toNat / (i.den * 10 ^ k.toNat) = n := by
    rw [exact]
    exact Nat.mul_div_cancel _ (Nat.mul_pos pos (Nat.pow_pos (by decide)))
  rw [onGrid?]
  simp only [Nat.pow_eq, point, inside]
  cases i.contains (n + 1) k <;> rfl

end Interval

theorem Binary.attracts_self (b : Binary) : b.Attracts (b.mantissa * 2 ^ b.exponent) := by
  have power : (0 : ℚ) < 2 ^ b.exponent := by positivity
  have positive : 0 < b.below := by
    rw [Binary.below]
    split <;> norm_num
  simp only [Binary.Attracts, quarter]
  refine ⟨⟨?_, ?_⟩, fun _ => ⟨?_, ?_⟩⟩ <;> nlinarith only [power, positive]

theorem two_pow_lt_ten_pow {j k : Nat} (le : j ≤ 13 * k) : 2 ^ j < 10 ^ (4 * k + 1) := by
  have power : (2 ^ 13) ^ k ≤ (10 ^ 4) ^ k := Nat.pow_le_pow_left (by decide) k
  rw [← pow_mul, ← pow_mul] at power
  calc 2 ^ j ≤ 2 ^ (13 * k) := Nat.pow_le_pow_right (by decide) le
    _ ≤ 10 ^ (4 * k) := power
    _ < 10 ^ (4 * k + 1) := Nat.pow_lt_pow_right (by decide) (Nat.lt_succ_self _)

theorem log10Fraction_bounds {num den j k a b : Nat} (num_le : num ≤ 2 ^ j) (ja : j ≤ 13 * a)
    (den_le : den ≤ 2 ^ k) (kb : k ≤ 13 * b) :
    -(4 * b + 1 : Int) ≤ log10Fraction num den ∧ log10Fraction num den ≤ 4 * a := by
  rw [log10Fraction]
  split
  · have digits : (Nat.toDigits 10 (num / den)).length ≤ 4 * a + 1 := by
      rw [Nat.length_toDigits_le_iff (by decide) (Nat.succ_pos _)]
      calc num / den ≤ num := Nat.div_le_self _ _
        _ ≤ 2 ^ j := num_le
        _ < 10 ^ (4 * a + 1) := two_pow_lt_ten_pow ja
    omega
  · have digits : (Nat.toDigits 10 ((den - 1) / num)).length ≤ 4 * b + 1 := by
      rw [Nat.length_toDigits_le_iff (by decide) (Nat.succ_pos _)]
      calc (den - 1) / num ≤ den - 1 := Nat.div_le_self _ _
        _ ≤ den := Nat.sub_le _ _
        _ ≤ 2 ^ k := den_le
        _ < 10 ^ (4 * b + 1) := two_pow_lt_ten_pow kb
    omega

variable {m : Nat} {e : Int}

theorem log10Fraction_ofBinary (least : minExponent ≤ e) (most : e ≤ 971) (small : m < 2 ^ 53) :
    let i := Interval.ofBinary ⟨m, e⟩
    minExponent ≤ log10Fraction i.num i.den ∧ log10Fraction i.num i.den < 326 := by
  rw [minExponent] at least
  have mantissa : 4 * m ≤ 2 ^ 55 := by omega
  have num : 4 * m * 2 ^ (e - 2).toNat ≤ 2 ^ ((e - 2).toNat + 55) := by
    rw [pow_add, Nat.mul_comm (2 ^ _)]
    exact Nat.mul_le_mul_right _ mantissa
  have tens : (e - 2).toNat + 55 ≤ 13 * 79 ∧ (-(e - 2)).toNat ≤ 13 * 83 := by omega
  intro i
  have den : i.den = 2 ^ (-(e - 2)).toNat := rfl
  obtain ⟨low, high⟩ := log10Fraction_bounds num tens.1 den.le tens.2
  exact ⟨le_trans (by decide) low, lt_of_le_of_lt high (by decide)⟩

theorem fraction_ofBinary (b : Binary) :
    ((Interval.ofBinary b).num / (Interval.ofBinary b).den : ℚ) = b.mantissa * 2 ^ b.exponent := by
  have fraction := Interval.scaled_quarters (4 * b.mantissa) (b.exponent - 2)
  rw [quarter] at fraction
  refine fraction.trans ?_
  push_cast
  ring

theorem tens_of_twos (m j n : Nat) :
    ((m * 2 ^ j * 5 ^ n : Nat) : ℚ) * 10 ^ (-n : Int) = m * 2 ^ (j - n : Int) := by
  have ten : (10 : ℚ) = 2 * 5 := by norm_num
  rw [zpow_sub₀ two_ne_zero, zpow_neg, zpow_natCast, zpow_natCast, zpow_natCast, ten, mul_pow]
  push_cast
  field_simp

theorem onGrid?_minExponent (least : minExponent ≤ e) (nonzero : m ≠ 0) :
    ((Interval.ofBinary ⟨m, e⟩).onGrid? minExponent).isSome := by
  obtain ⟨j, rfl⟩ : ∃ j : Nat, e = j - (1074 : Nat) := by
    rw [minExponent] at least
    exact ⟨(e + 1074).toNat, by omega⟩
  have point := tens_of_twos m j 1074
  refine Interval.onGrid?_isSome (Nat.two_pow_pos _) ((fraction_ofBinary _).trans point.symm) ?_
  rw [Interval.contains_iff nonzero]
  have self := Binary.attracts_self ⟨m, j - (1074 : Nat)⟩
  rwa [← point] at self

theorem attracts_shortest (least : minExponent ≤ e) (most : e ≤ 971) (small : m < 2 ^ 53)
    (nonzero : m ≠ 0) : Binary.Attracts ⟨m, e⟩ (shortest ⟨m, e⟩).value := by
  obtain ⟨le, lt⟩ := log10Fraction_ofBinary least most small
  have within : log10Fraction (Interval.ofBinary ⟨m, e⟩).num (Interval.ofBinary ⟨m, e⟩).den <
      minExponent + (1400 : Nat) := lt
  have hit := Interval.search_isSome (onGrid?_minExponent least nonzero) le within
  obtain ⟨d, found⟩ := Option.isSome_iff_exists.mp hit
  have inside := (Interval.contains_iff nonzero).mp (Interval.contains_of_search found)
  rw [shortest]
  simp only [found, Option.getD_some, Scientific.value_trim]
  exact inside

/-- The digits of a finite real are read as it, wherever the point stands. -/
theorem ofScientific_of_shortest {x : Float} (finite : Finite x)
    (nonzero : (Binary.ofFloat x).mantissa ≠ 0) {digits : Nat} {exponent : Int}
    (same : (digits : ℚ) * 10 ^ exponent = (shortest (Binary.ofFloat x)).value) :
    ofScientific digits exponent = x := by
  obtain ⟨m, e, eq, least, most, small, _⟩ := finite.decompose
  have attracts := attracts_shortest least most small (by rwa [eq] at nonzero)
  rw [← eq, ← same] at attracts
  exact ofScientific_of_attracts finite nonzero attracts

end Scriptlet.Decimal
