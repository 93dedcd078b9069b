import Mathlib
import Scriptlet.Operation.Arithmetic

namespace Scriptlet

def Fits (z : Int) : Prop := -2 ^ 63 ≤ z ∧ z < 2 ^ 63

instance (z : Int) : Decidable (Fits z) := inferInstanceAs (Decidable (_ ∧ _))

theorem fits_toInt (n : Int64) : Fits n.toInt := ⟨n.le_toInt, n.toInt_lt⟩

theorem int64?_of_fits {z : Int} (fits : Fits z) : int64? z = some (Int64.ofInt z) := if_pos fits

theorem toInt_ofInt {z : Int} (fits : Fits z) : (Int64.ofInt z).toInt = z :=
  Int64.toInt_ofInt_of_le fits.1 fits.2

theorem int64?_eq_none_iff {z : Int} : int64? z = none ↔ ¬ Fits z := by
  by_cases fits : Fits z
  · rw [int64?_of_fits fits]
    exact iff_of_false nofun (not_not.mpr fits)
  · exact iff_of_true (if_neg fits) fits

theorem int64?_eq_some_iff {z : Int} {n : Int64} : int64? z = some n ↔ n.toInt = z := by
  by_cases fits : Fits z
  · rw [int64?_of_fits fits, Option.some.injEq, ← Int64.toInt_inj, toInt_ofInt fits]
    exact eq_comm
  · rw [int64?_eq_none_iff.mpr fits]
    refine iff_of_false nofun ?_
    rintro rfl
    exact fits (fits_toInt n)

theorem not_fits_mul {p s : Int} (refused : ¬ Fits p) (pos : 0 < s) : ¬ Fits (p * s) := by
  rw [Fits] at refused ⊢
  by_cases low : p < -2 ^ 63
  · have further : p * s ≤ p := mul_le_of_one_le_right (by omega) pos
    omega
  · have high : 2 ^ 63 ≤ p := by omega
    have further : p ≤ p * s := le_mul_of_one_le_right (by omega) pos
    omega

theorem not_fits_mul_square {p b : Int} (refused : ¬ Fits (b * b)) (nonzero : p ≠ 0) :
    ¬ Fits (p * (b * b)) := by
  have nonneg : 0 ≤ b * b := mul_self_nonneg b
  have noSquare : ¬ IsSquare (2 ^ 63 : Int) := by decide +kernel
  have other : b * b ≠ 2 ^ 63 := fun same => noSquare ⟨b, same.symm⟩
  rw [Fits] at refused ⊢
  by_cases low : p < 0
  · have further : p * (b * b) ≤ -1 * (b * b) := mul_le_mul_of_nonneg_right (by omega) nonneg
    omega
  · have further : 1 * (b * b) ≤ p * (b * b) := mul_le_mul_of_nonneg_right (by omega) nonneg
    omega

theorem not_fits_pow {b : Int} (large : 1 < b.natAbs) {e : Nat} (long : 64 ≤ e) :
    ¬ Fits (b ^ e) := by
  obtain ⟨k, rfl⟩ : ∃ k, e = k + (32 + 32) := ⟨e - 64, by omega⟩
  have nonzero : b ≠ 0 := by
    rintro rfl
    exact absurd large (by decide)
  rw [pow_add, pow_add]
  refine not_fits_mul_square ?_ (pow_ne_zero k nonzero)
  have power : 2 ^ 64 ≤ b.natAbs ^ 64 := Nat.pow_le_pow_left large 64
  have square : b ^ 32 * b ^ 32 = (b.natAbs ^ 64 : Nat) := by
    rw [← pow_add, Nat.cast_pow, Int.natCast_natAbs, Even.pow_abs (by decide)]
  rw [Fits, square]
  omega

theorem pow_of_natAbs_le_one {b : Int} (small : b.natAbs ≤ 1) (e : Nat) :
    b ^ e = if e = 0 then 1 else if e % 2 = 0 then b * b else b := by
  by_cases zero : e = 0
  · rw [if_pos zero, zero, pow_zero]
  rw [if_neg zero]
  have cases : b = 0 ∨ b = 1 ∨ b = -1 := by omega
  rcases cases with rfl | rfl | rfl
  · rw [zero_pow zero, mul_zero, ite_self]
  · rw [one_pow, mul_one, ite_self]
  · by_cases even : e % 2 = 0
    · rw [if_pos even, Even.neg_one_pow (Nat.even_iff.mpr even)]
      rfl
    · rw [if_neg even, Odd.neg_one_pow (Nat.not_even_iff_odd.mp (mt Nat.even_iff.mp even))]

namespace Bounded

def times? (a b : Int64) : Option Int64 := int64? (a.toInt * b.toInt)

def withOdd? (acc b : Int64) (e : Nat) : Option Int64 :=
  if e % 2 = 1 then times? acc b else some acc

/-- `acc * b ^ e`, by squaring `b` for every two factors. -/
def powerFrom? (acc b : Int64) (e : Nat) : Option Int64 :=
  if e = 0 then some acc
  else if e = 1 then times? acc b
  else
    match withOdd? acc b e, times? b b with
    | some acc, some square => powerFrom? acc square (e / 2)
    | _, _ => none
termination_by e

def power? (b : Int64) (e : Nat) : Option Int64 :=
  if e < 2 ^ 32 then powerFrom? 1 b e
  else if b = 0 ∨ b = 1 then some b
  else if b = -1 then some (if e % 2 = 0 then 1 else -1)
  else none

/-- Quotient and remainder: those toward zero, moved down if the remainder has the other sign. -/
def divide? (a b : Int64) : Option (Int64 × Int64) :=
  if a = Int64.minValue ∧ b = -1 then none
  else if a % b ≠ 0 ∧ (a % b < 0 ↔ ¬ b < 0) then some (a / b - 1, a % b + b)
  else some (a / b, a % b)

theorem times?_eq_some_iff {a b c : Int64} : times? a b = some c ↔ c.toInt = a.toInt * b.toInt :=
  int64?_eq_some_iff

theorem times?_eq_none_iff {a b : Int64} : times? a b = none ↔ ¬ Fits (a.toInt * b.toInt) :=
  int64?_eq_none_iff

theorem withOdd?_eq (acc b : Int64) (e : Nat) :
    withOdd? acc b e = int64? (acc.toInt * b.toInt ^ (e % 2)) := by
  rw [withOdd?]
  by_cases odd : e % 2 = 1
  · rw [if_pos odd, odd, pow_one, times?]
  · have even : e % 2 = 0 := by omega
    rw [if_neg odd, even, pow_zero, mul_one]
    exact (int64?_eq_some_iff.mpr rfl).symm

theorem pow_halves (b : Int) (e : Nat) : b ^ e = b ^ (e % 2) * (b * b) ^ (e / 2) := by
  rw [← pow_two, ← pow_mul, ← pow_add, Nat.mod_add_div]

/-- A product refused on the way is a part of the power, which is further out of range. -/
theorem powerFrom?_eq (acc b : Int64) (e : Nat) (start : acc.toInt ≠ 0 ∨ b.toInt = 0) :
    powerFrom? acc b e = int64? (acc.toInt * b.toInt ^ e) := by
  fun_induction powerFrom? acc b e with
  | case1 acc b =>
    rw [pow_zero, mul_one]
    exact (int64?_eq_some_iff.mpr rfl).symm
  | case2 acc b => rw [pow_one, times?]
  | case3 acc b e _ _ acc' square whole front ih =>
    rw [withOdd?_eq, int64?_eq_some_iff] at front
    rw [times?_eq_some_iff] at whole
    have again : acc'.toInt ≠ 0 ∨ square.toInt = 0 := by
      rw [front, whole]
      by_cases zero : b.toInt = 0
      · exact .inr (by rw [zero, mul_zero])
      · exact .inl (mul_ne_zero (start.resolve_right zero) (pow_ne_zero _ zero))
    rw [ih again, front, whole, pow_halves b.toInt e, mul_assoc]
  | case4 acc b e _ _ none =>
    symm
    rw [int64?_eq_none_iff]
    cases front : withOdd? acc b e with
    | none =>
      rw [withOdd?_eq, int64?_eq_none_iff] at front
      have nonzero : b.toInt ≠ 0 := by
        intro zero
        apply front
        rw [zero]
        rcases Nat.mod_two_eq_zero_or_one e with even | odd
        · rw [even, pow_zero, mul_one]
          exact fits_toInt acc
        · rw [odd, pow_one, mul_zero]
          exact fits_toInt 0
      rw [pow_halves, ← mul_assoc]
      exact not_fits_mul front (pow_pos (mul_self_pos.mpr nonzero) _)
    | some acc' =>
      cases whole : times? b b with
      | some square => exact (none acc' square front whole).elim
      | none =>
        rw [times?_eq_none_iff] at whole
        have nonzero : b.toInt ≠ 0 := by
          intro zero
          apply whole
          rw [zero, mul_zero]
          exact fits_toInt 0
        obtain ⟨k, rfl⟩ : ∃ k, e = k + 2 := ⟨e - 2, by omega⟩
        rw [pow_add, pow_two, ← mul_assoc]
        exact not_fits_mul_square whole
          (mul_ne_zero (start.resolve_right nonzero) (pow_ne_zero k nonzero))

theorem power?_eq (b : Int64) (e : Nat) : power? b e = int64? (b.toInt ^ e) := by
  rw [power?]
  by_cases short : e < 2 ^ 32
  · rw [if_pos short, powerFrom?_eq 1 b e (.inl (by decide))]
    exact congrArg int64? (one_mul _)
  rw [if_neg short]
  have nonzero : e ≠ 0 := by omega
  have long : 64 ≤ e := by omega
  symm
  by_cases small : b.toInt.natAbs ≤ 1
  · rw [pow_of_natAbs_le_one small, if_neg nonzero]
    have cases : b.toInt = Int64.toInt 0 ∨ b.toInt = Int64.toInt 1 ∨
        b.toInt = Int64.toInt (-1) := by
      have zero : Int64.toInt 0 = 0 := rfl
      have one : Int64.toInt 1 = 1 := rfl
      have minus : Int64.toInt (-1) = -1 := rfl
      omega
    simp only [Int64.toInt_inj] at cases
    rcases Nat.mod_two_eq_zero_or_one e with even | odd
    · rw [even]
      rcases cases with rfl | rfl | rfl <;> rfl
    · rw [odd]
      rcases cases with rfl | rfl | rfl <;> rfl
  · have other : ¬ (b = 0 ∨ b = 1) ∧ b ≠ -1 := by
      refine ⟨?_, ?_⟩
      · rintro (rfl | rfl) <;> exact small (by decide)
      · rintro rfl
        exact small (by decide)
    rw [if_neg other.1, if_neg other.2, int64?_eq_none_iff]
    exact not_fits_pow (by omega) long

variable {a b q r : Int64}

theorem toInt_ne_zero (nonzero : b ≠ 0) : b.toInt ≠ 0 := fun zero =>
  nonzero (Int64.toInt_inj.mp zero)

theorem natAbs_toInt_mod_lt (a : Int64) (nonzero : b ≠ 0) :
    (a % b).toInt.natAbs < b.toInt.natAbs := by
  rw [Int64.toInt_mod, Int.natAbs_tmod]
  exact Nat.mod_lt _ (Int.natAbs_pos.mpr (toInt_ne_zero nonzero))

theorem toInt_div_mod (apart : ¬ (a = Int64.minValue ∧ b = -1)) :
    (a % b).toInt + b.toInt * (a / b).toInt = a.toInt := by
  have quotient : (a / b).toInt = a.toInt.tdiv b.toInt := by
    by_cases least : a = Int64.minValue
    · exact Int64.toInt_div_of_ne_right a b fun minus => apart ⟨least, minus⟩
    · exact Int64.toInt_div_of_ne_left a b least
  rw [quotient, Int64.toInt_mod]
  exact Int.tmod_add_mul_tdiv a.toInt b.toInt

theorem lt_zero_iff (n : Int64) : n < 0 ↔ n.toInt < 0 := Int64.lt_iff_toInt_lt

theorem toInt_moved (nonzero : b ≠ 0) (rest : a % b ≠ 0) (signs : a % b < 0 ↔ ¬ b < 0) :
    (a / b - 1).toInt = (a / b).toInt - 1 ∧ (a % b + b).toInt = (a % b).toInt + b.toInt := by
  have apart : ¬ (a = Int64.minValue ∧ b = -1) := by
    rintro ⟨rfl, rfl⟩
    exact rest rfl
  have whole := toInt_div_mod apart
  have small := natAbs_toInt_mod_lt a nonzero
  have ne := toInt_ne_zero rest
  have one : Int64.toInt 1 = 1 := rfl
  rw [lt_zero_iff, lt_zero_iff] at signs
  obtain ⟨low, high⟩ := fits_toInt a
  obtain ⟨low', high'⟩ := fits_toInt b
  obtain ⟨least, most⟩ := fits_toInt (a / b)
  have above : (a / b).toInt ≠ -2 ^ 63 := by
    intro same
    rw [same] at whole
    omega
  constructor
  · rw [Int64.toInt_sub, one]
    exact Int.bmod_eq_of_le (by omega) (by omega)
  · rw [Int64.toInt_add]
    exact Int.bmod_eq_of_le (by omega) (by omega)

theorem floor_unique {a b q r : Int} (whole : r + b * q = a)
    (signs : 0 ≤ r ∧ r < b ∨ b < r ∧ r ≤ 0) : q = a.fdiv b ∧ r = a.fmod b := by
  rcases signs with positive | negative
  · obtain ⟨rfl, rfl⟩ := (Int.fdiv_fmod_unique (by omega)).mpr ⟨whole, positive⟩
    exact ⟨rfl, rfl⟩
  · obtain ⟨rfl, rfl⟩ := (Int.fdiv_fmod_unique' (by omega)).mpr ⟨whole, negative⟩
    exact ⟨rfl, rfl⟩

theorem toInt_of_divide? (nonzero : b ≠ 0) (found : divide? a b = some (q, r)) :
    q.toInt = a.toInt.fdiv b.toInt ∧ r.toInt = a.toInt.fmod b.toInt := by
  have small := natAbs_toInt_mod_lt a nonzero
  rw [divide?] at found
  split at found
  · cases found
  rename_i apart
  have whole := toInt_div_mod apart
  split at found
  · rename_i moved
    cases found
    have ne := toInt_ne_zero moved.1
    have signs := moved.2
    rw [lt_zero_iff, lt_zero_iff] at signs
    obtain ⟨quotient, remainder⟩ := toInt_moved nonzero moved.1 moved.2
    rw [quotient, remainder]
    apply floor_unique
    · rw [← whole]
      ring
    · omega
  · rename_i kept
    cases found
    apply floor_unique whole
    by_cases rest : (a % b).toInt = 0
    · omega
    · have nonzero' : a % b ≠ 0 := fun zero => rest (congrArg Int64.toInt zero)
      have signs : ¬ (a % b < 0 ↔ ¬ b < 0) := fun signs => kept ⟨nonzero', signs⟩
      rw [lt_zero_iff, lt_zero_iff] at signs
      omega

theorem divide?_eq_none_iff (nonzero : b ≠ 0) :
    divide? a b = none ↔ ¬ Fits (a.toInt.fdiv b.toInt) := by
  constructor
  · intro refused
    rw [divide?] at refused
    split at refused
    · rename_i least
      rw [least.1, least.2]
      show ¬ Fits (2 ^ 63)
      rw [Fits]
      omega
    · split at refused <;> cases refused
  · intro refused
    cases found : divide? a b with
    | none => rfl
    | some result =>
      have quotient := (toInt_of_divide? nonzero found).1
      exact absurd (quotient ▸ fits_toInt result.1) refused

end Bounded

end Scriptlet
