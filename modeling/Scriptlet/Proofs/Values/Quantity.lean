import Scriptlet.Number
import Scriptlet.Proofs.Decimal.Sign

namespace Scriptlet

namespace Decimal

variable {x : Float}

theorem magnitude_absolute (number : x.isNaN = false) : magnitude (absolute x) = magnitude x := by
  rw [magnitude, ofFloat_absolute number, magnitude]

theorem magnitude_lt (number : x.isNaN = false) (bounded : x.isInf = false) :
    magnitude x < 2 ^ (1024 : Int) := by
  rw [← magnitude_absolute number]
  exact (finite_absolute number bounded).magnitude_bounds.2

def signed (x : Float) : ℚ := if isNegative x then -magnitude x else magnitude x

theorem abs_signed (x : Float) : |signed x| = magnitude x := by
  have nonneg : 0 ≤ magnitude x := by
    rw [magnitude]
    positivity
  rw [signed]
  split
  · rw [abs_neg, abs_of_nonneg nonneg]
  · rw [abs_of_nonneg nonneg]

theorem magnitude_of_isInf (endless : x.isInf) : magnitude x = 2 ^ (1024 : Int) := by
  rw [isInf_iff, infinityBits_eq] at endless
  have bound := x.toBits.toNat_lt
  have field : x.toBits.toNat / 2 ^ 52 % 2 ^ 11 = 2047 := by omega
  have fraction : x.toBits.toNat % 2 ^ 52 = 0 := by omega
  have decoded : Binary.ofFloat x = ⟨2 ^ 52, 972⟩ := by
    simp only [Binary.ofFloat, Nat.pow_eq, field, fraction]
    rfl
  rw [magnitude, decoded, Nat.cast_pow, Nat.cast_ofNat, ← zpow_natCast, ← zpow_add₀ two_ne_zero]
  rfl

theorem minExponent_le (x : Float) : minExponent ≤ (Binary.ofFloat x).exponent := by
  rw [Binary.ofFloat]
  split
  · exact le_refl _
  · simp only [minExponent]
    omega

theorem magnitude_units (x : Float) :
    (((Binary.ofFloat x).mantissa *
      2 ^ ((Binary.ofFloat x).exponent - minExponent).toNat : Nat) : ℚ) =
      magnitude x * 2 ^ (1074 : Int) := by
  have le := minExponent_le x
  have exponent : (((Binary.ofFloat x).exponent - minExponent).toNat : Int) =
      (Binary.ofFloat x).exponent + 1074 := by
    rw [minExponent] at le ⊢
    omega
  rw [magnitude, mul_assoc, ← zpow_add₀ two_ne_zero, ← exponent, zpow_natCast]
  push_cast
  rfl

end Decimal

/-- What a number other than NaN stands for. -/
inductive Quantity where
  | finite (q : ℚ)
  | infinite (negative : Bool)

namespace Quantity

def edge : ℚ := 2 ^ (1024 : Int)

theorem edge_pos : 0 < edge := by
  rw [edge]
  positivity

def place : Quantity → ℚ
  | finite q => q
  | infinite negative => if negative then -edge else edge

def Within : Quantity → Prop
  | finite q => |q| < edge
  | infinite _ => True

theorem abs_place_infinite (negative : Bool) : |(infinite negative).place| = edge := by
  have positive := edge_pos
  cases negative with
  | false => exact abs_of_pos positive
  | true => exact (abs_neg edge).trans (abs_of_pos positive)

theorem place_injective {x y : Quantity} (hx : x.Within) (hy : y.Within)
    (same : x.place = y.place) : x = y := by
  cases x with
  | finite q =>
    cases y with
    | finite r => exact congrArg finite same
    | infinite negative =>
      have far : |q| = edge := (congrArg abs same).trans (abs_place_infinite negative)
      exact absurd hx (not_lt_of_ge far.ge)
  | infinite negative =>
    cases y with
    | finite r =>
      have far : |r| = edge := (congrArg abs same.symm).trans (abs_place_infinite negative)
      exact absurd hy (not_lt_of_ge far.ge)
    | infinite other =>
      have positive := edge_pos
      cases negative <;> cases other <;> simp only [place, if_true] at same
      · rfl
      · rw [if_neg Bool.false_ne_true] at same
        linarith
      · rw [if_neg Bool.false_ne_true] at same
        linarith
      · rfl

end Quantity

namespace Number

def quantity? : Number → Option Quantity
  | int n => some (.finite n.toInt)
  | real x =>
    if x.isNaN then none
    else if x.isInf then some (.infinite (Decimal.isNegative x))
    else some (.finite (Decimal.signed x))

theorem unitsInOne_eq : (unitsInOne : ℚ) = 2 ^ (1074 : Int) := by
  rw [unitsInOne, Nat.shiftLeft_eq, Nat.one_mul, Nat.cast_pow, Nat.cast_ofNat, ← zpow_natCast]
  rfl

theorem abs_toInt_lt (n : Int64) : |(n.toInt : ℚ)| < Quantity.edge := by
  have low := n.le_toInt
  have high := n.toInt_lt
  have small : |n.toInt| ≤ 2 ^ 63 := abs_le.mpr ⟨low, high.le⟩
  calc |(n.toInt : ℚ)| = (|n.toInt| : Int) := (Int.cast_abs).symm
    _ ≤ ((2 ^ 63 : Int) : ℚ) := Int.cast_le.mpr small
    _ = 2 ^ (63 : Int) := by norm_num
    _ < 2 ^ (1024 : Int) := zpow_lt_zpow_right₀ one_lt_two (by decide)

theorem rank?_real {x : Float} (number : x.isNaN = false) :
    ∃ r, (real x).rank? = some r ∧ (r : ℚ) = Decimal.signed x * 2 ^ (1074 : Int) := by
  have units := Decimal.magnitude_units x
  refine ⟨_, if_neg (Bool.eq_false_iff.mp number), ?_⟩
  rw [Decimal.signed]
  split
  · rw [Int.cast_neg, Int.cast_natCast, neg_mul]
    exact congrArg Neg.neg units
  · exact units

theorem rank?_of_quantity? {m : Number} {x : Quantity} (stands : m.quantity? = some x) :
    x.Within ∧ ∃ r, m.rank? = some r ∧ (r : ℚ) = x.place * 2 ^ (1074 : Int) := by
  cases m with
  | int n =>
    cases stands
    refine ⟨abs_toInt_lt n, _, rfl, ?_⟩
    rw [Int.cast_mul, Int.cast_natCast, unitsInOne_eq]
    rfl
  | real x =>
    rw [quantity?] at stands
    split at stands
    · cases stands
    · rename_i number
      rw [Bool.not_eq_true] at number
      obtain ⟨r, rank, eq⟩ := rank?_real number
      split at stands
      · rename_i endless
        cases stands
        refine ⟨trivial, r, rank, ?_⟩
        rw [eq, Decimal.signed, Decimal.magnitude_of_isInf endless]
        rfl
      · rename_i bounded
        rw [Bool.not_eq_true] at bounded
        cases stands
        refine ⟨?_, r, rank, eq⟩
        rw [Quantity.Within, Decimal.abs_signed]
        exact Decimal.magnitude_lt number bounded

theorem rank?_eq_none {m : Number} (nothing : m.quantity? = none) : m.rank? = none := by
  cases m with
  | int n => cases nothing
  | real x =>
    by_cases number : x.isNaN
    · exact if_pos number
    · rw [quantity?, if_neg number] at nothing
      split at nothing <;> cases nothing

theorem compare?_eq_iff (m n : Number) :
    m.compare? n = some .eq ↔ ∃ x, m.quantity? = some x ∧ n.quantity? = some x := by
  rw [compare?_eq]
  cases left : m.quantity? with
  | none =>
    rw [rank?_eq_none left]
    simp
  | some x =>
    cases right : n.quantity? with
    | none =>
      rw [rank?_eq_none right]
      simp
    | some y =>
      obtain ⟨hx, r, rank, place⟩ := rank?_of_quantity? left
      obtain ⟨hy, r', rank', place'⟩ := rank?_of_quantity? right
      rw [rank, rank']
      constructor
      · intro same
        have ranks : r = r' := Std.LawfulEqOrd.eq_of_compare (Option.some.inj same)
        have unit : (2 : ℚ) ^ (1074 : Int) ≠ 0 := zpow_ne_zero _ two_ne_zero
        have places : x.place = y.place :=
          mul_right_cancel₀ unit (by rw [← place, ← place', ranks])
        exact ⟨x, rfl, congrArg some (Quantity.place_injective hx hy places).symm⟩
      · rintro ⟨z, hz, hz'⟩
        have same : x = y := Option.some.inj (hz.trans hz'.symm)
        have ranks : (r : ℚ) = r' := by rw [place, place', same]
        rw [Int.cast_injective ranks]
        exact congrArg some Std.ReflCmp.compare_self

end Number

end Scriptlet
