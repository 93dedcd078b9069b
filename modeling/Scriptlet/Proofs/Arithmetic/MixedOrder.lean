import Scriptlet.Proofs.Arithmetic.Bounded
import Scriptlet.Proofs.Decimal.Whole

namespace Scriptlet

namespace Bounded

def bound : Float := Float.ofBits 0x43E0000000000000

/-- The order of an integer and a real; none if the real is NaN. -/
def order? (i : Int64) (x : Float) : Option Ordering :=
  if x.isNaN then none
  else if bound ≤ x then some .lt
  else if x < -bound then some .gt
  else
    let whole := Decimal.truncated x
    match compare i.toInt whole.toModel.toInt64.toInt with
    | .eq => (Float.ofBits 0).toModel.compare (x - whole).toModel
    | unequal => some unequal

end Bounded

namespace Decimal

open Float.Model

variable {x y : Float}

theorem lt_iff (x y : Float) : x < y ↔ x.toModel.compare y.toModel = some .lt := by
  have order : x < y ↔ decide (x.toModel.lt y.toModel = true) = true := Iff.rfl
  rw [order, decide_eq_true_iff]
  exact beq_iff_eq

theorem le_iff (x y : Float) :
    x ≤ y ↔ (x.toModel.compare y.toModel).any (·.isLE) = true := by
  have order : x ≤ y ↔ decide (x.toModel.le y.toModel = true) = true := Iff.rfl
  rw [order, decide_eq_true_iff]
  rfl

theorem compare_model (hx : x.isNaN = false) (hx' : x.isInf = false) (hy : y.isNaN = false)
    (hy' : y.isInf = false) :
    x.toModel.compare y.toModel = some (compare (signed x) (signed y)) :=
  (stands_unpack hx hx').compare_eq (stands_unpack hy hy')

theorem quantity?_finite (number : x.isNaN = false) (bounded : x.isInf = false) :
    (Number.real x).quantity? = some (.finite (signed x)) := by
  rw [Number.quantity?, number, bounded]
  rfl

theorem isNaN_ofBits (bits : UInt64) :
    (Float.ofBits bits).isNaN ↔ infinityBits < bits.toNat % 2 ^ 63 := by
  have pattern : (UnpackedFloat.unpack Format.binary64 bits.toBitVec).isNaN ↔
      infinityBits < bits.toNat % 2 ^ 63 := by
    rw [isNaN_unpack, UInt64.toNat_toBitVec, infinityBits_eq]
    omega
  cases nan : (UnpackedFloat.unpack Format.binary64 bits.toBitVec).isNaN with
  | false => rw [isNaN_iff, toBits_ofBits nan]
  | true =>
    have read : UnpackedFloat.unpack Format.binary64 bits.toBitVec = .notANumber := by
      cases unpacked : UnpackedFloat.unpack Format.binary64 bits.toBitVec with
      | notANumber => rfl
      | _ =>
        rw [unpacked] at nan
        cases nan
    have kept : (Float.ofBits bits).isNaN = (UnpackedFloat.unpack Format.binary64
        (UnpackedFloat.pack Format.binary64
          (UnpackedFloat.unpack Format.binary64 bits.toBitVec))).isNaN := rfl
    rw [← pattern, nan, kept, read]
    decide

theorem toBits_ofBits_of_number {bits : UInt64} (number : (Float.ofBits bits).isNaN = false) :
    (Float.ofBits bits).toBits = bits := by
  apply toBits_ofBits
  rw [Bool.eq_false_iff, ne_eq, isNaN_ofBits] at number
  rw [Bool.eq_false_iff, ne_eq, isNaN_unpack, UInt64.toNat_toBitVec]
  rw [infinityBits_eq] at number
  omega

theorem eq_infinity (endless : x.isInf) :
    x = Float.ofBits 0x7FF0000000000000 ∨ x = Float.ofBits 0xFFF0000000000000 := by
  have word := x.toBits.toNat_lt
  rw [isInf_iff, infinityBits_eq] at endless
  have cases : x.toBits.toNat = 0x7FF0000000000000 ∨ x.toBits.toNat = 0xFFF0000000000000 := by omega
  rcases cases with plus | minus
  · exact .inl (eq_of_toBits (UInt64.toNat_inj.mp (plus.trans (by decide +kernel))))
  · exact .inr (eq_of_toBits (UInt64.toNat_inj.mp (minus.trans (by decide +kernel))))

end Decimal

namespace Number

theorem compare?_of_quantity? {m n : Number} {p q : Quantity} (left : m.quantity? = some p)
    (right : n.quantity? = some q) : m.compare? n = some (compare p.place q.place) := by
  obtain ⟨-, r, rank, place⟩ := rank?_of_quantity? left
  obtain ⟨-, r', rank', place'⟩ := rank?_of_quantity? right
  have scale : StrictMono fun q : ℚ => q * 2 ^ (1074 : Int) := by
    intro a b lt
    simp only
    gcongr
  rw [compare?_eq, rank, rank']
  apply congrArg some
  calc compare r r' = compare (r : ℚ) r' := (compare_of_strictMono Int.cast_strictMono r r').symm
    _ = compare (p.place * 2 ^ (1074 : Int)) (q.place * 2 ^ (1074 : Int)) := by rw [place, place']
    _ = compare p.place q.place := compare_of_strictMono scale _ _

end Number

namespace Bounded

open Decimal

variable {i : Int64} {x : Float}

theorem finite_bound : bound.isNaN = false ∧ bound.isInf = false ∧ signed bound = 2 ^ 63 := by
  have parts : Binary.ofFloat bound = ⟨2 ^ 52, 11⟩ := by decide +kernel
  have positive : isNegative bound = false := by decide +kernel
  refine ⟨by decide +kernel, by decide +kernel, ?_⟩
  rw [signed, positive, magnitude, parts]
  norm_num

theorem finite_neg_bound : (-bound).isNaN = false ∧ (-bound).isInf = false ∧
    signed (-bound) = -2 ^ 63 := by
  have parts : Binary.ofFloat (-bound) = ⟨2 ^ 52, 11⟩ := by decide +kernel
  have negative : isNegative (-bound) = true := by decide +kernel
  refine ⟨by decide +kernel, by decide +kernel, ?_⟩
  rw [signed, negative, magnitude, parts]
  norm_num

theorem bound_le_iff (number : x.isNaN = false) (bounded : x.isInf = false) :
    bound ≤ x ↔ 2 ^ 63 ≤ signed x := by
  obtain ⟨number', bounded', value⟩ := finite_bound
  rw [le_iff, compare_model number' bounded' number bounded, value, Option.any_some,
    Ordering.isLE_iff_ne_gt]
  exact not_congr compare_gt_iff_gt |>.trans not_lt

theorem lt_neg_bound_iff (number : x.isNaN = false) (bounded : x.isInf = false) :
    x < -bound ↔ signed x < -2 ^ 63 := by
  obtain ⟨number', bounded', value⟩ := finite_neg_bound
  rw [lt_iff, compare_model number bounded number' bounded', value, Option.some.injEq]
  exact compare_lt_iff_lt

theorem fits_toward (low : -2 ^ 63 ≤ signed x) (high : signed x < 2 ^ 63) : Fits (toward x) := by
  rw [Fits]
  rcases toward_bounds x with ⟨sign, below, above⟩ | ⟨sign, below, above⟩
  · have small : (toward x : ℚ) < 2 ^ 63 := below.trans_lt high
    have small : toward x < 2 ^ 63 := by exact_mod_cast small
    omega
  · have large : (-2 ^ 63 : ℚ) ≤ toward x := low.trans below
    have large : -2 ^ 63 ≤ toward x := by exact_mod_cast large
    omega

theorem toInt64_eq {y : Float} (part : WholePart x y) (fits : Fits (toward x)) :
    y.toModel.toInt64.toInt = toward x := by
  have read : y.toModel.toInt64 = Int64.ofIntClamp (toward x) :=
    congrArg Int64.ofIntClamp (part.toInt_eq _ _)
  obtain ⟨low, high⟩ := fits
  rw [read]
  exact Int64.toInt_ofIntClamp low (Int.le_of_lt_add_one high)

theorem signed_sub_whole {y : Float} (part : WholePart x y) (number : x.isNaN = false)
    (bounded : x.isInf = false) : signed (x - y) = signed x - toward x :=
  (part.stands_sub number bounded).pack.2

theorem compare_zero_sub {y : Float} (part : WholePart x y) (number : x.isNaN = false)
    (bounded : x.isInf = false) : (Float.ofBits 0).toModel.compare (x - y).toModel =
      some (compare 0 (signed x - toward x)) := by
  have rest := part.stands_sub number bounded
  have zero : (Float.ofBits 0).toModel.unpack = .zero .positive := rfl
  have unpacked : (x - y).toModel.unpack = _ := rest.pack.1
  rw [Float.Model.compare, unpacked, zero]
  exact (Stands.zero _).compare_eq rest

theorem order?_finite (number : x.isNaN = false) (bounded : x.isInf = false) :
    order? i x = some (compare (i.toInt : ℚ) (signed x)) := by
  obtain ⟨least, most⟩ := fits_toInt i
  have least : (-2 ^ 63 : ℚ) ≤ i.toInt := by exact_mod_cast least
  have most : (i.toInt : ℚ) < 2 ^ 63 := by exact_mod_cast most
  have high := bound_le_iff number bounded
  have low := lt_neg_bound_iff number bounded
  rw [order?, number, if_neg Bool.false_ne_true]
  split
  · rename_i above
    rw [compare_lt_iff_lt.mpr (most.trans_le (high.mp above))]
  rename_i above
  split
  · rename_i below
    rw [compare_gt_iff_gt.mpr ((low.mp below).trans_le least)]
  rename_i below
  rw [high, not_le] at above
  rw [low, not_lt] at below
  have part := wholePart_truncated number bounded
  simp only [toInt64_eq part (fits_toward below above), compare_zero_sub part number bounded,
    compare_toward]
  cases compare i.toInt (toward x) <;> rfl

theorem order?_infinite (endless : x.isInf) :
    order? i x = some (if isNegative x then .gt else .lt) := by
  rcases eq_infinity endless with rfl | rfl
  · have above : bound ≤ Float.ofBits 0x7FF0000000000000 := by decide +kernel
    rw [order?, if_neg (by decide +kernel), if_pos above, if_neg (by decide +kernel)]
  · have above : ¬bound ≤ Float.ofBits 0xFFF0000000000000 := by decide +kernel
    have below : Float.ofBits 0xFFF0000000000000 < -bound := by decide +kernel
    rw [order?, if_neg (by decide +kernel), if_neg above, if_pos below, if_pos (by decide +kernel)]

theorem order?_nan (nan : x.isNaN) : order? i x = none := by
  rw [order?, if_pos nan]

theorem whole_exact (number : x.isNaN = false) (above : ¬bound ≤ x) (below : ¬x < -bound) :
    let whole := truncated x
    ∃ z : Int, signed whole = z ∧ Fits z ∧ |(z : ℚ)| ≤ |signed x| ∧ |signed x - z| < 1 ∧
      whole.toModel.toInt64.toInt = z ∧ signed (x - whole) = signed x - z := by
  have bounded : x.isInf = false := by
    rw [Bool.eq_false_iff]
    intro endless
    rcases eq_infinity endless with rfl | rfl
    · exact above (by decide +kernel)
    · exact below (by decide +kernel)
  rw [bound_le_iff number bounded, not_le] at above
  rw [lt_neg_bound_iff number bounded, not_lt] at below
  have part := wholePart_truncated number bounded
  have fits := fits_toward below above
  exact ⟨toward x, part.signed_eq, fits, (abs_toward_le x).1, (abs_toward_le x).2,
    toInt64_eq part fits, signed_sub_whole part number bounded⟩

end Bounded

namespace Number

open Decimal

variable {i : Int64} {x : Float}

theorem quantity?_infinite (endless : x.isInf) :
    (real x).quantity? = some (.infinite (isNegative x)) := by
  have number : x.isNaN = false := by
    rcases eq_infinity endless with rfl | rfl <;> decide +kernel
  rw [quantity?, number, endless]
  rfl

theorem quantity?_nan (nan : x.isNaN) : (real x).quantity? = none := by
  rw [quantity?, nan]
  rfl

theorem compare?_finite {q : ℚ} (stands : (real x).quantity? = some (.finite q)) :
    (int i).compare? (real x) = some (compare (i.toInt : ℚ) q) := by
  have left : (int i).quantity? = some (.finite i.toInt) := rfl
  have order := compare?_of_quantity? left stands
  exact order

theorem compare?_infinite {negative : Bool}
    (stands : (real x).quantity? = some (.infinite negative)) :
    (int i).compare? (real x) = some (if negative then .gt else .lt) := by
  have left : (int i).quantity? = some (.finite i.toInt) := rfl
  obtain ⟨low, high⟩ := abs_lt.mp (abs_toInt_lt i)
  rw [compare?_of_quantity? left stands]
  cases negative with
  | false => exact congrArg some (compare_lt_iff_lt.mpr high)
  | true => exact congrArg some (compare_gt_iff_gt.mpr low)

theorem compare?_eq_none_iff : (int i).compare? (real x) = none ↔ x.isNaN := by
  by_cases nan : x.isNaN
  · rw [compare?_eq, rank?_eq_none (quantity?_nan nan)]
    exact iff_of_true rfl nan
  · obtain ⟨r, rank, -⟩ := rank?_real (Bool.eq_false_iff.mpr nan)
    rw [compare?_eq, rank]
    exact iff_of_false (Option.some_ne_none _) nan

theorem order?_eq_compare? (i : Int64) (x : Float) :
    Bounded.order? i x = (int i).compare? (real x) := by
  by_cases nan : x.isNaN
  · rw [Bounded.order?_nan nan, compare?_eq_none_iff.mpr nan]
  · rw [Bool.not_eq_true] at nan
    by_cases endless : x.isInf
    · rw [Bounded.order?_infinite endless, compare?_infinite (quantity?_infinite endless)]
    · rw [Bool.not_eq_true] at endless
      rw [Bounded.order?_finite nan endless, compare?_finite (quantity?_finite nan endless)]

theorem compare?_swap (m n : Number) : n.compare? m = (m.compare? n).map Ordering.swap := by
  rw [compare?_eq, compare?_eq]
  cases m.rank? with
  | none => cases n.rank? <;> rfl
  | some r =>
    cases n.rank? with
    | none => rfl
    | some r' => exact congrArg some (Std.OrientedOrd.eq_swap)

end Number

/-- The bits of a real other than NaN are kept, so that every pattern of bits is covered. The order
is found with no step that rounds: the whole part is an integer of 64 bits where it is read. -/
theorem integer_meets_real_exactly (i : Int64) (bits : UInt64) :
    ((Float.ofBits bits).isNaN ↔ Decimal.infinityBits < bits.toNat % 2 ^ 63) ∧
    let x := Float.ofBits bits
    let result := (Number.int i).compare? (.real x)
    (x.isNaN = false → x.toBits = bits) ∧
    (result = none ↔ x.isNaN) ∧
    (∀ q, (Number.real x).quantity? = some (.finite q) →
      result = some (compare (i.toInt : ℚ) q)) ∧
    (∀ negative, (Number.real x).quantity? = some (.infinite negative) →
      result = some (if negative then .gt else .lt)) ∧
    (Number.real x).compare? (.int i) = result.map Ordering.swap ∧
    Bounded.order? i x = result ∧
    (x.isNaN = false → ¬Bounded.bound ≤ x → ¬x < -Bounded.bound →
      let whole := Decimal.truncated x
      ∃ z : Int, Decimal.signed whole = z ∧ Fits z ∧ |(z : ℚ)| ≤ |Decimal.signed x| ∧
        |Decimal.signed x - z| < 1 ∧ whole.toModel.toInt64.toInt = z ∧
        Decimal.signed (x - whole) = Decimal.signed x - z) := by
  refine ⟨Decimal.isNaN_ofBits bits, ?_⟩
  intro x result
  have numbers : result = none ↔ x.isNaN := Number.compare?_eq_none_iff
  have steps : Bounded.order? i x = result := Number.order?_eq_compare? i x
  have swapped : (Number.real x).compare? (.int i) = result.map Ordering.swap :=
    Number.compare?_swap _ _
  exact ⟨Decimal.toBits_ofBits_of_number, numbers, fun _ => Number.compare?_finite,
    fun _ => Number.compare?_infinite, swapped, steps, Bounded.whole_exact⟩

-- `2^53 + 1` is no real; it is not the real that it would be rounded to.
example : (Number.int 9007199254740993).compare? (.real (Float.ofBits 0x4340000000000000)) =
    some .gt := by
  decide +kernel

end Scriptlet
