import Scriptlet.Proofs.Arithmetic.Integers

namespace Scriptlet

variable {a b : Int64}

theorem Bounded.divide?_eq_none_iff_least :
    divide? a b = none ↔ a = Int64.minValue ∧ b = -1 := by
  rw [divide?]
  split
  · rename_i least
    exact iff_of_true rfl least
  · rename_i apart
    split <;> exact iff_of_false (Option.some_ne_none _) apart

theorem fits_fdiv_iff (nonzero : b ≠ 0) :
    Fits (a.toInt.fdiv b.toInt) ↔ ¬ (a = Int64.minValue ∧ b = -1) := by
  rw [← Bounded.divide?_eq_none_iff_least, Bounded.divide?_eq_none_iff nonzero, not_not]

theorem sub_mul_floor (m : Int) {n : Int} (nonzero : n ≠ 0) :
    m - n * ⌊(m / n : ℚ)⌋ = m.fmod n := by
  rw [floor_eq_fdiv m nonzero]
  have whole := (fmod_between m nonzero).1
  omega

theorem mod_eq_overflow (ls : Lists) (refused : ¬ Fits (a.toInt.fdiv b.toInt))
    (nonzero : b.toInt ≠ 0) :
    BinaryOp.apply ls (.arith .mod) (.int a) (.int b) = .error (.overflow "mod") := by
  have found := int64?_eq_none_iff.mpr refused
  have onInts : Arithmetic.mod.onInts a b = .error (.overflow "mod") :=
    (if_neg nonzero).trans (if_pos found)
  rw [Arithmetic.apply_ints, onInts]
  rfl

/--
The remainder of the floored quotient is less than the divisor and has its sign, so it always fits.
It is what `mod` yields, except that the least integer modulo `-1` is refused as an overflow.
-/
theorem remainder_unless_quotient_overflows (ls : Lists) (a b : Int64) (nonzero : b ≠ 0) :
    let result := BinaryOp.apply ls (.arith .mod) (.int a) (.int b)
    let r := a.toInt - b.toInt * ⌊(a.toInt / b.toInt : ℚ)⌋
    |r| < |b.toInt| ∧ (r = 0 ∨ r.sign = b.toInt.sign) ∧ Fits r ∧
    (¬ (a = Int64.minValue ∧ b = -1) →
      ∃ n : Int64, result = .ok (.value (.int n)) ∧ n.toInt = r) ∧
    (a = Int64.minValue ∧ b = -1 → result = .error (.overflow "mod")) := by
  intro result r
  have divisor := Bounded.toInt_ne_zero nonzero
  have exact : r = a.toInt.fmod b.toInt := sub_mul_floor a.toInt divisor
  have between := (fmod_between a.toInt divisor).2
  have fits : Fits r := by
    have bound := fits_toInt b
    rw [Fits] at bound ⊢
    omega
  rw [← exact] at between
  refine ⟨abs_of_between between, sign_of_between between, fits, ?_, ?_⟩
  · intro apart
    have quotient := (fits_fdiv_iff nonzero).mpr apart
    rw [exact] at fits ⊢
    exact (exact_mod ls divisor quotient).fits fits
  · intro least
    exact mod_eq_overflow ls (fun fits => (fits_fdiv_iff nonzero).mp fits least) divisor

theorem remainder_unless_quotient_overflows_boundary :
    let result a b := BinaryOp.apply Lists.empty (.arith .mod) (.int a) (.int b)
    let ok (n : Int64) : Except SemanticError Result := .ok (.value (.int n))
    (-1 : Int64) ≠ 0 ∧ Int64.minValue ≠ 0 ∧
    result Int64.minValue (-1) = .error (.overflow "mod") ∧
    result (Int64.minValue + 1) (-1) = ok 0 ∧
    result Int64.maxValue Int64.minValue = ok (-1) := by
  intro result ok
  have minus : (-1 : Int64) ≠ 0 := by decide
  have least : Int64.minValue ≠ 0 := by decide
  obtain ⟨-, -, -, -, refused⟩ :=
    remainder_unless_quotient_overflows .empty Int64.minValue (-1) minus
  obtain ⟨-, -, -, found, -⟩ :=
    remainder_unless_quotient_overflows .empty (Int64.minValue + 1) (-1) minus
  obtain ⟨-, -, -, found', -⟩ :=
    remainder_unless_quotient_overflows .empty Int64.maxValue Int64.minValue least
  obtain ⟨n, yields, value⟩ := found (by decide)
  obtain ⟨n', yields', value'⟩ := found' (by decide)
  rw [sub_mul_floor _ (by decide)] at value value'
  have same : n = 0 := Int64.toInt_inj.mp (value.trans (by decide))
  have same' : n' = -1 := Int64.toInt_inj.mp (value'.trans (by decide))
  exact ⟨minus, least, refused ⟨rfl, rfl⟩, same ▸ yields, same' ▸ yields'⟩

/-- The exact remainder is zero, and yet there is none. -/
theorem remainder_of_least_refused :
    let r := Int64.minValue.toInt - Int64.toInt (-1) *
      ⌊(Int64.minValue.toInt / Int64.toInt (-1) : ℚ)⌋
    r = 0 ∧ Fits r ∧
    BinaryOp.apply .empty (.arith .mod) (.int Int64.minValue) (.int (-1)) =
      .error (.overflow "mod") := by
  intro r
  have zero : r = 0 := sub_mul_floor _ (by decide)
  rw [zero]
  exact ⟨rfl, by decide, rfl⟩

end Scriptlet
