import Scriptlet.Operation
import Scriptlet.Proofs.Arithmetic.Bounded

namespace Scriptlet

/-- The exact result `z` of an operator, or its overflow. -/
structure Exact (r : Except SemanticError Result) (op : String) (z : Int) : Prop where
  fits : Fits z → ∃ n : Int64, r = .ok (.value (.int n)) ∧ n.toInt = z
  refused : ¬ Fits z → r = .error (.overflow op)

theorem exact_exactInt (op : String) (z : Int) :
    Exact ((exactInt op z).map fun n => .value n.toValue) op z where
  fits fits := ⟨Int64.ofInt z, by rw [exactInt, int64?_of_fits fits]; rfl, toInt_ofInt fits⟩
  refused refused := by
    rw [exactInt, int64?_eq_none_iff.mpr refused]
    rfl

theorem exactInt_congr {op : String} {y z : Int} (same : int64? y = int64? z) :
    exactInt op y = exactInt op z := by
  rw [exactInt, same, exactInt]

namespace Exact

variable {r : Except SemanticError Result} {op : String} {z : Int}

theorem ok_iff (exact : Exact r op z) (n : Int64) : r = .ok (.value (.int n)) ↔ n.toInt = z := by
  by_cases fits : Fits z
  · obtain ⟨n', found, value⟩ := exact.fits fits
    rw [found, ← value]
    constructor
    · rintro ⟨⟩
      rfl
    · intro same
      rw [Int64.toInt_inj.mp same]
  · rw [exact.refused fits]
    refine iff_of_false nofun ?_
    rintro rfl
    exact fits (fits_toInt n)

end Exact

theorem intPower?_eq (b : Int) (e : Nat) : (intPower? b e).bind int64? = int64? (b ^ e) := by
  rw [intPower?]
  by_cases small : b.natAbs ≤ 1
  · rw [if_pos small, pow_of_natAbs_le_one small, Option.bind_some]
  rw [if_neg small]
  by_cases short : e < 64
  · rw [if_pos short, Option.bind_some]
    rfl
  · rw [if_neg short, Option.bind_none, eq_comm, int64?_eq_none_iff]
    exact not_fits_pow (by omega) (by omega)

namespace Arithmetic

variable {a b : Int64}

theorem apply_ints (ls : Lists) (op : Arithmetic) (a b : Int64) :
    BinaryOp.apply ls (.arith op) (.int a) (.int b) =
      (op.onInts a b).map fun n => .value n.toValue := by
  cases op <;> rfl

theorem onInts_pow (nonneg : 0 ≤ b.toInt) :
    pow.onInts a b = exactInt pow.spelling (a.toInt ^ b.toInt.toNat) := by
  have power := intPower?_eq a.toInt b.toInt.toNat
  rw [onInts]
  simp only [not_lt.mpr nonneg, if_false]
  cases found : intPower? a.toInt b.toInt.toNat with
  | none =>
    rw [found, Option.bind_none] at power
    rw [exactInt, ← power]
  | some r =>
    rw [found, Option.bind_some] at power
    exact exactInt_congr power

theorem onInts_intDiv (nonzero : b.toInt ≠ 0) :
    intDiv.onInts a b = exactInt intDiv.spelling (a.toInt.fdiv b.toInt) := if_neg nonzero

theorem onInts_mod (nonzero : b.toInt ≠ 0) (fits : Fits (a.toInt.fdiv b.toInt)) :
    mod.onInts a b = exactInt mod.spelling (a.toInt.fmod b.toInt) := by
  have found : int64? (a.toInt.fdiv b.toInt) ≠ none := fun none =>
    int64?_eq_none_iff.mp none fits
  exact (if_neg nonzero).trans (if_neg found)

theorem onInts_zero (zero : b.toInt = 0) :
    intDiv.onInts a b = .error .divisionByZero ∧ mod.onInts a b = .error .divisionByZero :=
  ⟨if_pos zero, if_pos zero⟩

end Arithmetic

theorem fmod_between (m : Int) {n : Int} (nonzero : n ≠ 0) :
    m.fmod n + n * m.fdiv n = m ∧
      (0 ≤ m.fmod n ∧ m.fmod n < n ∨ n < m.fmod n ∧ m.fmod n ≤ 0) := by
  by_cases positive : 0 < n
  · obtain ⟨whole, between⟩ := (Int.fdiv_fmod_unique positive).mp ⟨rfl, rfl⟩
    exact ⟨whole, .inl between⟩
  · obtain ⟨whole, between⟩ := (@Int.fdiv_fmod_unique' m n _ _ (by omega)).mp ⟨rfl, rfl⟩
    exact ⟨whole, .inr between⟩

theorem sign_of_between {r n : Int} (between : 0 ≤ r ∧ r < n ∨ n < r ∧ r ≤ 0) :
    r = 0 ∨ r.sign = n.sign := by
  by_cases zero : r = 0
  · exact .inl zero
  right
  rcases between with ⟨low, high⟩ | ⟨low, high⟩
  · rw [Int.sign_eq_one_of_pos (by omega), Int.sign_eq_one_of_pos (by omega)]
  · rw [Int.sign_eq_neg_one_of_neg (by omega), Int.sign_eq_neg_one_of_neg (by omega)]

theorem abs_of_between {r n : Int} (between : 0 ≤ r ∧ r < n ∨ n < r ∧ r ≤ 0) : |r| < |n| := by
  rcases between with ⟨low, high⟩ | ⟨low, high⟩
  · rw [abs_of_nonneg low, abs_of_pos (by omega)]
    exact high
  · rw [abs_of_nonpos high, abs_of_neg (by omega)]
    omega

theorem floor_eq_fdiv (m : Int) {n : Int} (nonzero : n ≠ 0) : ⌊(m / n : ℚ)⌋ = m.fdiv n := by
  obtain ⟨whole, between⟩ := fmod_between m nonzero
  have nonzero' : (n : ℚ) ≠ 0 := Int.cast_ne_zero.mpr nonzero
  have parts : (m / n : ℚ) = m.fdiv n + m.fmod n / n := by
    have whole' : (m.fmod n : ℚ) + n * m.fdiv n = m := by exact_mod_cast whole
    rw [← whole', add_div, mul_div_cancel_left₀ _ nonzero', add_comm]
  rw [parts, Int.floor_intCast_add, add_eq_left, Int.floor_eq_zero_iff, Set.mem_Ico]
  rcases between with ⟨low, high⟩ | ⟨low, high⟩
  · have low' : (0 : ℚ) ≤ m.fmod n := by exact_mod_cast low
    have high' : (m.fmod n : ℚ) < n := by exact_mod_cast high
    exact ⟨div_nonneg low' (low'.trans high'.le), (div_lt_one (low'.trans_lt high')).mpr high'⟩
  · have low' : (n : ℚ) < m.fmod n := by exact_mod_cast low
    have high' : (m.fmod n : ℚ) ≤ 0 := by exact_mod_cast high
    exact ⟨div_nonneg_of_nonpos high' (low'.le.trans high'),
      (div_lt_one_of_neg (low'.trans_le high')).mpr low'⟩

section

variable (ls : Lists) {a b : Int64}

theorem exact_of_onInts {op : Arithmetic} {z : Int}
    (exact : op.onInts a b = exactInt op.spelling z) :
    Exact (BinaryOp.apply ls (.arith op) (.int a) (.int b)) op.spelling z := by
  rw [Arithmetic.apply_ints, exact]
  exact exact_exactInt op.spelling z

theorem exact_pow (nonneg : 0 ≤ b.toInt) : Exact (BinaryOp.apply ls (.arith .pow) (.int a) (.int b))
    "**" (a.toInt ^ b.toInt.toNat) := exact_of_onInts ls (Arithmetic.onInts_pow nonneg)

theorem exact_intDiv (nonzero : b.toInt ≠ 0) :
    Exact (BinaryOp.apply ls (.arith .intDiv) (.int a) (.int b)) "div" (a.toInt.fdiv b.toInt) :=
  exact_of_onInts ls (Arithmetic.onInts_intDiv nonzero)

theorem exact_mod (nonzero : b.toInt ≠ 0) (fits : Fits (a.toInt.fdiv b.toInt)) :
    Exact (BinaryOp.apply ls (.arith .mod) (.int a) (.int b)) "mod" (a.toInt.fmod b.toInt) :=
  exact_of_onInts ls (Arithmetic.onInts_mod nonzero fits)

theorem exact_neg (a : Int64) : Exact ((UnaryOp.neg.apply (.int a)).map .value) "-" (-a.toInt) := by
  have same : (UnaryOp.neg.apply (.int a)).map Result.value =
      (exactInt "-" (-a.toInt)).map fun n => .value n.toValue := by
    show ((exactInt "-" (-a.toInt)).map Number.toValue).map Result.value = _
    cases exactInt "-" (-a.toInt) <;> rfl
  rw [same]
  exact exact_exactInt "-" (-a.toInt)

theorem division_by_zero (zero : b.toInt = 0) :
    BinaryOp.apply ls (.arith .intDiv) (.int a) (.int b) = .error .divisionByZero ∧
      BinaryOp.apply ls (.arith .mod) (.int a) (.int b) = .error .divisionByZero := by
  obtain ⟨quotient, remainder⟩ := @Arithmetic.onInts_zero a b zero
  rw [Arithmetic.apply_ints, Arithmetic.apply_ints, quotient, remainder]
  exact ⟨rfl, rfl⟩

end

section

variable {ls : Lists} {a b q : Int64}

theorem quotient_of_ok
    (found : BinaryOp.apply ls (.arith .intDiv) (.int a) (.int b) = .ok (.value (.int q))) :
    b.toInt ≠ 0 ∧ q.toInt = a.toInt.fdiv b.toInt := by
  have nonzero : b.toInt ≠ 0 := by
    intro zero
    rw [(division_by_zero ls zero).1] at found
    cases found
  exact ⟨nonzero, ((exact_intDiv ls nonzero).ok_iff q).mp found⟩

theorem exists_remainder
    (found : BinaryOp.apply ls (.arith .intDiv) (.int a) (.int b) = .ok (.value (.int q))) :
    ∃ r : Int64, BinaryOp.apply ls (.arith .mod) (.int a) (.int b) = .ok (.value (.int r)) ∧
      r.toInt = a.toInt.fmod b.toInt := by
  obtain ⟨nonzero, quotient⟩ := quotient_of_ok found
  have fits : Fits (a.toInt.fmod b.toInt) := by
    have between := (fmod_between a.toInt nonzero).2
    have bound := fits_toInt b
    rw [Fits] at bound ⊢
    omega
  exact (exact_mod ls nonzero (quotient ▸ fits_toInt q)).fits fits

theorem divide?_eq_some_iff (nonzero : b.toInt ≠ 0) {r : Int64} :
    Bounded.divide? a b = some (q, r) ↔
      BinaryOp.apply ls (.arith .intDiv) (.int a) (.int b) = .ok (.value (.int q)) ∧
        BinaryOp.apply ls (.arith .mod) (.int a) (.int b) = .ok (.value (.int r)) := by
  have divisor : b ≠ 0 := by
    rintro rfl
    exact nonzero rfl
  have quotient := @exact_intDiv ls a b nonzero
  constructor
  · intro found
    obtain ⟨value, value'⟩ := Bounded.toInt_of_divide? divisor found
    have fits := value ▸ fits_toInt q
    exact ⟨(quotient.ok_iff q).mpr value, ((exact_mod ls nonzero fits).ok_iff r).mpr value'⟩
  · rintro ⟨left, right⟩
    have value := (quotient.ok_iff q).mp left
    have fits := value ▸ fits_toInt q
    have value' := ((exact_mod ls nonzero fits).ok_iff r).mp right
    cases found : Bounded.divide? a b with
    | none => exact absurd fits ((Bounded.divide?_eq_none_iff divisor).mp found)
    | some result =>
      obtain ⟨same, same'⟩ := Bounded.toInt_of_divide? divisor found
      have first : result.1 = q := Int64.toInt_inj.mp (same.trans value.symm)
      have second : result.2 = r := Int64.toInt_inj.mp (same'.trans value'.symm)
      rw [← first, ← second]

end

/--
Integers are added, subtracted, multiplied, negated, raised to a power and divided exactly, or this
is refused, just where the exact result is out of range. The same results come from steps of 64
bits: none of these goes out of range unnoticed.
-/
theorem integers_exact_or_refused (ls : Lists) (a b : Int64) :
    let result op := BinaryOp.apply ls (.arith op) (.int a) (.int b)
    let ok (n : Int64) : Except SemanticError Result := .ok (.value (.int n))
    let m := a.toInt
    let n := b.toInt
    Exact (result .add) "+" (m + n) ∧ Exact (result .sub) "-" (m - n) ∧
    Exact (result .mul) "*" (m * n) ∧
    Exact ((UnaryOp.neg.apply (.int a)).map .value) "-" (-m) ∧
    (0 ≤ n → Exact (result .pow) "**" (m ^ n.toNat)) ∧
    (n ≠ 0 → Exact (result .intDiv) "div" ⌊(m / n : ℚ)⌋) ∧
    (n = 0 → result .intDiv = .error .divisionByZero ∧ result .mod = .error .divisionByZero) ∧
    (∀ q, result .intDiv = ok q → ∃ r, result .mod = ok r ∧ m = n * q.toInt + r.toInt ∧
      (r.toInt = 0 ∨ r.toInt.sign = n.sign) ∧ |r.toInt| < |n|) ∧
    (0 ≤ n → ∀ r, Bounded.power? a n.toNat = some r ↔ result .pow = ok r) ∧
    (n ≠ 0 → ∀ q r, Bounded.divide? a b = some (q, r) ↔
      result .intDiv = ok q ∧ result .mod = ok r) ∧
    (n ≠ 0 → a % b ≠ 0 → (a % b < 0 ↔ ¬ b < 0) →
      (a / b - 1).toInt = (a / b).toInt - 1 ∧ (a % b + b).toInt = (a % b).toInt + n) := by
  intro result ok m n
  refine ⟨exact_of_onInts ls rfl, exact_of_onInts ls rfl, exact_of_onInts ls rfl, exact_neg a,
    exact_pow ls, ?floor, division_by_zero ls, ?remainder, ?power, ?quotient, ?moved⟩
  case floor =>
    intro nonzero
    rw [floor_eq_fdiv m nonzero]
    exact exact_intDiv ls nonzero
  case remainder =>
    intro q found
    obtain ⟨r, found', value⟩ := exists_remainder found
    obtain ⟨nonzero, quotient⟩ := quotient_of_ok found
    obtain ⟨whole, between⟩ := fmod_between m nonzero
    refine ⟨r, found', ?_, ?_, ?_⟩
    · rw [quotient, value, add_comm]
      exact whole.symm
    · rw [value]
      exact sign_of_between between
    · rw [value]
      exact abs_of_between between
  case power =>
    intro nonneg r
    rw [Bounded.power?_eq, int64?_eq_some_iff]
    exact ((exact_pow ls nonneg).ok_iff r).symm
  case quotient => exact fun nonzero q r => divide?_eq_some_iff nonzero
  case moved =>
    intro nonzero
    apply Bounded.toInt_moved
    rintro rfl
    exact nonzero rfl

theorem integers_exact_or_refused_boundary :
    let result op a b := BinaryOp.apply Lists.empty (.arith op) (.int a) (.int b)
    let ok (n : Int64) : Except SemanticError Result := .ok (.value (.int n))
    result .pow (-2) 63 = ok Int64.minValue ∧ result .pow 2 63 = .error (.overflow "**") ∧
    result .pow (-1) (2 ^ 32 + 1) = ok (-1) ∧
    result .intDiv Int64.minValue 3 = ok (-3074457345618258603) ∧
    result .mod Int64.minValue 3 = ok 1 ∧
    result .intDiv Int64.minValue (-1) = .error (.overflow "div") ∧
    (Int64.minValue / 3 - 1).toInt = (Int64.minValue / 3).toInt - 1 := by
  intro result ok
  obtain ⟨-, -, -, -, least, -⟩ := integers_exact_or_refused .empty (-2) 63
  obtain ⟨-, -, -, -, most, -⟩ := integers_exact_or_refused .empty 2 63
  obtain ⟨-, -, -, -, -, -, -, -, long, -⟩ := integers_exact_or_refused .empty (-1) (2 ^ 32 + 1)
  obtain ⟨-, -, -, -, -, -, -, -, -, halves, moved⟩ :=
    integers_exact_or_refused .empty Int64.minValue 3
  obtain ⟨-, -, -, -, -, outside, -⟩ := integers_exact_or_refused .empty Int64.minValue (-1)
  obtain ⟨quotient, remainder⟩ := (halves (by decide) _ _).mp rfl
  refine ⟨((least (by decide)).ok_iff _).mpr rfl, (most (by decide)).refused (by decide),
    (long (by decide) _).mp rfl, quotient, remainder, (outside (by decide)).refused ?_,
    (moved (by decide) (by decide) (by decide)).1⟩
  rw [floor_eq_fdiv _ (by decide)]
  decide

end Scriptlet
