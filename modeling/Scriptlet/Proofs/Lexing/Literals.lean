import Scriptlet.Proofs.Lexing.Rules

namespace Scriptlet.Lexeme

theorem digitsValue_eq_ofDigitChars (ds : List Char) : digitsValue ds = Nat.ofDigitChars 10 ds 0 :=
  digitsValue_eq ds

theorem intValue_eq (ds : List Char) : intValue ds = if Nat.ofDigitChars 10 ds 0 < 2 ^ 63
    then some (Int64.ofNat (Nat.ofDigitChars 10 ds 0)) else none := by
  rw [intValue, digitsValue_eq_ofDigitChars]
  rfl

theorem intValue_eq_none_iff (ds : List Char) :
    intValue ds = none ↔ 2 ^ 63 - 1 < Nat.ofDigitChars 10 ds 0 := by
  rw [intValue_eq, ite_eq_right_iff]
  constructor
  · intro large
    by_contra small
    cases large (by omega)
  · intro large small
    omega

def exponentValue? : List Char → Option Int
  | [] => some 0
  | 'e' :: '-' :: ds => if ds.isEmpty then none else some (-digitsValue ds)
  | _ :: ds => if ds.isEmpty then none else some (digitsValue ds)

theorem realValue_parts {whole fraction tail : List Char} (hw : ∀ d ∈ whole, d.isDigit)
    (hf : ∀ d ∈ fraction, d.isDigit) (stop : ∀ c, tail.head? = some c → c.isDigit = false) :
    realValue (whole ++ '.' :: (fraction ++ tail)) =
      if (whole ++ fraction).isEmpty then none else (exponentValue? tail).map fun e =>
        Decimal.ofScientific (digitsValue (whole ++ fraction)) (e - fraction.length) := by
  have run : (whole ++ '.' :: (fraction ++ tail)).takeWhile Char.isDigit = whole := by
    rw [List.takeWhile_append_of_pos hw, List.takeWhile_cons_of_neg (by decide), List.append_nil]
  have run' : (fraction ++ tail).takeWhile Char.isDigit = fraction := by
    rw [List.takeWhile_append_of_pos hf]
    cases tail with
    | nil => rw [List.takeWhile_nil, List.append_nil]
    | cons c tail =>
      rw [List.takeWhile_cons_of_neg (by simp [stop c rfl]), List.append_nil]
  simp only [realValue, run, List.drop_left, List.drop_one, List.tail_cons, run']
  split
  · rfl
  · split
    · rfl
    · rename_i ds
      rw [exponentValue?]
      cases none : ds.isEmpty <;> simp
    · rename_i d ds unsigned
      rw [exponentValue?]
      · cases none : ds.isEmpty <;> simp
      · exact unsigned

def Exponent (tail : List Char) : Prop :=
  tail = [] ∨
    ∃ mark es, (mark = ['e'] ∨ mark = ['e', '-']) ∧ (∀ d ∈ es, d.isDigit) ∧ tail = mark ++ es

theorem real_parts {w : List Char} (real : w ∈ Class.real.language) :
    ∃ whole fraction tail, (∀ d ∈ whole, d.isDigit) ∧ (∀ d ∈ fraction, d.isDigit) ∧ Exponent tail ∧
      w = whole ++ '.' :: (fraction ++ tail) := by
  rcases mem_real.mp real with ⟨ds, _, digits, rfl⟩ | ⟨ds, sign, es, digits, signed, _, all, rfl⟩ |
    ⟨ds, fs, mark, es, _, digits, fraction, marked, all, rfl⟩
  · exact ⟨[], ds, [], by simp, digits, .inl rfl, by simp⟩
  · refine ⟨[], ds, 'e' :: (sign ++ es), by simp, digits, .inr ⟨'e' :: sign, es, ?_, all, rfl⟩, rfl⟩
    rcases signed with rfl | rfl
    · exact .inl rfl
    · exact .inr rfl
  · rcases marked with rfl | marked
    · have digits' : ∀ d ∈ fs ++ es, d.isDigit := fun d member =>
        (List.mem_append.mp member).elim (fraction d) (all d)
      exact ⟨ds, fs ++ es, [], digits, digits', .inl rfl, by simp⟩
    · exact ⟨ds, fs, mark ++ es, digits, fraction, .inr ⟨mark, es, marked, all, rfl⟩, by simp⟩

theorem exponentValue?_eq_none_iff {mark es : List Char} (marked : mark = ['e'] ∨ mark = ['e', '-'])
    (digits : ∀ d ∈ es, d.isDigit) : exponentValue? (mark ++ es) = none ↔ es = [] := by
  rcases marked with rfl | rfl
  · cases es with
    | nil => exact ⟨fun _ => rfl, fun _ => rfl⟩
    | cons d es =>
      have unsigned : d ≠ '-' := by
        rintro rfl
        exact absurd (digits '-' List.mem_cons_self) (by decide)
      simp [exponentValue?, unsigned]
  · cases es with
    | nil => exact ⟨fun _ => rfl, fun _ => rfl⟩
    | cons d es => simp [exponentValue?]

theorem eq_nil_of_no_digit {ds : List Char} (digits : ∀ d ∈ ds, d.isDigit)
    (none : ∀ d ∈ ds, d.isDigit = false) : ds = [] := by
  refine List.eq_nil_iff_forall_not_mem.mpr fun d member => ?_
  have digit := digits d member
  rw [none d member] at digit
  cases digit

theorem no_digit_in_mantissa_iff {whole fraction : List Char} (hw : ∀ d ∈ whole, d.isDigit)
    (hf : ∀ d ∈ fraction, d.isDigit) :
    (∀ c ∈ whole ++ '.' :: fraction, c.isDigit = false) ↔ (whole ++ fraction).isEmpty := by
  rw [List.isEmpty_iff, List.append_eq_nil_iff]
  constructor
  · intro none
    exact ⟨eq_nil_of_no_digit hw fun c member => none c (List.mem_append_left _ member),
      eq_nil_of_no_digit hf fun c member =>
        none c (List.mem_append_right _ (List.mem_cons_of_mem _ member))⟩
  · intro ⟨noWhole, noFraction⟩ c member
    rw [noWhole, noFraction, List.nil_append, List.mem_singleton] at member
    rw [member]
    rfl

theorem no_digit_in_exponent_iff {mark es : List Char} (marked : mark = ['e'] ∨ mark = ['e', '-'])
    (digits : ∀ d ∈ es, d.isDigit) :
    (∀ c ∈ mark ++ es, c.isDigit = false) ↔ exponentValue? (mark ++ es) = none := by
  rw [exponentValue?_eq_none_iff marked digits]
  constructor
  · intro none
    exact eq_nil_of_no_digit digits fun c member => none c (List.mem_append_right _ member)
  · intro none c member
    rw [none, List.append_nil] at member
    rcases marked with rfl | rfl
    · rw [List.mem_singleton.mp member]
      rfl
    · rcases List.mem_pair.mp member with rfl | rfl <;> rfl

theorem no_e_in_mantissa {whole fraction : List Char} (hw : ∀ d ∈ whole, d.isDigit)
    (hf : ∀ d ∈ fraction, d.isDigit) : 'e' ∉ whole ++ '.' :: fraction := by
  have noE (ds : List Char) (digits : ∀ d ∈ ds, d.isDigit) : 'e' ∉ ds := fun member =>
    absurd (digits 'e' member) (by decide)
  simp only [List.mem_append, List.mem_cons, noE whole hw, noE fraction hf, false_or, or_false]
  decide

/-- A real has no value if there is no digit before its `e`, or an `e` and no digit after it. -/
theorem realValue_eq_none_iff {w : List Char} (real : w ∈ Class.real.language) :
    realValue w = none ↔ (∀ c ∈ w.takeWhile (· ≠ 'e'), c.isDigit = false) ∨
      'e' ∈ w ∧ ∀ c ∈ w.dropWhile (· ≠ 'e'), c.isDigit = false := by
  obtain ⟨whole, fraction, tail, hw, hf, exponent, rfl⟩ := real_parts real
  have absent := no_e_in_mantissa hw hf
  have before : ∀ c ∈ whole ++ '.' :: fraction, decide (c ≠ 'e') := fun c member =>
    decide_eq_true (ne_of_mem_of_not_mem member absent)
  have text : whole ++ '.' :: (fraction ++ tail) = whole ++ '.' :: fraction ++ tail := by simp
  rcases exponent with rfl | ⟨mark, es, marked, all, rfl⟩
  · rw [realValue_parts hw hf (by simp), text, List.append_nil, List.takeWhile_eq_self_iff.mpr before,
      no_digit_in_mantissa_iff hw hf]
    simp [absent, exponentValue?]
  · obtain ⟨v, eq⟩ : ∃ v, mark ++ es = 'e' :: v := by
      rcases marked with rfl | rfl <;> exact ⟨_, rfl⟩
    have stop : ∀ c, (mark ++ es).head? = some c → c.isDigit = false := by
      rw [eq]
      intro c same
      cases same
      rfl
    have mantissa : (whole ++ '.' :: fraction ++ (mark ++ es)).takeWhile (· ≠ 'e') =
        whole ++ '.' :: fraction := by
      rw [List.takeWhile_append_of_pos before, eq, List.takeWhile_cons_of_neg (by simp),
        List.append_nil]
    have after : (whole ++ '.' :: fraction ++ (mark ++ es)).dropWhile (· ≠ 'e') = mark ++ es := by
      rw [List.dropWhile_append_of_pos before, eq, List.dropWhile_cons_of_neg (by simp)]
    have present : 'e' ∈ whole ++ '.' :: fraction ++ (mark ++ es) :=
      List.mem_append_right _ (eq ▸ List.mem_cons_self)
    rw [realValue_parts hw hf stop, text, mantissa, after, no_digit_in_mantissa_iff hw hf,
      no_digit_in_exponent_iff marked all]
    simp only [present, true_and]
    split <;> simp_all

end Scriptlet.Lexeme
