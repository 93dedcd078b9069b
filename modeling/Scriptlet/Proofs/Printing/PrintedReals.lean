import Scriptlet.Decimal.Layout
import Scriptlet.Proofs.Decimal.Digits
import Scriptlet.Proofs.Decimal.Sign
import Scriptlet.Proofs.Printing.Reals

namespace Scriptlet.Decimal

open Lexeme

/-- The texts of the finite reals that are not negative. -/
inductive Printed (x : Float) : List Char → Prop
  | lexeme {w : List Char} : w ∈ Class.real.language → realValue w = some x → '.' ∈ w → '+' ∉ w →
      Printed x w
  | pointless {d sign : Char} {es : List Char} : d.isDigit → (sign = '-' ∨ sign = '+') →
      (∀ c ∈ es, c.isDigit) → Printed x (d :: 'e' :: sign :: es)
  | large {d : Char} {ds es : List Char} : d.isDigit → (∀ c ∈ ds, c.isDigit) →
      (∀ c ∈ es, c.isDigit) → Printed x (d :: '.' :: (ds ++ 'e' :: '+' :: es))

/-- The digits are those of the decimal places before and after a point. -/
structure Places (whole fraction : List Char) (v : ℚ) : Prop where
  before : ∀ c ∈ whole, c.isDigit
  after : ∀ c ∈ fraction, c.isDigit
  ne_nil : whole ≠ []
  value : (Nat.ofDigitChars 10 (whole ++ fraction) 0 : ℚ) * 10 ^ (-fraction.length : Int) = v

variable {ds : List Char}

theorem isDigit_of_mem_replicate {n : Nat} {c : Char} (member : c ∈ List.replicate n '0') :
    c.isDigit := by
  rw [List.eq_of_mem_replicate member]
  rfl

theorem ofDigitChars_zeros_append (n : Nat) (ds : List Char) :
    Nat.ofDigitChars 10 (List.replicate n '0' ++ ds) 0 = Nat.ofDigitChars 10 ds 0 := by
  rw [Nat.ofDigitChars_append, Nat.ofDigitChars_replicate_zero, Nat.mul_zero]

theorem ofDigitChars_append_zeros (n : Nat) (ds : List Char) :
    Nat.ofDigitChars 10 (ds ++ List.replicate n '0') 0 = 10 ^ n * Nat.ofDigitChars 10 ds 0 := by
  rw [Nat.ofDigitChars_append, Nat.ofDigitChars_replicate_zero]

theorem positionalText_places (digits : ∀ c ∈ ds, c.isDigit) (ne : ds ≠ []) (k : Int) :
    ∃ whole fraction, positionalText ds k true = whole ++ '.' :: fraction ∧
      Places whole fraction (Nat.ofDigitChars 10 ds 0 * 10 ^ (k + 1 - ds.length)) := by
  rw [positionalText]
  split
  · rename_i negative
    refine ⟨['0'], List.replicate (-k - 1).toNat '0' ++ ds, rfl, by simp, ?_, by simp, ?_⟩
    · intro c member
      exact (List.mem_append.mp member).elim isDigit_of_mem_replicate (digits c)
    · have zeros : ['0'] ++ (List.replicate (-k - 1).toNat '0' ++ ds) =
          List.replicate ((-k - 1).toNat + 1) '0' ++ ds := rfl
      rw [zeros, ofDigitChars_zeros_append, List.length_append, List.length_replicate]
      congr 2
      omega
  · rename_i nonnegative
    obtain ⟨n, rfl⟩ := Int.eq_ofNat_of_zero_le (not_lt.mp nonnegative)
    simp only [Int.toNat_natCast]
    rcases Nat.lt_or_ge (n + 1) ds.length with long | short
    · obtain ⟨c, cs, rest⟩ := List.exists_cons_of_ne_nil
        (mt List.drop_eq_nil_iff.mp (not_le.mpr long))
      have none : n + 1 - ds.length = 0 := by omega
      refine ⟨ds.take (n + 1), ds.drop (n + 1), ?_,
        fun c member => digits c (List.mem_of_mem_take member),
        fun c member => digits c (List.mem_of_mem_drop member), by simp [ne], ?_⟩
      · rw [rest, none, List.replicate_zero, List.append_nil]
      · rw [List.take_append_drop, List.length_drop]
        congr 2
        omega
    · rw [List.drop_eq_nil_of_le short, List.take_of_length_le short]
      refine ⟨ds ++ List.replicate (n + 1 - ds.length) '0', ['0'], rfl, ?_, by simp, by simp [ne],
        ?_⟩
      · intro c member
        exact (List.mem_append.mp member).elim (digits c) isDigit_of_mem_replicate
      · have zeros : ds ++ List.replicate (n + 1 - ds.length) '0' ++ ['0'] =
            ds ++ List.replicate (n + 1 - ds.length + 1) '0' := by
          rw [List.append_assoc, List.replicate_succ']
        have power : (n + 1 - ds.length : Int) = (n + 1 - ds.length : Nat) := by omega
        rw [zeros, ofDigitChars_append_zeros, power, zpow_natCast, List.length_singleton, pow_succ]
        push_cast
        field_simp

def spelt (b : Binary) : ℚ := if b.mantissa = 0 then 0 else (shortest b).value

theorem ofScientific_of_spelt {x : Float} (finite : Finite x) {digits : Nat} {exponent : Int}
    (same : (digits : ℚ) * 10 ^ exponent = spelt (Binary.ofFloat x)) :
    ofScientific digits exponent = x := by
  rw [spelt] at same
  split at same
  · rename_i zero
    apply ofScientific_eq finite
    rw [same, magnitude, zero, Nat.cast_zero, zero_mul]
  · rename_i nonzero
    exact ofScientific_of_shortest finite nonzero same

theorem Places.realValue_eq {whole fraction tail : List Char} {v : ℚ}
    (places : Places whole fraction v) (stop : ∀ c, tail.head? = some c → c.isDigit = false)
    {e : Int} (exponent : exponentValue? tail = some e) {x : Float} (finite : Finite x)
    (same : v * 10 ^ e = spelt (Binary.ofFloat x)) :
    realValue (whole ++ '.' :: (fraction ++ tail)) = some x := by
  have ne : (whole ++ fraction).isEmpty = false := by simp [places.ne_nil]
  rw [realValue_parts places.before places.after stop, ne, exponent, digitsValue_eq_ofDigitChars]
  refine congrArg some (ofScientific_of_spelt finite ?_)
  rw [← same, ← places.value, sub_eq_add_neg, zpow_add₀ (by norm_num)]
  ring

def padded (k : Int) : List Char :=
  List.replicate (2 - (Nat.toDigits 10 k.natAbs).length) '0' ++ Nat.toDigits 10 k.natAbs

theorem exponentText_single (d : Char) (k : Int) :
    exponentText [d] k = d :: 'e' :: (if k < 0 then '-' else '+') :: padded k := rfl

theorem exponentText_several (d d' : Char) (ds : List Char) (k : Int) :
    exponentText (d :: d' :: ds) k =
      [d] ++ '.' :: (d' :: ds ++ 'e' :: (if k < 0 then '-' else '+') :: padded k) := rfl

theorem isDigit_padded (k : Int) : ∀ c ∈ padded k, c.isDigit := fun c member =>
  (List.mem_append.mp member).elim isDigit_of_mem_replicate (toDigits_isDigit _ c)

theorem exponentValue?_padded {k : Int} (negative : k < 0) :
    exponentValue? ('e' :: '-' :: padded k) = some k := by
  have ne : (padded k).isEmpty = false := by simp [padded]
  have value : Nat.ofDigitChars 10 (padded k) 0 = k.natAbs := by
    rw [padded, ofDigitChars_zeros_append, Nat.ofDigitChars_ten_toDigits]
  rw [exponentValue?, ne, digitsValue_eq_ofDigitChars, value]
  simp only [Bool.false_eq_true, if_false]
  congr 1
  omega

theorem plus_notMem_digits {ds : List Char} (digits : ∀ c ∈ ds, c.isDigit) : '+' ∉ ds :=
  fun member => absurd (digits '+' member) (by decide)

theorem printed_exponentText {x : Float} (finite : Finite x) {k : Int}
    (digits : ∀ c ∈ ds, c.isDigit) (ne : ds ≠ [])
    (value : Nat.ofDigitChars 10 ds 0 * 10 ^ (k + 1 - ds.length) = spelt (Binary.ofFloat x)) :
    Printed x (exponentText ds k) := by
  match ds, ne with
  | [d], _ =>
    rw [exponentText_single]
    refine .pointless (digits d List.mem_cons_self) ?_ (isDigit_padded k)
    split
    · exact .inl rfl
    · exact .inr rfl
  | d :: d' :: ds, _ =>
    have first : d.isDigit := digits d List.mem_cons_self
    have others : ∀ c ∈ d' :: ds, c.isDigit := fun c member =>
      digits c (List.mem_cons_of_mem _ member)
    rw [exponentText_several]
    split
    · rename_i negative
      have places : Places [d] (d' :: ds) (Nat.ofDigitChars 10 (d :: d' :: ds) 0 *
          10 ^ (-(d' :: ds).length : Int)) := ⟨by simpa using first, others, by simp, rfl⟩
      refine .lexeme ?_ (places.realValue_eq (by simp) (exponentValue?_padded negative) finite ?_)
        ?_ ?_
      · exact mem_real.mpr (.inr (.inr ⟨[d], d' :: ds, ['e', '-'], padded k, by simp,
          by simpa using first, others, by simp, isDigit_padded k, by simp⟩))
      · rw [← value, mul_assoc, ← zpow_add₀ (by norm_num)]
        congr 2
        simp only [List.length_cons]
        omega
      · simp
      · have none := plus_notMem_digits digits
        have none' := plus_notMem_digits (isDigit_padded k)
        simp_all
    · exact .large first others (isDigit_padded k)

theorem printed_positionalText {x : Float} (finite : Finite x) {k : Int}
    (digits : ∀ c ∈ ds, c.isDigit) (ne : ds ≠ [])
    (value : Nat.ofDigitChars 10 ds 0 * 10 ^ (k + 1 - ds.length) = spelt (Binary.ofFloat x)) :
    Printed x (positionalText ds k true) := by
  obtain ⟨whole, fraction, eq, places⟩ := positionalText_places digits ne k
  rw [value] at places
  have read : realValue (whole ++ '.' :: (fraction ++ [])) = some x :=
    places.realValue_eq (by simp) rfl finite (by rw [zpow_zero, mul_one])
  rw [List.append_nil] at read
  rw [eq]
  refine .lexeme ?_ read (by simp) ?_
  · exact mem_real.mpr (.inr (.inr ⟨whole, fraction, [], [], places.ne_nil, places.before,
      places.after, by simp, by simp, by simp⟩))
  · have none := plus_notMem_digits places.before
    have none' := plus_notMem_digits places.after
    simp [none, none']

theorem printed_magnitude {x : Float} (finite : Finite x) :
    Printed x (printed.magnitude (Binary.ofFloat x)) := by
  rw [Layout.magnitude]
  split
  · rename_i zero
    refine printed_positionalText finite (by simp) (by simp) ?_
    rw [spelt, if_pos zero]
    simp [Nat.ofDigitChars]
  · rename_i nonzero
    have digits := toDigits_isDigit (shortest (Binary.ofFloat x)).digits
    have ne : Nat.toDigits 10 (shortest (Binary.ofFloat x)).digits ≠ [] := Nat.toDigits_ne_nil
    generalize start : (shortest (Binary.ofFloat x)).exponent +
      (Nat.toDigits 10 (shortest (Binary.ofFloat x)).digits).length - 1 = k
    have value :
        (Nat.ofDigitChars 10 (Nat.toDigits 10 (shortest (Binary.ofFloat x)).digits) 0 : ℚ) *
        10 ^ (k + 1 - (Nat.toDigits 10 (shortest (Binary.ofFloat x)).digits).length) =
          spelt (Binary.ofFloat x) := by
      rw [Nat.ofDigitChars_ten_toDigits, spelt, if_neg nonzero, Scientific.value]
      congr 2
      omega
    simp only [start]
    split
    · exact printed_positionalText finite digits ne value
    · exact printed_exponentText finite digits ne value

end Scriptlet.Decimal
