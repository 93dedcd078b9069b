import Scriptlet.Proofs.Decimal.Nearest
import Scriptlet.Proofs.Printing.Text

namespace Scriptlet

namespace Decimal

def Binary.digits (b : Binary) : Nat := b.mantissa * 2 ^ b.exponent.toNat * 5 ^ (-b.exponent).toNat

def Binary.scale (b : Binary) : Nat := (-b.exponent).toNat

theorem magnitude_eq (x : Float) : ((Binary.ofFloat x).digits : ℚ) *
    10 ^ (-((Binary.ofFloat x).scale : Int)) = magnitude x := by
  rw [magnitude, zpow_parts 2, Binary.digits, Binary.scale, zpow_neg, zpow_natCast]
  have ten : (10 : ℚ) = 2 * 5 := by norm_num
  rw [ten, mul_pow]
  push_cast
  field_simp

end Decimal

namespace Lexeme

/-- Infinity is a number that is too large. -/
def realText (x : Float) : List Char :=
  if x.toBits.toNat < Decimal.infinityBits then
    Nat.toDigits 10 (Decimal.Binary.ofFloat x).digits ++ '.' :: 'e' :: '-' ::
      Nat.toDigits 10 (Decimal.Binary.ofFloat x).scale
  else Nat.toDigits 10 1 ++ '.' :: 'e' :: Nat.toDigits 10 999

theorem toDigits_isDigit (n : Nat) : ∀ c ∈ Nat.toDigits 10 n, c.isDigit := fun _ =>
  Nat.isDigit_of_mem_toDigits (by decide) (by decide)

theorem realText_mem (x : Float) : realText x ∈ Class.real.language := by
  rw [realText]
  split
  · exact mem_real.mpr (.inr (.inr ⟨_, [], ['e', '-'], _, Nat.toDigits_ne_nil, toDigits_isDigit _,
      by simp, by simp, toDigits_isDigit _, rfl⟩))
  · exact mem_real.mpr (.inr (.inr ⟨_, [], ['e'], _, Nat.toDigits_ne_nil, toDigits_isDigit _,
      by simp, by simp, toDigits_isDigit _, rfl⟩))

theorem digitsValue_toDigits (n : Nat) : digitsValue (Nat.toDigits 10 n) = n := by
  rw [digitsValue_eq_ofDigitChars, Nat.ofDigitChars_ten_toDigits]

theorem realValue_whole (digits : Nat) {c : Char} (stop : c.isDigit = false) (tail : List Char) :
    realValue (Nat.toDigits 10 digits ++ '.' :: c :: tail) =
      (exponentValue? (c :: tail)).map (Decimal.ofScientific digits) := by
  have parts := @realValue_parts _ [] (c :: tail) (toDigits_isDigit digits) (by simp)
    (by simpa using stop)
  rw [List.nil_append, List.append_nil, List.isEmpty_eq_false_iff.mpr Nat.toDigits_ne_nil,
    digitsValue_toDigits] at parts
  simpa using parts

theorem realValue_scaled (digits scale : Nat) :
    realValue (Nat.toDigits 10 digits ++ '.' :: 'e' :: '-' :: Nat.toDigits 10 scale) =
      some (Decimal.ofScientific digits (-scale)) := by
  rw [realValue_whole digits rfl, exponentValue?, digitsValue_toDigits,
    List.isEmpty_eq_false_iff.mpr Nat.toDigits_ne_nil]
  rfl

theorem realValue_infinity :
    realValue (Nat.toDigits 10 1 ++ '.' :: 'e' :: Nat.toDigits 10 999) =
      some (Float.ofBits (UInt64.ofNat Decimal.infinityBits)) := by
  have exponent : exponentValue? ('e' :: Nat.toDigits 10 999) = some 999 := by decide
  have read : Decimal.ofScientific 1 999 = Float.ofBits (UInt64.ofNat Decimal.infinityBits) := by
    rw [Decimal.ofScientific, if_neg (by decide), if_pos (by decide)]
  rw [realValue_whole 1 rfl, exponent, Option.map_some, read]

theorem realValue_realText {x : Float} (unsigned : Unsigned x) :
    realValue (realText x) = some x := by
  rw [realText]
  split
  · rename_i finite
    rw [realValue_scaled, Decimal.ofScientific_eq finite (Decimal.magnitude_eq x)]
  · rename_i infinite
    have bits : x.toBits.toNat = Decimal.infinityBits :=
      Nat.le_antisymm ((Decimal.unsigned_iff x).mp unsigned) (Nat.le_of_not_lt infinite)
    rw [realValue_infinity, ← bits, UInt64.ofNat_toNat, Decimal.ofBits_toBits unsigned]

theorem spellsReals_realText : SpellsReals realText := fun x unsigned =>
  ⟨realText_mem x, realValue_realText unsigned⟩

end Lexeme

end Scriptlet
