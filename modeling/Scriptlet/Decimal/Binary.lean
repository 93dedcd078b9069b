namespace Scriptlet.Decimal

structure Binary where
  mantissa : Nat
  exponent : Int
  deriving DecidableEq, Repr

def infinityBits : Nat := 2047 * Nat.pow 2 52

def minExponent : Int := -1074

/-- The magnitude of a real. An infinity decodes to `2^1024`, just above the largest finite real. -/
def Binary.ofFloat (x : Float) : Binary :=
  let bits : Nat := x.toBits.toNat
  let field : Nat := bits / Nat.pow 2 52 % Nat.pow 2 11
  let fraction : Nat := bits % Nat.pow 2 52
  if field = 0 then ⟨fraction, minExponent⟩ else ⟨fraction + Nat.pow 2 52, field - 1075⟩

def isNegative (x : Float) : Bool := Nat.pow 2 63 ≤ x.toBits.toNat

def roundEven (num den : Nat) : Nat :=
  let q := num / den
  let r := num % den
  if 2 * r < den then q else if den < 2 * r then q + 1 else q + q % 2

def log2Fraction (num den : Nat) : Int :=
  let k : Int := (Nat.log2 num : Int) - Nat.log2 den
  if den * Nat.pow 2 k.toNat ≤ num * Nat.pow 2 (-k).toNat then k else k - 1

/--
The real nearest to `num / den`, of two equally near ones the one with the even mantissa. A
fraction that rounds to `2^1024` or more becomes infinity: the bits of a real, read as a
number, are `(exponent + 1074) · 2^52 + mantissa`, so a carry out of the mantissa moves to the
next exponent by itself.
-/
def nearest (num den : Nat) : Float :=
  if num = 0 then Float.ofBits 0 else
    let e := max (log2Fraction num den - 52) minExponent
    let m := roundEven (num * Nat.pow 2 (-e).toNat) (den * Nat.pow 2 e.toNat)
    let bits := (e - minExponent).toNat * Nat.pow 2 52 + m
    Float.ofBits (UInt64.ofNat (min bits infinityBits))

def ofInt (n : Int) : Float :=
  if n < 0 then -nearest n.natAbs 1 else nearest n.natAbs 1

/--
The real nearest to `digits · 10^exponent`. Ten is more than `2^3`: that settles the exponents
that are far out of range without writing their powers out.
-/
def ofScientific (digits : Nat) (exponent : Int) : Float :=
  let top := Nat.log2 digits + 3 * exponent
  if digits = 0 ∨ top < -1075 then Float.ofBits 0
  else if 0 ≤ exponent ∧ 1024 ≤ top then Float.ofBits (UInt64.ofNat infinityBits)
  else nearest (digits * Nat.pow 10 exponent.toNat) (Nat.pow 10 (-exponent).toNat)

end Scriptlet.Decimal
