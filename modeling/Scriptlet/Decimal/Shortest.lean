import Scriptlet.Decimal.Binary

namespace Scriptlet.Decimal

structure Scientific where
  digits : Nat
  exponent : Int
  deriving DecidableEq, Repr

namespace Scientific

def trim (d : Scientific) : Scientific :=
  if _ : d.digits ≠ 0 ∧ d.digits % 10 = 0 then trim ⟨d.digits / 10, d.exponent + 1⟩ else d
termination_by d.digits
decreasing_by omega

end Scientific

/--
The `k` with `10^k ≤ num / den < 10^(k + 1)`, for a positive fraction. Below one it is `-j` for
the least `j` with `den / num ≤ 10^j`, which says that `(den - 1) / num` has at most `j` digits.
-/
def log10Fraction (num den : Nat) : Int :=
  if den ≤ num then (Nat.toDigits 10 (num / den)).length - 1
  else -(Nat.toDigits 10 ((den - 1) / num)).length

structure Interval where
  lo : Nat
  num : Nat
  hi : Nat
  den : Nat
  closed : Bool

/--
The interval of a positive real, in quarters of the last binary place. Below a power of two the
next smaller real is half as far away as the next larger.
-/
def Interval.ofBinary (b : Binary) : Interval :=
  let e := b.exponent - 2
  let scale := Nat.pow 2 e.toNat
  let below := if b.mantissa = Nat.pow 2 52 ∧ minExponent < b.exponent then 1 else 2
  { lo := (4 * b.mantissa - below) * scale
    num := 4 * b.mantissa * scale
    hi := (4 * b.mantissa + 2) * scale
    den := Nat.pow 2 (-e).toNat
    closed := b.mantissa % 2 = 0 }

def Interval.contains (i : Interval) (n : Nat) (k : Int) : Bool :=
  let x := n * Nat.pow 10 k.toNat * i.den
  let unit := Nat.pow 10 (-k).toNat
  if i.closed then i.lo * unit ≤ x ∧ x ≤ i.hi * unit else i.lo * unit < x ∧ x < i.hi * unit

def Interval.onGrid? (i : Interval) (k : Int) : Option Scientific :=
  let a := i.num * Nat.pow 10 (-k).toNat
  let b := i.den * Nat.pow 10 k.toNat
  let n := a / b
  match i.contains n k, i.contains (n + 1) k with
  | true, true => some ⟨if 2 * (a % b) < b then n else n + 1, k⟩
  | true, false => some ⟨n, k⟩
  | false, true => some ⟨n + 1, k⟩
  | false, false => none

def Interval.search (i : Interval) : Nat → Int → Option Scientific
  | 0, _ => none
  | fuel + 1, k => (i.onGrid? k).orElse fun _ => i.search fuel (k - 1)

/--
The shortest decimal that rounds to a positive real. The fractions that round to the real form an
interval; of the grids with 1, 2, … digits the first with a point in it is taken, at the latest the
finest, as every real is a multiple of `10^-1074` and less than `10^309`.
-/
def shortest (b : Binary) : Scientific :=
  let i := Interval.ofBinary b
  ((i.search 1400 (log10Fraction i.num i.den)).getD ⟨0, 0⟩).trim

end Scriptlet.Decimal
