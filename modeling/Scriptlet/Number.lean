import Scriptlet.Value

namespace Scriptlet

inductive Number where
  | int (n : Int64)
  | real (x : Float)
  deriving DecidableEq

namespace Number

def ofValue? : Value → Option Number
  | .int n => some (.int n)
  | .real x => some (.real x)
  | _ => none

def toValue : Number → Value
  | int n => .int n
  | real x => .real x

def toFloat : Number → Float
  | int n => Decimal.ofInt n.toInt
  | real x => x

def unitsInOne : Nat := 1 <<< (-Decimal.minExponent).toNat

theorem unitsInOne_pos : 0 < unitsInOne := by
  rw [unitsInOne, Nat.shiftLeft_eq, Nat.one_mul]
  exact Nat.two_pow_pos _

/--
How often `2^-1074` goes into the number. That is a whole number for all integers and finite reals;
an infinity is one place beyond the finite reals of its sign, and NaN has no place.
-/
def rank? : Number → Option Int
  | int n => some (n.toInt * unitsInOne)
  | real x =>
    if x.isNaN then none else
      let b := Decimal.Binary.ofFloat x
      let m : Nat := b.mantissa * Nat.pow 2 (b.exponent - Decimal.minExponent).toNat
      some (if Decimal.isNegative x then -m else m)

def compare? (a b : Number) : Option Ordering :=
  match a, b with
  | int m, int n => some (compare m.toInt n.toInt)
  | a, b =>
    match a.rank?, b.rank? with
    | some a, some b => some (compare a b)
    | _, _ => none

theorem compare?_eq (a b : Number) :
    a.compare? b = match a.rank?, b.rank? with
      | some a, some b => some (compare a b)
      | _, _ => none := by
  unfold compare?
  split
  · next m n =>
    have pos : (0 : Int) < unitsInOne := Int.natCast_pos.2 unitsInOne_pos
    simp only [rank?, compare, compareOfLessAndEq, Int.mul_lt_mul_right pos,
      Int.mul_eq_mul_right_iff (Int.ne_of_gt pos)]
  · rfl

end Number

end Scriptlet
