import Scriptlet.Number

namespace Scriptlet

def intBound : Nat := Nat.pow 2 63

def int64? (n : Int) : Option Int64 :=
  if -intBound ≤ n ∧ n < intBound then some (Int64.ofInt n) else none

def exactInt (op : String) (n : Int) : Except SemanticError Number :=
  match int64? n with
  | some n => .ok (.int n)
  | none => .error (.overflow op)

/--
`b ^ e` where it can fit into 64 bits: from an exponent of 64 on, only powers of `0`, `1` and
`-1` do.
-/
def intPower? (b : Int) (e : Nat) : Option Int :=
  if b.natAbs ≤ 1 then
    some (if e = 0 then 1 else if e % 2 = 0 then b * b else b)
  else if e < 64 then some (Int.pow b e)
  else none

/-- A power of reals; it fails without a real value, or a finite one from finite operands. -/
def realPower (b e : Float) : Except SemanticError Number :=
  if b == 0 && e < 0 then .error .divisionByZero else
    let r := Float.pow b e
    if r.isNaN && !b.isNaN && !e.isNaN then .error (.noRealResult Arithmetic.pow.spelling)
    else if r.isInf && b.isFinite && e.isFinite then .error (.overflow Arithmetic.pow.spelling)
    else .ok (.real r)

/-- An operator on two integers. `div` rounds down, so that `mod` takes the sign of the divisor. -/
def Arithmetic.onInts (op : Arithmetic) (a b : Int64) : Except SemanticError Number :=
  let m := a.toInt
  let n := b.toInt
  match op with
  | add => exactInt op.spelling (m + n)
  | sub => exactInt op.spelling (m - n)
  | mul => exactInt op.spelling (m * n)
  | div =>
    if n = 0 then .error .divisionByZero
    else .ok (.real (Decimal.ofInt m / Decimal.ofInt n))
  | pow =>
    if n < 0 then realPower (Decimal.ofInt m) (Decimal.ofInt n) else
      match intPower? m n.toNat with
      | some r => exactInt op.spelling r
      | none => .error (.overflow op.spelling)
  | intDiv =>
    if n = 0 then .error .divisionByZero else exactInt op.spelling (m.fdiv n)
  | mod =>
    -- a quotient that does not fit is refused here as well
    if n = 0 then .error .divisionByZero
    else if int64? (m.fdiv n) = none then .error (.overflow op.spelling)
    else exactInt op.spelling (m.fmod n)

def Arithmetic.onReals? (op : Arithmetic) (a b : Float) :
    Option (Except SemanticError Number) :=
  match op with
  | add => some (.ok (.real (a + b)))
  | sub => some (.ok (.real (a - b)))
  | mul => some (.ok (.real (a * b)))
  | div => some (if b == 0 then .error .divisionByZero else .ok (.real (a / b)))
  | pow => some (realPower a b)
  | intDiv | mod => none

def Arithmetic.onNumbers? (op : Arithmetic) : Number → Number →
    Option (Except SemanticError Number)
  | .int a, .int b => some (op.onInts a b)
  | a, b => op.onReals? a.toFloat b.toFloat

def Number.negate : Number → Except SemanticError Number
  | int n => exactInt UnaryOp.neg.spelling (-n.toInt)
  | real x => .ok (.real (-x))

end Scriptlet
