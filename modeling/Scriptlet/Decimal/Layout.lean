import Scriptlet.Decimal.Shortest

namespace Scriptlet.Decimal

structure Layout where
  positional : Int → Bool
  point : Bool

/-- Values as a program prints them: an exponent below `10^-4` and from `10^16` on. -/
def printed : Layout := ⟨fun k => -4 ≤ k && k < 16, true⟩

/-- Reals in messages about the program's text: never an exponent, no `.0`. -/
def plain : Layout := ⟨fun _ => true, false⟩

def positionalText (ds : List Char) (k : Int) (point : Bool) : List Char :=
  if k < 0 then '0' :: '.' :: List.replicate (-k - 1).toNat '0' ++ ds else
    let whole := k.toNat + 1
    let int := ds.take whole ++ List.replicate (whole - ds.length) '0'
    match ds.drop whole with
    | [] => if point then int ++ ['.', '0'] else int
    | fraction => int ++ '.' :: fraction

def exponentText (ds : List Char) (k : Int) : List Char :=
  let mantissa := match ds with
    | d :: e :: es => d :: '.' :: e :: es
    | ds => ds
  let ks := Nat.toDigits 10 k.natAbs
  let padded := List.replicate (2 - ks.length) '0' ++ ks
  mantissa ++ 'e' :: (if k < 0 then '-' else '+') :: padded

def Layout.magnitude (l : Layout) (b : Binary) : List Char :=
  if b.mantissa = 0 then positionalText ['0'] 0 l.point else
    let d := shortest b
    let ds := Nat.toDigits 10 d.digits
    let k := d.exponent + ds.length - 1
    if l.positional k then positionalText ds k l.point else exponentText ds k

def Layout.text (l : Layout) (x : Float) : String :=
  if x.isNaN then "nan" else
    let body := if x.isInf then ['i', 'n', 'f'] else l.magnitude (Binary.ofFloat x)
    String.ofList (if isNegative x then '-' :: body else body)

end Scriptlet.Decimal
