import Scriptlet.Error

namespace Scriptlet

def isBlank (c : Char) : Bool := c = ' ' || c = '\t' || c = '\r' || c = '\n'

def isWordChar (c : Char) : Bool := c.isAlphanum || c = '_'

namespace Lexeme

inductive Class where
  | fixed (f : Fixed)
  | real
  | int
  | str
  | word
  deriving DecidableEq, Repr

def digitCount (cs : List Char) : Nat := (cs.takeWhile Char.isDigit).length

/-- The length of `(e-?)?d*` at the front. -/
def optionalExponent (cs : List Char) : Nat :=
  match cs with
  | 'e' :: '-' :: r => 2 + digitCount r
  | 'e' :: r => 1 + digitCount r
  | _ => 0

/-- The length of `e-?d⁺` at the front, or 0. -/
def exponent (cs : List Char) : Nat :=
  match cs with
  | 'e' :: '-' :: r => if digitCount r = 0 then 0 else 2 + digitCount r
  | 'e' :: r => if digitCount r = 0 then 0 else 1 + digitCount r
  | _ => 0

def number (cs : List Char) : Class × Nat :=
  let whole := digitCount cs
  match cs.drop whole with
  | '.' :: r =>
    let fraction := digitCount r
    (.real, whole + 1 + fraction + optionalExponent (r.drop fraction))
  | _ => (.int, whole)

def pointed (cs : List Char) : Option Nat :=
  let fraction := digitCount cs
  let length := fraction + exponent (cs.drop fraction)
  if length = 0 then none else some length

def string (q : Char) (cs : List Char) : Option Nat :=
  let body := (cs.takeWhile (· ≠ q)).length
  if body < cs.length then some (body + 1) else none

def word (c : Char) (cs : List Char) : Class × Nat :=
  let tail := cs.takeWhile isWordChar
  match Fixed.ofWord? (String.ofList (c :: tail)) with
  | some f => (.fixed f, tail.length)
  | none => (.word, tail.length)

def sign (c : Char) (cs : List Char) : Option (Fixed × Nat) :=
  match c, cs with
  | '*', '*' :: _ => some (.pow, 1)
  | ':', ':' :: _ => some (.cons, 1)
  | '<', '=' :: _ => some (.le, 1)
  | '<', '>' :: _ => some (.ne, 1)
  | '=', '=' :: _ => some (.eq, 1)
  | '>', '=' :: _ => some (.ge, 1)
  | '(', _ => some (.lparen, 0)
  | ')', _ => some (.rparen, 0)
  | ',', _ => some (.comma, 0)
  | '#', _ => some (.hash, 0)
  | '[', _ => some (.lbracket, 0)
  | ']', _ => some (.rbracket, 0)
  | '\x7b', _ => some (.lbrace, 0)
  | '\x7d', _ => some (.rbrace, 0)
  | '*', _ => some (.star, 0)
  | '/', _ => some (.slash, 0)
  | '+', _ => some (.plus, 0)
  | '-', _ => some (.minus, 0)
  | '<', _ => some (.lt, 0)
  | '>', _ => some (.gt, 0)
  | '=', _ => some (.assign, 0)
  | ';', _ => some (.semicolon, 0)
  | _, _ => none

/--
The longest lexeme of any class at the front of `c :: cs`, and how many characters of `cs` it takes.
Reals are `.d⁺`, `.d*e-?d⁺` and `d⁺.d*(e-?)?d*`: `.5e` is the real `.5` before a name, while `1.5e`
is one lexeme, which has no value.
-/
def scan (c : Char) (cs : List Char) : Option (Class × Nat) :=
  if c.isDigit then some (number cs)
  else if c = '.' then (pointed cs).map (.real, ·)
  else if c = '"' ∨ c = '\'' then (string c cs).map (.str, ·)
  else if c.isAlpha then some (word c cs)
  else (sign c cs).map fun (f, n) => (.fixed f, n)

/--
What a message shows where no lexeme starts: an open string to the end of the text, the `.e` of
an exponent without digits, else the one character.
-/
def unreadable (c : Char) (cs : List Char) : List Char :=
  if c = '"' ∨ c = '\'' then c :: cs
  else if c = '.' ∧ cs.head? = some 'e' then ['.', 'e']
  else [c]

def digitValue (d : Char) : Nat := d.toNat - '0'.toNat

/-- Goes on from `high * scale + low`, where digits go to `low` until `scale` is large. -/
def groupedValue (high low scale : Nat) : List Char → Nat
  | [] => high * scale + low
  | d :: ds =>
    if scale < Nat.pow 10 17 then groupedValue high (10 * low + digitValue d) (10 * scale) ds
    else groupedValue (high * scale + low) (digitValue d) 10 ds

def digitsValue (ds : List Char) : Nat := groupedValue 0 0 1 ds

theorem groupedValue_eq (high low scale : Nat) (ds : List Char) :
    groupedValue high low scale ds =
      ds.foldl (fun n d => 10 * n + digitValue d) (high * scale + low) := by
  induction ds generalizing high low scale with
  | nil => rfl
  | cons d ds ih =>
    simp only [groupedValue, List.foldl_cons]
    split <;> rw [ih] <;> congr 1
    · rw [Nat.mul_left_comm, Nat.mul_add, Nat.add_assoc]
    · rw [Nat.mul_comm]

theorem digitsValue_eq (ds : List Char) :
    digitsValue ds = ds.foldl (fun n d => 10 * n + digitValue d) 0 := groupedValue_eq 0 0 1 ds

def intValue (cs : List Char) : Option Int64 :=
  let n := digitsValue cs
  if n < Nat.pow 2 63 then some (Int64.ofNat n) else none

/-- A real literal. It needs a digit beside the point, and one after `e`. -/
def realValue (cs : List Char) : Option Float :=
  let whole := cs.takeWhile Char.isDigit
  let afterPoint := (cs.drop whole.length).drop 1
  let fraction := afterPoint.takeWhile Char.isDigit
  let digits := whole ++ fraction
  if digits.isEmpty then none else
    let value (e : Int) := Decimal.ofScientific (digitsValue digits) (e - fraction.length)
    match afterPoint.drop fraction.length with
    | [] => some (value 0)
    | 'e' :: '-' :: ds => if ds.isEmpty then none else some (value (-digitsValue ds))
    | _ :: ds => if ds.isEmpty then none else some (value (digitsValue ds))

def Class.token? (cls : Class) (text : List Char) : Option Token :=
  match cls with
  | fixed f => some (.fixed f)
  | int => (intValue text).map .int
  | real => (realValue text).map .real
  | str => some (.str (String.ofList (text.drop 1).dropLast))
  | word => some (.name (String.ofList text))

end Lexeme

def Token.readFrom (line : Nat) (read : List Located) : List Char →
    Except SyntaxError (List Located)
  | [] => .ok read.reverse
  | c :: cs =>
    if isBlank c then
      readFrom (if c = '\n' then line + 1 else line) read cs
    else match Lexeme.scan c cs with
      | none => .error (.unrecognizedInput (String.ofList (Lexeme.unreadable c cs)) line)
      | some (cls, n) =>
        let text := c :: cs.take n
        match cls.token? text with
        | none => .error (.invalidLiteral (String.ofList text) line)
        | some t => readFrom (line + text.count '\n') (⟨t, line⟩ :: read) (cs.drop n)
termination_by cs => cs.length
decreasing_by all_goals simp only [List.length_cons, List.length_drop]; omega

def Token.readAll (source : String) : Except SyntaxError (List Located) :=
  readFrom 1 [] source.toList

end Scriptlet
