import Scriptlet.Operation.Arithmetic
import Scriptlet.Operation.Container

namespace Scriptlet

/-- What an operator with two operands yields: a value, or the elements of a new list. -/
inductive Result where
  | value (v : Value)
  | list (items : Sequence Value)

def Result.store (r : Result) (ls : Lists) : Value × Lists :=
  match r with
  | value v => (v, ls)
  | list items =>
    let (id, ls) := ls.add items
    (.list id, ls)

/-- Strings compare with strings and numbers with numbers; a string and a number are unequal. -/
def Comparison.apply (c : Comparison) (a b : Value) : Except SemanticError Bool :=
  let mismatch : Except SemanticError Bool := .error (.typeMismatch c.spelling [a.kind, b.kind])
  let unlike := match c with
    | eq => .ok false
    | ne => .ok true
    | _ => mismatch
  match a, b with
  | .str a, .str b => .ok (c.holds (compare a b))
  | .str _, b => if (Number.ofValue? b).isSome then unlike else mismatch
  | a, .str _ => if (Number.ofValue? a).isSome then unlike else mismatch
  | a, b =>
    match Number.ofValue? a, Number.ofValue? b with
    | some a, some b =>
      match a.compare? b with
      | some o => .ok (c.holds o)
      | none => .ok (c = ne)
    | _, _ => mismatch

def Arithmetic.apply (ls : Lists) (op : Arithmetic) (a b : Value) :
    Except SemanticError Result :=
  match op, a, b with
  | add, .str a, .str b => .ok (.value (.str (a ++ b)))
  | add, .list a, .list b => .ok (.list (ls.get a ++ ls.get b))
  | op, a, b =>
    let mismatch := .error (.typeMismatch op.spelling [a.kind, b.kind])
    match Number.ofValue? a, Number.ofValue? b with
    | some m, some n =>
      match op.onNumbers? m n with
      | some r => r.map fun n => .value n.toValue
      | none => mismatch
    | _, _ => mismatch

def UnaryOp.apply (op : UnaryOp) (v : Value) : Except SemanticError Value :=
  match op, v with
  | not, .bool b => .ok (.bool !b)
  | neg, .int n => (Number.int n).negate.map Number.toValue
  | neg, .real x => (Number.real x).negate.map Number.toValue
  | op, v => .error (.typeMismatch op.spelling [v.kind])

def BinaryOp.apply (ls : Lists) (op : BinaryOp) (a b : Value) : Except SemanticError Result :=
  match op with
  | orElse =>
    match a, b with
    | .bool a, .bool b => .ok (.value (.bool (a || b)))
    | a, b => .error (.typeMismatch op.spelling [a.kind, b.kind])
  | andAlso =>
    match a, b with
    | .bool a, .bool b => .ok (.value (.bool (a && b)))
    | a, b => .error (.typeMismatch op.spelling [a.kind, b.kind])
  | compare c => (c.apply a b).map fun r => .value (.bool r)
  | cons =>
    match b with
    | .list tail => .ok (.list (.cons a (ls.get tail)))
    | b => .error (.typeMismatch op.spelling [b.kind])
  | member => (a.member ls b).map fun r => .value (.bool r)
  | arith op => op.apply ls a b

end Scriptlet
