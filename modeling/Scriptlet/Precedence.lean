import Scriptlet.Syntax

namespace Scriptlet

def BinaryOp.level : BinaryOp → Nat
  | orElse => 0
  | andAlso => 1
  | compare _ => 3
  | cons => 4
  | member => 5
  | arith .add | arith .sub => 6
  | arith .mul | arith .div | arith .intDiv | arith .mod => 7
  | arith .pow => 9

def BinaryOp.rightAssoc : BinaryOp → Bool
  | cons | arith .pow => true
  | _ => false

/-- The weakest level of an operator that may stand, without parentheses, on the right of `op`. -/
def BinaryOp.floor (op : BinaryOp) : Nat :=
  if op.rightAssoc then op.level else op.level + 1

/-- The weakest level of an operator that the operand of a unary operator takes in. -/
def UnaryOp.floor : UnaryOp → Nat
  | not => 3
  | neg => 8

end Scriptlet
