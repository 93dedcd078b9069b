import Scriptlet.Run.State

namespace Scriptlet

/-- What a continuation waits for: the value of an expression, or the end of some statements. -/
inductive Awaits where
  | value
  | done
  deriving DecidableEq, Repr

inductive Purpose where
  | list
  | tuple
  | indices (target : Value)
  | arguments (f : Function)
  | positions (x : Name) (e : Expr)

def Purpose.awaits : Purpose → Awaits
  | positions _ _ => .done
  | _ => .value

inductive Cont : Awaits → Type where
  | halt {w : Awaits} : Cont w
  | unary (op : UnaryOp) (k : Cont .value) : Cont .value
  | binaryLeft (op : BinaryOp) (r : Expr) (k : Cont .value) : Cont .value
  | binaryRight (op : BinaryOp) (l : Value) (k : Cont .value) : Cont .value
  | index (indices : List Expr) (k : Cont .value) : Cont .value
  | field (n : Int64) (k : Cont .value) : Cont .value
  | next (p : Purpose) (values : List Value) (es : List Expr) (k : Cont p.awaits) : Cont .value
  | leave (k : Cont .value) : Cont .value
  | print (k : Cont .done) : Cont .value
  | assign (x : Name) (k : Cont .done) : Cont .value
  | assignAt (x : Name) (indices : List Value) (k : Cont .done) : Cont .value
  | branch (body other : List Stmt) (k : Cont .done) : Cont .value
  | loop (cond : Expr) (body : List Stmt) (k : Cont .done) : Cont .value
  | discard (k : Cont .done) : Cont .value
  | rest (ss : List Stmt) (k : Cont .done) : Cont .done
  | again (cond : Expr) (body : List Stmt) (k : Cont .done) : Cont .done
  | result (e : Expr) (k : Cont .value) : Cont .done

/-- Leaves every call that the continuation would have returned from. -/
def Cont.unwind : {w : Awaits} → Cont w → State → State
  | _, halt, s => s
  | _, unary _ k, s => k.unwind s
  | _, binaryLeft _ _ k, s => k.unwind s
  | _, binaryRight _ _ k, s => k.unwind s
  | _, index _ k, s => k.unwind s
  | _, field _ k, s => k.unwind s
  | _, next _ _ _ k, s => k.unwind s
  | _, leave k, s => k.unwind s.leave
  | _, print k, s => k.unwind s
  | _, assign _ k, s => k.unwind s
  | _, assignAt _ _ k, s => k.unwind s
  | _, branch _ _ k, s => k.unwind s
  | _, loop _ _ k, s => k.unwind s
  | _, discard k, s => k.unwind s
  | _, rest _ k, s => k.unwind s
  | _, again _ _ k, s => k.unwind s
  | _, result _ k, s => k.unwind s.leave

end Scriptlet
