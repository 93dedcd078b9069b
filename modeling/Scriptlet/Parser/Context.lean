import Scriptlet.Error
import Scriptlet.Precedence

namespace Scriptlet.Parser

structure Header where
  functions : List Function
  name : Name
  params : List Name

/-- What a block is part of. Lists of what was read hold the last item first. -/
inductive BlockContext where
  | main (functions : List Function)
  | body (h : Header)
  | nested (read : List Stmt) (outer : BlockContext)
  | then_ (cond : Expr) (read : List Stmt) (outer : BlockContext)
  | else_ (cond : Expr) (body : List Stmt) (read : List Stmt) (outer : BlockContext)
  | loop (cond : Expr) (read : List Stmt) (outer : BlockContext)

structure OpenBlock where
  read : List Stmt
  outer : BlockContext

def OpenBlock.add (b : OpenBlock) (s : Stmt) : OpenBlock := ⟨s :: b.read, b.outer⟩

inductive Pending where
  | unary (op : UnaryOp)
  | binary (l : Expr) (op : BinaryOp)

/-- The weakest level of an operator that becomes part of the right operand. -/
def Pending.floor : Pending → Nat
  | unary op => op.floor
  | binary _ op => op.floor

def Pending.apply : Pending → Expr → Expr
  | unary op, e => .unary op e
  | binary l op, e => .binary op l e

inductive ExprContext where
  | print (b : OpenBlock)
  | assign (x : Name) (b : OpenBlock)
  | place (x : Name) (indices : List Expr) (b : OpenBlock)
  | assignAt (x : Name) (indices : List Expr) (b : OpenBlock)
  | callStmt (f : Name) (args : List Expr) (b : OpenBlock)
  | ifCond (b : OpenBlock)
  | loopCond (b : OpenBlock)
  | result (h : Header) (body : List Stmt)
  | group (field : Option Int64) (pending : List Pending) (outer : ExprContext)
  | tuple (field : Option Int64) (items : List Expr) (pending : List Pending)
      (outer : ExprContext)
  | list (items : List Expr) (pending : List Pending) (outer : ExprContext)
  | callExpr (f : Name) (args : List Expr) (pending : List Pending) (outer : ExprContext)
  | index (target : Expr) (indices : List Expr) (pending : List Pending) (outer : ExprContext)

/-- What has just been read where an operator or the end of the expression may follow. -/
inductive Focus where
  | name (x : Name)
  | atom (e : Expr)
  | indexed (target : Expr) (indices : List Expr)

namespace Focus

def expr : Focus → Expr
  | name x => .var x
  | atom e => e
  | indexed target indices => .index target indices.reverse

def target : Focus → Expr × List Expr
  | name x => (.var x, [])
  | atom e => (e, [])
  | indexed target indices => (target, indices)

end Focus

def withField (field : Option Int64) (e : Expr) : Expr :=
  match field with
  | none => e
  | some n => .field n e

/-- Applies the pending operators that bind more tightly than an operator of the given level. -/
def reduce (level : Nat) : List Pending → Expr → List Pending × Expr
  | [], e => ([], e)
  | p :: ps, e => if p.floor ≤ level then (p :: ps, e) else reduce level ps (p.apply e)

def close (ps : List Pending) (e : Expr) : Expr := ps.foldl (fun e p => p.apply e) e

end Scriptlet.Parser
