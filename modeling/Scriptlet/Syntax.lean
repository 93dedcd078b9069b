namespace Scriptlet

/-- The name of a variable or of a function. The two kinds are looked up in different tables. -/
abbrev Name := String

inductive Comparison where
  | le | lt | eq | ne | ge | gt
  deriving DecidableEq, Repr

namespace Comparison

def spelling : Comparison → String
  | le => "<="
  | lt => "<"
  | eq => "=="
  | ne => "<>"
  | ge => ">="
  | gt => ">"

def holds : Comparison → Ordering → Bool
  | le, o => o.isLE
  | lt, o => o.isLT
  | eq, o => o.isEq
  | ne, o => o.isNe
  | ge, o => o.isGE
  | gt, o => o.isGT

end Comparison

inductive Arithmetic where
  | add | sub | mul | div | pow | intDiv | mod
  deriving DecidableEq, Repr

def Arithmetic.spelling : Arithmetic → String
  | add => "+"
  | sub => "-"
  | mul => "*"
  | div => "/"
  | pow => "**"
  | intDiv => "div"
  | mod => "mod"

inductive UnaryOp where
  | not | neg
  deriving DecidableEq, Repr

def UnaryOp.spelling : UnaryOp → String
  | not => "not"
  | neg => "-"

inductive BinaryOp where
  | orElse
  | andAlso
  | compare (c : Comparison)
  | cons
  | member
  | arith (a : Arithmetic)
  deriving DecidableEq, Repr

def BinaryOp.spelling : BinaryOp → String
  | orElse => "orelse"
  | andAlso => "andalso"
  | compare c => c.spelling
  | cons => "::"
  | member => "in"
  | arith a => a.spelling

inductive Literal where
  | bool (b : Bool)
  | int (n : Int64)
  | real (x : Float)
  | str (s : String)
  deriving DecidableEq

inductive Expr where
  | literal (l : Literal)
  | list (items : List Expr)
  | tuple (items : List Expr)
  | var (x : Name)
  | unary (op : UnaryOp) (e : Expr)
  | binary (op : BinaryOp) (l r : Expr)
  /-- `target[i][j]…`, the indices in the order in which they apply. -/
  | index (target : Expr) (indices : List Expr)
  | field (n : Int64) (target : Expr)
  | call (f : Name) (args : List Expr)

instance : Inhabited Expr := ⟨.tuple []⟩

inductive Stmt where
  | print (e : Expr)
  | assign (x : Name) (e : Expr)
  | assignAt (x : Name) (indices : List Expr) (e : Expr)
  | block (body : List Stmt)
  | ifThen (cond : Expr) (body : List Stmt)
  | ifElse (cond : Expr) (body other : List Stmt)
  | loop (cond : Expr) (body : List Stmt)
  | call (f : Name) (args : List Expr)

instance : Inhabited Stmt := ⟨.block []⟩

structure Function where
  name : Name
  params : List Name
  body : List Stmt
  result : Expr
  deriving Inhabited

structure Program where
  functions : List Function
  main : List Stmt
  deriving Inhabited

end Scriptlet
