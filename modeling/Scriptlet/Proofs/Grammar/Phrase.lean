import Mathlib
import Scriptlet.Precedence
import Scriptlet.Token

namespace Scriptlet

namespace BinaryOp

def token : BinaryOp → Fixed
  | orElse => .orElse
  | andAlso => .andAlso
  | compare .le => .le
  | compare .lt => .lt
  | compare .eq => .eq
  | compare .ne => .ne
  | compare .ge => .ge
  | compare .gt => .gt
  | cons => .cons
  | member => .inWord
  | arith .add => .plus
  | arith .sub => .minus
  | arith .mul => .star
  | arith .div => .slash
  | arith .pow => .pow
  | arith .intDiv => .div
  | arith .mod => .mod

theorem binaryOp?_token (op : BinaryOp) : op.token.binaryOp? = some op := by
  cases op with
  | compare c => cases c <;> rfl
  | arith a => cases a <;> rfl
  | _ => rfl

theorem token_of_binaryOp? {f : Fixed} {op : BinaryOp} (h : f.binaryOp? = some op) :
    op.token = f := by
  cases f <;> cases h <;> rfl

end BinaryOp

def UnaryOp.token : UnaryOp → Fixed
  | not => .not
  | neg => .minus

def Literal.token : Literal → Token
  | bool true => .fixed .trueWord
  | bool false => .fixed .falseWord
  | int n => .int n
  | real x => .real x
  | str s => .str s

def separated : List (List Token) → List Token
  | [] => []
  | [ts] => ts
  | ts :: us :: rest => ts ++ .fixed .comma :: separated (us :: rest)

def bracketed (ts : List Token) : List Token := .fixed .lbracket :: ts ++ [.fixed .rbracket]

theorem separated_concat (parts : List (List Token)) (last : List Token) :
    separated (parts ++ [last]) = parts.flatMap (· ++ [.fixed .comma]) ++ last := by
  induction parts with
  | nil => rfl
  | cons ts parts ih =>
    have rest : separated ((ts :: parts) ++ [last]) =
        ts ++ .fixed .comma :: separated (parts ++ [last]) := by
      cases parts <;> rfl
    rw [rest, ih, List.flatMap_cons]
    simp only [List.append_assoc, List.cons_append, List.nil_append]

inductive Phrase where
  | literal (l : Literal)
  | name (x : Name)
  | call (f : Name) (args : List Phrase)
  | list (items : List Phrase)
  | tuple (items : List Phrase)
  | group (e : Phrase)
  | field (n : Int64) (target : Phrase)
  | index (target : Phrase) (indices : List Phrase)
  | unary (op : UnaryOp) (e : Phrase)
  | binary (op : BinaryOp) (l r : Phrase)

namespace Phrase

mutual

def tokens : Phrase → List Token
  | literal l => [l.token]
  | name x => [.name x]
  | call f args => [.name f, .fixed .lparen] ++ separated (tokensOf args) ++ [.fixed .rparen]
  | list items => [.fixed .lbracket] ++ separated (tokensOf items) ++ [.fixed .rbracket]
  | tuple items =>
    [.fixed .lparen] ++ separated (tokensOf items) ++
      (if items.length = 1 then [.fixed .comma, .fixed .rparen] else [.fixed .rparen])
  | group e => [.fixed .lparen] ++ e.tokens ++ [.fixed .rparen]
  | field n target => [.fixed .hash, .int n] ++ target.tokens
  | index target indices => target.tokens ++ (tokensOf indices).flatMap bracketed
  | unary op e => .fixed op.token :: e.tokens
  | binary op l r => l.tokens ++ .fixed op.token :: r.tokens

def tokensOf : List Phrase → List (List Token)
  | [] => []
  | g :: gs => g.tokens :: tokensOf gs

end

mutual

/-- What it stands for: grouping leaves no trace. -/
def tree : Phrase → Expr
  | literal l => .literal l
  | name x => .var x
  | call f args => .call f (treesOf args)
  | list items => .list (treesOf items)
  | tuple items => .tuple (treesOf items)
  | group e => e.tree
  | field n target => .field n target.tree
  | index target indices => .index target.tree (treesOf indices)
  | unary op e => .unary op e.tree
  | binary op l r => .binary op l.tree r.tree

def treesOf : List Phrase → List Expr
  | [] => []
  | g :: gs => g.tree :: treesOf gs

end

@[simp] theorem tokensOf_eq (gs : List Phrase) : tokensOf gs = gs.map tokens := by
  induction gs with
  | nil => rfl
  | cons g gs ih => rw [tokensOf, ih, List.map_cons]

@[simp] theorem treesOf_eq (gs : List Phrase) : treesOf gs = gs.map tree := by
  induction gs with
  | nil => rfl
  | cons g gs ih => rw [treesOf, ih, List.map_cons]

def isAtom : Phrase → Bool
  | index .. | unary .. | binary .. => false
  | _ => true

def isTarget : Phrase → Bool
  | name _ | group _ | tuple _ => true
  | _ => false

/-- An operator of the given level after the phrase takes the whole of it as its left operand. -/
def Yields (level : Nat) : Phrase → Prop
  | unary op e => level < op.floor ∧ e.Yields level
  | binary op _ r => level < op.floor ∧ r.Yields level
  | _ => True

/-- Not an operation that binds more weakly than the given level. -/
def Stands (floor : Nat) : Phrase → Prop
  | binary op _ _ => floor ≤ op.level
  | _ => True

inductive Proper : Phrase → Prop
  | literal (l : Literal) : Proper (literal l)
  | name (x : Name) : Proper (name x)
  | call (f : Name) {args : List Phrase} : (∀ g ∈ args, Proper g) → Proper (call f args)
  | list {items : List Phrase} : (∀ g ∈ items, Proper g) → Proper (list items)
  | tuple {items : List Phrase} : items ≠ [] → (∀ g ∈ items, Proper g) → Proper (tuple items)
  | group {e : Phrase} : Proper e → Proper (group e)
  | field (n : Int64) {target : Phrase} : target.isTarget → Proper target →
      Proper (field n target)
  | index {target : Phrase} {indices : List Phrase} : target.isAtom → indices ≠ [] →
      Proper target → (∀ g ∈ indices, Proper g) → Proper (index target indices)
  | unary {op : UnaryOp} {e : Phrase} : e.Stands op.floor → Proper e → Proper (unary op e)
  | binary {op : BinaryOp} {l r : Phrase} : l.Yields op.level → r.Stands op.floor →
      Proper l → Proper r → Proper (binary op l r)

end Phrase

inductive Clause where
  | print (e : Phrase)
  | restate (x : Name)
  | assign (x : Name) (e : Phrase)
  | assignAt (x : Name) (indices : List Phrase) (e : Phrase)
  | block (body : List Clause)
  | ifThen (cond : Phrase) (body : List Clause)
  | ifElse (cond : Phrase) (body other : List Clause)
  | loop (cond : Phrase) (body : List Clause)
  | call (f : Name) (args : List Phrase)

namespace Clause

def braced (ts : List Token) : List Token := .fixed .lbrace :: ts ++ [.fixed .rbrace]

mutual

def tokens : Clause → List Token
  | print e => [.fixed .print, .fixed .lparen] ++ e.tokens ++ [.fixed .rparen, .fixed .semicolon]
  | restate x => [.name x, .fixed .semicolon]
  | assign x e => [.name x, .fixed .assign] ++ e.tokens ++ [.fixed .semicolon]
  | assignAt x indices e =>
    [.name x] ++ (indices.map Phrase.tokens).flatMap bracketed ++ [.fixed .assign] ++ e.tokens ++
      [.fixed .semicolon]
  | block body => braced (tokensOf body)
  | ifThen cond body =>
    [.fixed .ifWord, .fixed .lparen] ++ cond.tokens ++ [.fixed .rparen] ++ braced (tokensOf body)
  | ifElse cond body other =>
    [.fixed .ifWord, .fixed .lparen] ++ cond.tokens ++ [.fixed .rparen] ++
      braced (tokensOf body) ++ [.fixed .elseWord] ++ braced (tokensOf other)
  | loop cond body =>
    [.fixed .whileWord, .fixed .lparen] ++ cond.tokens ++ [.fixed .rparen] ++
      braced (tokensOf body)
  | call f args =>
    [.name f, .fixed .lparen] ++ separated (args.map Phrase.tokens) ++
      [.fixed .rparen, .fixed .semicolon]

def tokensOf : List Clause → List Token
  | [] => []
  | c :: cs => c.tokens ++ tokensOf cs

end

mutual

def tree : Clause → Stmt
  | print e => .print e.tree
  | restate x => .assign x (.var x)
  | assign x e => .assign x e.tree
  | assignAt x indices e => .assignAt x (indices.map Phrase.tree) e.tree
  | block body => .block (treesOf body)
  | ifThen cond body => .ifThen cond.tree (treesOf body)
  | ifElse cond body other => .ifElse cond.tree (treesOf body) (treesOf other)
  | loop cond body => .loop cond.tree (treesOf body)
  | call f args => .call f (args.map Phrase.tree)

def treesOf : List Clause → List Stmt
  | [] => []
  | c :: cs => c.tree :: treesOf cs

end

@[simp] theorem tokensOf_eq (cs : List Clause) : tokensOf cs = cs.flatMap tokens := by
  induction cs with
  | nil => rfl
  | cons c cs ih => rw [tokensOf, ih, List.flatMap_cons]

@[simp] theorem treesOf_eq (cs : List Clause) : treesOf cs = cs.map tree := by
  induction cs with
  | nil => rfl
  | cons c cs ih => rw [treesOf, ih, List.map_cons]

inductive Proper : Clause → Prop
  | print {e : Phrase} : e.Proper → Proper (print e)
  | restate (x : Name) : Proper (restate x)
  | assign (x : Name) {e : Phrase} : e.Proper → Proper (assign x e)
  | assignAt (x : Name) {indices : List Phrase} {e : Phrase} : indices ≠ [] →
      (∀ g ∈ indices, g.Proper) → e.Proper → Proper (assignAt x indices e)
  | block {body : List Clause} : (∀ c ∈ body, Proper c) → Proper (block body)
  | ifThen {cond : Phrase} {body : List Clause} : cond.Proper → (∀ c ∈ body, Proper c) →
      Proper (ifThen cond body)
  | ifElse {cond : Phrase} {body other : List Clause} : cond.Proper → (∀ c ∈ body, Proper c) →
      (∀ c ∈ other, Proper c) → Proper (ifElse cond body other)
  | loop {cond : Phrase} {body : List Clause} : cond.Proper → (∀ c ∈ body, Proper c) →
      Proper (loop cond body)
  | call (f : Name) {args : List Phrase} : (∀ g ∈ args, g.Proper) → Proper (call f args)

end Clause

structure Definition where
  name : Name
  params : List Name
  body : List Clause
  result : Phrase

namespace Definition

def tokens (d : Definition) : List Token :=
  [.fixed .funWord, .name d.name, .fixed .lparen] ++ separated (d.params.map ([.name ·])) ++
    [.fixed .rparen, .fixed .assign] ++ Clause.braced (d.body.flatMap Clause.tokens) ++
    d.result.tokens ++ [.fixed .semicolon]

def tree (d : Definition) : Function := ⟨d.name, d.params, d.body.map Clause.tree, d.result.tree⟩

structure Proper (d : Definition) : Prop where
  body : ∀ c ∈ d.body, c.Proper
  result : d.result.Proper

end Definition

structure Script where
  definitions : List Definition
  main : List Clause

namespace Script

def tokens (p : Script) : List Token :=
  p.definitions.flatMap Definition.tokens ++ Clause.braced (p.main.flatMap Clause.tokens)

def tree (p : Script) : Program := ⟨p.definitions.map Definition.tree, p.main.map Clause.tree⟩

structure Proper (p : Script) : Prop where
  definitions : ∀ d ∈ p.definitions, d.Proper
  main : ∀ c ∈ p.main, c.Proper

end Script

end Scriptlet
