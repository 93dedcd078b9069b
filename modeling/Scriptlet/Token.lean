import Scriptlet.Syntax
import Scriptlet.Text.Quoted
import Scriptlet.Decimal.Layout

namespace Scriptlet

inductive Fixed where
  | lparen | rparen | comma | hash | lbracket | rbracket | lbrace | rbrace
  | pow | star | slash | plus | minus | cons | le | lt | eq | ne | ge | gt | assign | semicolon
  | mod | div | inWord | not | andAlso | orElse | trueWord | falseWord | print | ifWord | elseWord | whileWord | funWord
  deriving DecidableEq, Repr

namespace Fixed

def spelling : Fixed → String
  | lparen => "("
  | rparen => ")"
  | comma => ","
  | hash => "#"
  | lbracket => "["
  | rbracket => "]"
  | lbrace => "\x7b"
  | rbrace => "\x7d"
  | pow => "**"
  | star => "*"
  | slash => "/"
  | plus => "+"
  | minus => "-"
  | cons => "::"
  | le => "<="
  | lt => "<"
  | eq => "=="
  | ne => "<>"
  | ge => ">="
  | gt => ">"
  | assign => "="
  | semicolon => ";"
  | mod => "mod"
  | div => "div"
  | inWord => "in"
  | not => "not"
  | andAlso => "andalso"
  | orElse => "orelse"
  | trueWord => "True"
  | falseWord => "False"
  | print => "print"
  | ifWord => "if"
  | elseWord => "else"
  | whileWord => "while"
  | funWord => "fun"

def words : List Fixed :=
  [mod, div, inWord, not, andAlso, orElse, trueWord, falseWord, print, ifWord, elseWord, whileWord, funWord]

def ofWord? (w : String) : Option Fixed :=
  words.find? (·.spelling == w)

def binaryOp? : Fixed → Option BinaryOp
  | orElse => some .orElse
  | andAlso => some .andAlso
  | le => some (.compare .le)
  | lt => some (.compare .lt)
  | eq => some (.compare .eq)
  | ne => some (.compare .ne)
  | ge => some (.compare .ge)
  | gt => some (.compare .gt)
  | cons => some .cons
  | inWord => some .member
  | plus => some (.arith .add)
  | minus => some (.arith .sub)
  | star => some (.arith .mul)
  | slash => some (.arith .div)
  | div => some (.arith .intDiv)
  | mod => some (.arith .mod)
  | pow => some (.arith .pow)
  | _ => none

end Fixed

inductive Token where
  | fixed (f : Fixed)
  | int (n : Int64)
  | real (x : Float)
  | str (s : String)
  | name (x : Name)
  deriving DecidableEq

def Token.describe : Token → String
  | fixed f => "`" ++ f.spelling ++ "`"
  | int n => "integer " ++ toString n.toInt
  | real x => "real " ++ Decimal.plain.text x
  | str s => "string " ++ Text.quoted s
  | name x => "identifier `" ++ x ++ "`"

/-- A token and the line on which it starts; lines count from 1. -/
structure Located where
  token : Token
  line : Nat
  deriving DecidableEq

end Scriptlet
