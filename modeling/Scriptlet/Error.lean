import Scriptlet.Token

namespace Scriptlet

inductive Expected where
  | statement
  | afterName
  | assignAfterIndex
  | semicolon
  | parenAfterPrint
  | lparen
  | rparen
  | lbrace
  | rbracket
  | assign
  | commaOrParen
  | parenOrComma
  | commaOrBracket
  | functionName
  | parameterName
  | semicolonAfterFunction
  | endOfInput
  | expression
  | fieldNumber
  | fieldTarget
  deriving DecidableEq, Repr

def Expected.text : Expected → String
  | statement => "a statement"
  | afterName => "`=`, `[`, `(` or `;`"
  | assignAfterIndex => "`=` after an index"
  | semicolon => "`;`"
  | parenAfterPrint => "`(` after `print`"
  | lparen => "`(`"
  | rparen => "`)`"
  | lbrace => "`\x7b`"
  | rbracket => "`]`"
  | assign => "`=`"
  | commaOrParen => "`,` or `)`"
  | parenOrComma => "`)` or `,`"
  | commaOrBracket => "`,` or `]`"
  | functionName => "a function name"
  | parameterName => "a parameter name"
  | semicolonAfterFunction => "`;` after a function definition"
  | endOfInput => "end of input"
  | expression => "an expression"
  | fieldNumber => "a tuple field number"
  | fieldTarget => "a tuple or a name after the field number"

inductive SyntaxError where
  | unrecognizedInput (text : String) (line : Nat)
  | invalidLiteral (text : String) (line : Nat)
  | unexpectedToken (found : Token) (line : Nat) (expected : Expected)
  | unexpectedEnd (expected : Expected)
  deriving DecidableEq

def SyntaxError.message : SyntaxError → String
  | unrecognizedInput text line =>
    "unrecognized input " ++ Text.quoted text ++ " on line " ++ toString line
  | invalidLiteral text line =>
    "invalid literal " ++ Text.quoted text ++ " on line " ++ toString line
  | unexpectedToken found line expected =>
    "unexpected " ++ found.describe ++ " on line " ++ toString line ++ ", expected " ++
      expected.text
  | unexpectedEnd expected => "unexpected end of input, expected " ++ expected.text

inductive Kind where
  | boolean | integer | real | string | list | tuple
  deriving DecidableEq, Repr

def Kind.name : Kind → String
  | boolean => "boolean"
  | integer => "integer"
  | real => "real"
  | string => "string"
  | list => "list"
  | tuple => "tuple"

/-- A reason for which a well-formed program cannot go on. Operators are given by their spelling. -/
inductive SemanticError where
  | typeMismatch (op : String) (found : List Kind)
  | unknownVariable (x : Name)
  | unknownFunction (f : Name)
  | arityMismatch (f : Name) (expected found : Nat)
  | indexOutOfRange (index : Int64) (length : Nat)
  | fieldOutOfRange (field : Int64) (length : Nat)
  | divisionByZero
  | noRealResult (op : String)
  | overflow (op : String)
  | nonBooleanCondition (found : Kind)
  | callDepthExceeded (limit : Nat)
  deriving DecidableEq

def SemanticError.message : SemanticError → String
  | typeMismatch op found =>
    "`" ++ op ++ "` cannot be applied to " ++ " and ".intercalate (found.map Kind.name)
  | unknownVariable x => "variable `" ++ x ++ "` is not defined"
  | unknownFunction f => "function `" ++ f ++ "` is not defined"
  | arityMismatch f expected found =>
    "function `" ++ f ++ "` takes " ++ toString expected ++ " argument(s) but " ++
      toString found ++ " were supplied"
  | indexOutOfRange index length =>
    "index " ++ toString index.toInt ++ " is out of range for length " ++ toString length
  | fieldOutOfRange field length =>
    "tuple field #" ++ toString field.toInt ++ " is out of range for a tuple of " ++
      toString length
  | divisionByZero => "division by zero"
  | noRealResult op => "`" ++ op ++ "` has no real-valued result"
  | overflow op => "arithmetic overflow in `" ++ op ++ "`"
  | nonBooleanCondition found =>
    "condition evaluated to " ++ found.name ++ ", expected a boolean"
  | callDepthExceeded limit => "call depth exceeded the limit of " ++ toString limit

inductive Fault where
  | semantic (e : SemanticError)
  | output
  deriving DecidableEq

inductive Error where
  | syntactic (e : SyntaxError)
  | fault (e : Fault)
  deriving DecidableEq

def Error.report : Error → String
  | syntactic _ => "SYNTAX ERROR"
  | fault (.semantic _) => "SEMANTIC ERROR"
  | fault .output => "could not write program output"

def Error.message : Error → String
  | syntactic e => e.message
  | fault (.semantic e) => e.message
  | fault .output => "sink is full"

end Scriptlet
