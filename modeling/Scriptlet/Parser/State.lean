import Scriptlet.Parser.Context
import Scriptlet.Token.Lexer

namespace Scriptlet.Parser

/--
What has been read and what may come next; nesting is data. A token without a place ends the reading
with an error that says what the state calls for, which depends on the tokens before it alone.
-/
inductive State where
  | top (functions : List Function)
  | functionName (functions : List Function)
  | paramsOpen (functions : List Function) (name : Name)
  | firstParam (functions : List Function) (name : Name)
  | param (h : Header)
  | afterParam (h : Header)
  | functionAssign (h : Header)
  | finished (p : Program)
  | blockOpen (outer : BlockContext)
  | statement (b : OpenBlock)
  | afterThen (cond : Expr) (body : List Stmt) (b : OpenBlock)
  | printOpen (b : OpenBlock)
  | ifOpen (b : OpenBlock)
  | loopOpen (b : OpenBlock)
  | afterName (x : Name) (b : OpenBlock)
  | afterPlace (x : Name) (indices : List Expr) (b : OpenBlock)
  | firstCallArg (f : Name) (b : OpenBlock)
  | semicolon (s : Stmt) (b : OpenBlock)
  | operand (pending : List Pending) (outer : ExprContext)
  | firstItem (pending : List Pending) (outer : ExprContext)
  | firstArg (f : Name) (pending : List Pending) (outer : ExprContext)
  | secondItem (field : Option Int64) (first : Expr) (pending : List Pending)
      (outer : ExprContext)
  | fieldNumber (pending : List Pending) (outer : ExprContext)
  | fieldTarget (n : Int64) (pending : List Pending) (outer : ExprContext)
  | operator (focus : Focus) (pending : List Pending) (outer : ExprContext)

def ExprContext.expected : ExprContext → Expected
  | .print _ | .ifCond _ | .loopCond _ => .rparen
  | .assign .. | .assignAt .. => .semicolon
  | .place .. | .index .. => .rbracket
  | .callStmt .. | .callExpr .. | .tuple .. => .commaOrParen
  | .result .. => .semicolonAfterFunction
  | .group .. => .parenOrComma
  | .list .. => .commaOrBracket

def State.expected : State → Expected
  | top _ | blockOpen _ => .lbrace
  | functionName _ => .functionName
  | paramsOpen .. | ifOpen _ | loopOpen _ => .lparen
  | firstParam .. | param _ => .parameterName
  | afterParam _ => .commaOrParen
  | functionAssign _ => .assign
  | finished _ => .endOfInput
  | statement _ | afterThen .. => .statement
  | printOpen _ => .parenAfterPrint
  | afterName .. => .afterName
  | afterPlace .. => .assignAfterIndex
  | semicolon .. => .semicolon
  | operand .. | firstItem .. | firstArg .. | firstCallArg .. | secondItem .. => .expression
  | fieldNumber .. => .fieldNumber
  | fieldTarget .. => .fieldTarget
  | operator _ _ outer => outer.expected

def stepOperand (ps : List Pending) (c : ExprContext) : Token → Option State
  | .int n => some (.operator (.atom (.literal (.int n))) ps c)
  | .real x => some (.operator (.atom (.literal (.real x))) ps c)
  | .str s => some (.operator (.atom (.literal (.str s))) ps c)
  | .name x => some (.operator (.name x) ps c)
  | .fixed .trueWord => some (.operator (.atom (.literal (.bool true))) ps c)
  | .fixed .falseWord => some (.operator (.atom (.literal (.bool false))) ps c)
  | .fixed .not => some (.operand (.unary .not :: ps) c)
  | .fixed .minus => some (.operand (.unary .neg :: ps) c)
  | .fixed .lbracket => some (.firstItem ps c)
  | .fixed .lparen => some (.operand [] (.group none ps c))
  | .fixed .hash => some (.fieldNumber ps c)
  | _ => none

/-- After a whole expression `e`: the token that ends it, or the comma before the next. -/
def stepClosing (e : Expr) (c : ExprContext) (t : Token) : Option State :=
  match c, t with
  | .print b, .fixed .rparen => some (.semicolon (.print e) b)
  | .assign x b, .fixed .semicolon => some (.statement (b.add (.assign x e)))
  | .place x indices b, .fixed .rbracket => some (.afterPlace x (e :: indices) b)
  | .assignAt x indices b, .fixed .semicolon =>
    some (.statement (b.add (.assignAt x indices.reverse e)))
  | .callStmt f args b, .fixed .comma => some (.operand [] (.callStmt f (e :: args) b))
  | .callStmt f args b, .fixed .rparen => some (.semicolon (.call f (e :: args).reverse) b)
  | .ifCond b, .fixed .rparen => some (.blockOpen (.then_ e b.read b.outer))
  | .loopCond b, .fixed .rparen => some (.blockOpen (.loop e b.read b.outer))
  | .result h body, .fixed .semicolon =>
    some (.top (⟨h.name, h.params.reverse, body, e⟩ :: h.functions))
  | .group field ps c, .fixed .rparen => some (.operator (.atom (withField field e)) ps c)
  | .group field ps c, .fixed .comma => some (.secondItem field e ps c)
  | .tuple field items ps c, .fixed .comma =>
    some (.operand [] (.tuple field (e :: items) ps c))
  | .tuple field items ps c, .fixed .rparen =>
    some (.operator (.atom (withField field (.tuple (e :: items).reverse))) ps c)
  | .list items ps c, .fixed .comma => some (.operand [] (.list (e :: items) ps c))
  | .list items ps c, .fixed .rbracket =>
    some (.operator (.atom (.list (e :: items).reverse)) ps c)
  | .callExpr f args ps c, .fixed .comma => some (.operand [] (.callExpr f (e :: args) ps c))
  | .callExpr f args ps c, .fixed .rparen =>
    some (.operator (.atom (.call f (e :: args).reverse)) ps c)
  | .index target indices ps c, .fixed .rbracket =>
    some (.operator (.indexed target (e :: indices)) ps c)
  | _, _ => none

def stepInfix (e : Expr) (ps : List Pending) (c : ExprContext) (t : Token) : Option State :=
  match t with
  | .fixed f =>
    match f.binaryOp? with
    | some op =>
      let (ps, e) := reduce op.level ps e
      some (.operand (.binary e op :: ps) c)
    | none => stepClosing (close ps e) c t
  | _ => none

def stepOperator (focus : Focus) (ps : List Pending) (c : ExprContext) (t : Token) :
    Option State :=
  match focus, t with
  | .name f, .fixed .lparen => some (.firstArg f ps c)
  | focus, .fixed .lbracket =>
    let (target, indices) := focus.target
    some (.operand [] (.index target indices ps c))
  | focus, t => stepInfix focus.expr ps c t

def endBlock (body : List Stmt) : BlockContext → State
  | .main functions => .finished ⟨functions.reverse, body⟩
  | .body h => .operand [] (.result h body)
  | .nested read outer => .statement ⟨.block body :: read, outer⟩
  | .then_ cond read outer => .afterThen cond body ⟨read, outer⟩
  | .else_ cond body₁ read outer => .statement ⟨.ifElse cond body₁ body :: read, outer⟩
  | .loop cond read outer => .statement ⟨.loop cond body :: read, outer⟩

def stepStatement (b : OpenBlock) : Token → Option State
  | .fixed .rbrace => some (endBlock b.read.reverse b.outer)
  | .fixed .lbrace => some (.statement ⟨[], .nested b.read b.outer⟩)
  | .fixed .print => some (.printOpen b)
  | .fixed .ifWord => some (.ifOpen b)
  | .fixed .whileWord => some (.loopOpen b)
  | .name x => some (.afterName x b)
  | _ => none

def State.step (s : State) (t : Token) : Option State :=
  match s, t with
  | top fs, .fixed .funWord => some (functionName fs)
  | top fs, .fixed .lbrace => some (statement ⟨[], .main fs⟩)
  | functionName fs, .name f => some (paramsOpen fs f)
  | paramsOpen fs f, .fixed .lparen => some (firstParam fs f)
  | firstParam fs f, .fixed .rparen => some (functionAssign ⟨fs, f, []⟩)
  | firstParam fs f, .name x => some (afterParam ⟨fs, f, [x]⟩)
  | param h, .name x => some (afterParam ⟨h.functions, h.name, x :: h.params⟩)
  | afterParam h, .fixed .comma => some (param h)
  | afterParam h, .fixed .rparen => some (functionAssign h)
  | functionAssign h, .fixed .assign => some (blockOpen (.body h))
  | blockOpen outer, .fixed .lbrace => some (statement ⟨[], outer⟩)
  | statement b, t => stepStatement b t
  | afterThen cond body b, .fixed .elseWord => some (blockOpen (.else_ cond body b.read b.outer))
  | afterThen cond body b, t => stepStatement (b.add (.ifThen cond body)) t
  | printOpen b, .fixed .lparen => some (operand [] (.print b))
  | ifOpen b, .fixed .lparen => some (operand [] (.ifCond b))
  | loopOpen b, .fixed .lparen => some (operand [] (.loopCond b))
  | afterName x b, .fixed .assign => some (operand [] (.assign x b))
  | afterName x b, .fixed .lbracket => some (operand [] (.place x [] b))
  | afterName x b, .fixed .lparen => some (firstCallArg x b)
  | afterName x b, .fixed .semicolon => some (statement (b.add (.assign x (.var x))))
  | afterPlace x indices b, .fixed .lbracket => some (operand [] (.place x indices b))
  | afterPlace x indices b, .fixed .assign => some (operand [] (.assignAt x indices b))
  | firstCallArg f b, .fixed .rparen => some (semicolon (.call f []) b)
  | firstCallArg f b, t => stepOperand [] (.callStmt f [] b) t
  | semicolon st b, .fixed .semicolon => some (statement (b.add st))
  | operand ps c, t => stepOperand ps c t
  | firstItem ps c, .fixed .rbracket => some (operator (.atom (.list [])) ps c)
  | firstItem ps c, t => stepOperand [] (.list [] ps c) t
  | firstArg f ps c, .fixed .rparen => some (operator (.atom (.call f [])) ps c)
  | firstArg f ps c, t => stepOperand [] (.callExpr f [] ps c) t
  | secondItem field e ps c, .fixed .rparen =>
    some (operator (.atom (withField field (.tuple [e]))) ps c)
  | secondItem field e ps c, t => stepOperand [] (.tuple field [e] ps c) t
  | fieldNumber ps c, .int n => some (fieldTarget n ps c)
  | fieldTarget n ps c, .name x => some (operator (.atom (.field n (.var x))) ps c)
  | fieldTarget n ps c, .fixed .lparen => some (operand [] (.group (some n) ps c))
  | operator focus ps c, t => stepOperator focus ps c t
  | _, _ => none

def State.read (s : State) : List Located → Except SyntaxError Program
  | [] =>
    match s with
    | finished p => .ok p
    | s => .error (.unexpectedEnd s.expected)
  | ⟨t, line⟩ :: ts =>
    match s.step t with
    | some s => s.read ts
    | none => .error (.unexpectedToken t line s.expected)

end Scriptlet.Parser

namespace Scriptlet

def Program.ofTokens (ts : List Located) : Except SyntaxError Program :=
  (Parser.State.top []).read ts

def Program.parse (source : String) : Except SyntaxError Program :=
  match Token.readAll source with
  | .ok ts => ofTokens ts
  | .error e => .error e

end Scriptlet
