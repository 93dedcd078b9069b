import Scriptlet.Run.Continuation
import Scriptlet.Value.Text

namespace Scriptlet

/--
An expression being evaluated, statements being run, or an end. No step goes into an expression or a
call as a whole: what comes after is kept in a continuation.
-/
inductive Machine where
  | eval (e : Expr) (k : Cont .value) (s : State)
  | gather (p : Purpose) (values : List Value) (es : List Expr) (k : Cont p.awaits) (s : State)
  | value (v : Value) (k : Cont .value) (s : State)
  | run (ss : List Stmt) (k : Cont .done) (s : State)
  | returned (v : Value) (s : State)
  | finished (s : State)
  | failed (f : Fault) (s : State)

namespace Machine

def isOver : Machine → Bool
  | returned .. | finished _ | failed .. => true
  | _ => false

def state : Machine → State
  | eval _ _ s | gather _ _ _ _ s | value _ _ s | run _ _ s => s
  | returned _ s | finished s | failed _ s => s

def mapState (f : State → State) : Machine → Machine
  | eval e k s => eval e k (f s)
  | gather p values es k s => gather p values es k (f s)
  | value v k s => value v k (f s)
  | run ss k s => run ss k (f s)
  | returned v s => returned v (f s)
  | finished s => finished (f s)
  | failed e s => failed e (f s)

def reject {w : Awaits} (e : SemanticError) (k : Cont w) (s : State) : Machine :=
  failed (.semantic e) (k.unwind s)

def pass (r : Except SemanticError Value) (k : Cont .value) (s : State) : Machine :=
  match r with
  | .ok v => value v k s
  | .error e => reject e k s

/--
Calls a function, if there is one of that name with as many parameters and the call would not
be one too many. Only then are the arguments evaluated.
-/
def call (limit : Nat) (f : Name) (args : List Expr) (k : Cont .value) (s : State) : Machine :=
  match s.functions.get? f with
  | none => reject (.unknownFunction f) k s
  | some fn =>
    if fn.params.length ≠ args.length then
      reject (.arityMismatch f fn.params.length args.length) k s
    else if limit ≤ s.depth then reject (.callDepthExceeded limit) k s
    else gather (.arguments fn) [] args k s

def stepEval (limit : Nat) (e : Expr) (k : Cont .value) (s : State) : Machine :=
  match e with
  | .literal l => value l.value k s
  | .list items => gather .list [] items k s
  | .tuple items => gather .tuple [] items k s
  | .var x => pass (s.lookup x) k s
  | .unary op e => eval e (.unary op k) s
  | .binary op l r => eval l (.binaryLeft op r k) s
  | .index target indices => eval target (.index indices k) s
  | .field n target => eval target (.field n k) s
  | .call f args => call limit f args k s

def use (p : Purpose) (values : List Value) (k : Cont p.awaits) (s : State) : Machine :=
  match p, k with
  | .list, k =>
    let (v, s) := s.accept (.list (.ofList values))
    value v k s
  | .tuple, k => value (.tuple values) k s
  | .indices target, k => pass (target.at s.lists values) k s
  | .arguments f, k => run f.body (.result f.result k) (s.enter f values)
  | .positions x e, k => eval e (.assignAt x values k) s

def onCondition (v : Value) (k : Cont .done) (s : State) (go : Bool → Machine) : Machine :=
  match v with
  | .bool b => go b
  | v => reject (.nonBooleanCondition v.kind) k s

def stepValue (v : Value) (k : Cont .value) (s : State) : Machine :=
  match k with
  | .halt => returned v s
  | .unary op k => pass (op.apply v) k s
  | .binaryLeft op r k => eval r (.binaryRight op v k) s
  | .binaryRight op l k =>
    match op.apply s.lists l v with
    | .ok r =>
      let (v, s) := s.accept r
      value v k s
    | .error e => reject e k s
  | .index indices k => gather (.indices v) [] indices k s
  | .field n k => pass (v.field n) k s
  | .next p values es k => gather p (v :: values) es k s
  | .leave k => value v k s.leave
  | .print k =>
    match s.print (v.display s.lists) with
    | (s, true) => run [] k s
    | (s, false) => failed .output (k.unwind s)
  | .assign x k => run [] k (s.assign x v)
  | .assignAt x indices k =>
    match s.place? x indices with
    | .ok place => run [] k (s.write place v)
    | .error e => reject e k s
  | .branch body other k => onCondition v k s fun b => run (if b then body else other) k s
  | .loop cond body k =>
    onCondition v k s fun b => if b then run body (.again cond body k) s else run [] k s
  | .discard k => run [] k s

def stepStmt (limit : Nat) (st : Stmt) (k : Cont .done) (s : State) : Machine :=
  match st with
  | .print e => eval e (.print k) s
  | .assign x e => eval e (.assign x k) s
  | .assignAt x indices e => gather (.positions x e) [] indices k s
  | .block body => run body k s
  | .ifThen cond body => eval cond (.branch body [] k) s
  | .ifElse cond body other => eval cond (.branch body other k) s
  | .loop cond body => eval cond (.loop cond body k) s
  | .call f args => call limit f args (.discard k) s

def stepDone (k : Cont .done) (s : State) : Machine :=
  match k with
  | .halt => finished s
  | .rest ss k => run ss k s
  | .again cond body k => eval cond (.loop cond body k) s
  | .result e k => eval e (.leave k) s

/-- One step. A machine that has come to an end stays as it is. -/
def step (limit : Nat) : Machine → Machine
  | eval e k s => stepEval limit e k s
  | gather p values [] k s => use p values.reverse k s
  | gather p values (e :: es) k s => eval e (.next p values es k) s
  | value v k s => stepValue v k s
  | run [] k s => stepDone k s
  | run (st :: ss) k s => stepStmt limit st (.rest ss k) s
  | m => m

def advance (limit : Nat) : Nat → Machine → Machine
  | 0, m => m
  | n + 1, m => if m.isOver then m else advance limit n (m.step limit)

end Machine

def State.start (s : State) (p : Program) : Machine :=
  .run p.main .halt (s.define p.functions)

def State.evaluate (s : State) (e : Expr) : Machine := .eval e .halt s

end Scriptlet
