import Scriptlet.Operation
import Scriptlet.Run.Calls
import Scriptlet.Run.Output

namespace Scriptlet

structure State where
  functions : Bindings Function
  globals : Frame
  calls : Calls
  lists : Lists
  output : Output
  deriving Inhabited

namespace State

def fresh (output : Output) : State := ⟨.empty, .empty, .empty, .empty, output⟩

def depth (s : State) : Nat := s.calls.depth

/-- A variable of the innermost call, else a global one. Those of other calls are hidden. -/
def lookup? (s : State) (x : Name) : Option Value :=
  match s.calls.frames with
  | [] => s.globals.get? x
  | frame :: _ => (frame.get? x).orElse fun _ => s.globals.get? x

def lookup (s : State) (x : Name) : Except SemanticError Value :=
  match s.lookup? x with
  | some v => .ok v
  | none => .error (.unknownVariable x)

/-- Rebinds `x` where it is visible; a new variable belongs to the innermost call. -/
def assign (s : State) (x : Name) (v : Value) : State :=
  match s.calls with
  | ⟨[], _, _⟩ => { s with globals := s.globals.put x v }
  | ⟨frame :: callers, depth, depth_eq⟩ =>
    if !frame.has x && s.globals.has x then { s with globals := s.globals.put x v }
    else { s with calls := ⟨frame.put x v :: callers, depth, depth_eq⟩ }

def enter (s : State) (f : Function) (args : List Value) : State :=
  { s with calls := s.calls.enter (.ofPairs (f.params.zip args)) }

def leave (s : State) : State := { s with calls := s.calls.leave }

/-- Adds functions to the table; a later one of the same name replaces an earlier one. -/
def define (s : State) (fs : List Function) : State :=
  { s with functions := fs.foldl (fun t f => t.put f.name f) s.functions }

def drain (s : State) : State := { s with output := s.output.drained }

def accept (s : State) (r : Result) : Value × State :=
  match s with
  | ⟨functions, globals, calls, lists, output⟩ =>
    let (v, lists) := r.store lists
    (v, ⟨functions, globals, calls, lists, output⟩)

def print (s : State) (line : String) : State × Bool :=
  match s with
  | ⟨functions, globals, calls, lists, output⟩ =>
    let (output, all) := output.write (line ++ "\n")
    (⟨functions, globals, calls, lists, output⟩, all)

def place? (s : State) (x : Name) (indices : List Value) :
    Except SemanticError (Option (ListId × Nat)) :=
  match s.lookup x with
  | .error e => .error e
  | .ok target => target.place? s.lists indices

def write (s : State) (place : Option (ListId × Nat)) (v : Value) : State :=
  match s with
  | ⟨functions, globals, calls, lists, output⟩ =>
    ⟨functions, globals, calls, lists.write place v, output⟩

end State

end Scriptlet
