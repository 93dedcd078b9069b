import Scriptlet.Parser.State
import Scriptlet.Run.Machine

namespace Scriptlet

def State.load (s : State) (source : String) : Except SyntaxError Machine :=
  match Program.parse source with
  | .ok p => .ok (s.start p)
  | .error e => .error e

namespace Machine

def outcome? : Machine → Option (Option Fault)
  | returned .. | finished _ => some none
  | failed f _ => some (some f)
  | _ => none

def defaultLimit : Nat := 1000

end Machine

end Scriptlet
