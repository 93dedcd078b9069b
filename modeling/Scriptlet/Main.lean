import Scriptlet.CommandLine
import Scriptlet.Run.Session

namespace Scriptlet

def stride : Nat := 100000

partial def Machine.show (out : IO.FS.Stream) (limit : Nat) (m : Machine) :
    IO (Option Fault) := do
  let m := m.advance limit stride
  out.write m.state.output.bytes
  match m.outcome? with
  | some outcome => return outcome
  | none => Machine.show out limit (m.mapState State.drain)

/-- The exit status: 0, 1 for an error of the program, 2 if it could not be run. -/
def runFile (r : CommandLine.Request) : IO UInt32 := do
  let out ← IO.getStdout
  let some source := String.fromUTF8? (← IO.FS.readBinFile r.file)
    | throw (IO.userError ("failed to read " ++ r.file))
  let error ← match (State.fresh .unlimited).load source with
    | .error e => pure (some (Error.syntactic e))
    | .ok m => do pure ((← m.show out r.limit).map Error.fault)
  out.flush
  match error with
  | none => return 0
  | some e =>
    out.putStrLn e.report
    return 1

end Scriptlet

open Scriptlet

def main (args : List String) : IO UInt32 := do
  match CommandLine.request? args (← IO.getEnv "SBML_MAX_CALL_DEPTH") Machine.defaultLimit with
  | none =>
    (← IO.getStderr).putStrLn "usage: [--max-call-depth N] FILE"
    return 2
  | some r =>
    try runFile r
    catch e =>
      (← IO.getStderr).putStrLn ("error: " ++ toString e)
      return 2
