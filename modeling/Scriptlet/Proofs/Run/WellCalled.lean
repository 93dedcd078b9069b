import Scriptlet.Proofs.Run.Code
import Scriptlet.Proofs.Run.Faults

namespace Scriptlet

def Bindings.Fits (table : Bindings Function) (f : Name) (args : List Expr) : Prop :=
  ∃ fn, table.get? f = some fn ∧ fn.params.length = args.length

/-- A call, as an expression or as a statement, fits the table. -/
def Bindings.callRule (table : Bindings Function) : Rule where
  expr
    | .call f args => table.Fits f args
    | _ => True
  stmt
    | .call f args => table.Fits f args
    | _ => True

namespace Machine

def Miscalled : Machine → Prop
  | failed (.semantic (.unknownFunction _)) _ | failed (.semantic (.arityMismatch ..)) _ => True
  | _ => False

variable {limit : Nat} {m : Machine} {table : Bindings Function} {f : Name} {args : List Expr}

theorem Miscalled.callFailed (h : m.Miscalled) : m.CallFailed := by
  unfold Miscalled at h
  split at h
  · rfl
  · rfl
  · exact h.elim

theorem not_miscalled_call {k : Cont .value} {s : State} (fits : s.functions.Fits f args) :
    ¬ (call limit f args k s).Miscalled := by
  obtain ⟨fn, bound, length⟩ := fits
  unfold call
  rw [bound]
  show ¬ Miscalled (if fn.params.length ≠ args.length then _ else _)
  rw [if_neg (fun other => other length)]
  split <;> exact id

theorem Calls.fits (calls : m.Calls f args) (code : m.Obeys table.callRule) :
    table.Fits f args := by
  cases calls with
  | expr k s => exact code.1.here
  | stmt ss k s => exact (code.1 _ List.mem_cons_self).here

theorem not_miscalled_step (code : m.Obeys m.state.functions.callRule) (fine : ¬ m.Miscalled) :
    ¬ (m.step limit).Miscalled := by
  rcases m.step_cases with ended | ⟨f, args, k, here, calls⟩ | ⟨next, fine, same⟩
  · rwa [step_of_isOver limit ended]
  · rw [calls]
    exact not_miscalled_call (here.fits code)
  · rw [same]
    exact fun miscalled => fine miscalled.callFailed

theorem not_miscalled_advance (functions : m.state.functions.Obeys m.state.functions.callRule)
    (code : m.Obeys m.state.functions.callRule) (fine : ¬ m.Miscalled) (n : Nat) :
    ¬ (m.advance limit n).Miscalled := by
  induction n with
  | zero => exact fine
  | succ n ih =>
    have code' := code.advance functions limit n
    rw [← functions_advance limit m n] at code'
    rw [advance_succ]
    exact not_miscalled_step code' ih

end Machine

/--
If every call in the block of a program, and in the functions of the table after those of the
program are registered, names a function of that table and has as many arguments as it has
parameters, then the run of the program never ends for want of a function or of a parameter.
-/
theorem right_calls_never_fail (limit : Nat) (s : State) (p : Program)
    (functions : (s.define p.functions).functions.Obeys (s.define p.functions).functions.callRule)
    (main : ∀ st ∈ p.main, st.Obeys (s.define p.functions).functions.callRule) (n : Nat) :
    (∀ f t, (s.start p).advance limit n ≠ .failed (.semantic (.unknownFunction f)) t) ∧
    ∀ f expected given t,
      (s.start p).advance limit n ≠ .failed (.semantic (.arityMismatch f expected given)) t := by
  have fine : ¬ ((s.start p).advance limit n).Miscalled :=
    Machine.not_miscalled_advance (m := s.start p) functions ⟨main, trivial⟩ id n
  constructor
  · intro f t failed
    rw [failed] at fine
    exact fine trivial
  · intro f expected given t failed
    rw [failed] at fine
    exact fine trivial

namespace Program

/-- `fun f() = {} f(); fun f(n) = {} f(n); { f(1); }` -/
def overwritten : Program where
  functions := [⟨"f", [], [], .call "f" []⟩, ⟨"f", ["n"], [], .call "f" [.var "n"]⟩]
  main := [.call "f" [.literal (.int 1)]]

theorem right_calls_never_fail_overwritten :
    let s := State.fresh .unlimited
    let table := (s.define overwritten.functions).functions
    (table.Obeys table.callRule ∧ ∀ st ∈ overwritten.main, st.Obeys table.callRule) ∧
    (∃ t, (s.start overwritten).advance 2 20 = .failed (.semantic (.callDepthExceeded 2)) t) ∧
    (∀ f t, (s.start overwritten).advance 2 20 ≠ .failed (.semantic (.unknownFunction f)) t) ∧
    ∀ f expected given t, (s.start overwritten).advance 2 20 ≠
      .failed (.semantic (.arityMismatch f expected given)) t := by
  intro s table
  have fits (e : Expr) : table.Fits "f" [e] := ⟨_, rfl, rfl⟩
  have functions : table.Obeys table.callRule := by
    intro x f bound
    have bound : [("f", overwritten.functions[1])].lookup x = some f := bound
    rw [Bindings.lookup_cons] at bound
    split at bound
    · cases bound
      refine ⟨nofun, .intro (fits _) fun p inside => ?_⟩
      rw [List.mem_singleton.mp inside]
      exact Expr.obeys_of_parts_eq_nil trivial rfl
    · cases bound
  have main : ∀ st ∈ overwritten.main, st.Obeys table.callRule := by
    intro st inside
    rw [List.mem_singleton.mp inside]
    refine .intro (fits _) (fun e inside => ?_) nofun
    rw [List.mem_singleton.mp inside]
    exact Expr.obeys_of_parts_eq_nil trivial rfl
  exact ⟨⟨functions, main⟩, ⟨_, rfl⟩, right_calls_never_fail 2 s overwritten functions main 20⟩

end Program

end Scriptlet
