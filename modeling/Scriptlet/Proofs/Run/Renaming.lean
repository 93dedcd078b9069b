import Scriptlet.Proofs.Run.Faults
import Scriptlet.Proofs.Run.Joined
import Scriptlet.Run.Session

namespace Scriptlet

structure Renaming where
  var : Name → Name
  fn : Name → Name
  var_inj {x y : Name} : var x = var y → x = y
  fn_inj {f g : Name} : fn f = fn g → f = g

variable (r : Renaming)

namespace Expr

mutual

def rename (r : Renaming) : Expr → Expr
  | literal l => literal l
  | list items => list (renameAll r items)
  | tuple items => tuple (renameAll r items)
  | var x => var (r.var x)
  | unary op e => unary op (e.rename r)
  | binary op a b => binary op (a.rename r) (b.rename r)
  | index target indices => index (target.rename r) (renameAll r indices)
  | field n target => field n (target.rename r)
  | call f args => call (r.fn f) (renameAll r args)

def renameAll (r : Renaming) : List Expr → List Expr
  | [] => []
  | e :: es => e.rename r :: renameAll r es

end

theorem length_renameAll (es : List Expr) : (renameAll r es).length = es.length := by
  induction es with
  | nil => rfl
  | cons e es ih => rw [renameAll, List.length_cons, ih, List.length_cons]

end Expr

namespace Stmt

mutual

def rename (r : Renaming) : Stmt → Stmt
  | print e => print (e.rename r)
  | assign x e => assign (r.var x) (e.rename r)
  | assignAt x indices e => assignAt (r.var x) (Expr.renameAll r indices) (e.rename r)
  | block body => block (renameAll r body)
  | ifThen cond body => ifThen (cond.rename r) (renameAll r body)
  | ifElse cond body other => ifElse (cond.rename r) (renameAll r body) (renameAll r other)
  | loop cond body => loop (cond.rename r) (renameAll r body)
  | call f args => call (r.fn f) (Expr.renameAll r args)

def renameAll (r : Renaming) : List Stmt → List Stmt
  | [] => []
  | st :: ss => st.rename r :: renameAll r ss

end

end Stmt

def Function.rename (f : Function) : Function :=
  ⟨r.fn f.name, f.params.map r.var, Stmt.renameAll r f.body, f.result.rename r⟩

def Program.rename (p : Program) : Program :=
  ⟨p.functions.map (Function.rename r), Stmt.renameAll r p.main⟩

def SemanticError.rename : SemanticError → SemanticError
  | unknownVariable x => unknownVariable (r.var x)
  | unknownFunction f => unknownFunction (r.fn f)
  | arityMismatch f expected found => arityMismatch (r.fn f) expected found
  | e => e

def Fault.rename : Fault → Fault
  | semantic e => semantic (e.rename r)
  | output => output

namespace Bindings

variable {α β : Type}

def rename (name : Name → Name) (change : α → β) (b : Bindings α) : Bindings β :=
  ⟨b.entries.map (Prod.map name change)⟩

theorem names_rename (name : Name → Name) (change : α → β) (b : Bindings α) :
    (b.rename name change).names = b.names.map name := by
  rw [rename, names, names, List.map_map, List.map_map]
  rfl

variable {name : Name → Name} (inj : ∀ {x y}, name x = name y → x = y) (change : α → β)
  (b : Bindings α)

include inj

theorem get?_rename (x : Name) : (b.rename name change).get? (name x) = (b.get? x).map change := by
  obtain ⟨entries⟩ := b
  show (entries.map _).lookup (name x) = (entries.lookup x).map change
  induction entries with
  | nil => rfl
  | cons e entries ih =>
    obtain ⟨y, a⟩ := e
    rw [List.map_cons, Prod.map_apply, lookup_cons, lookup_cons, ih]
    by_cases same : x = y
    · rw [if_pos same, if_pos (congrArg name same)]
      rfl
    · rw [if_neg same, if_neg fun same' => same (inj same')]

theorem has_rename (x : Name) : (b.rename name change).has (name x) = b.has x := by
  rw [has, get?_rename inj, Option.isSome_map, has]

theorem replaceEntry_rename (x : Name) (a : α) (entries : List (Name × α)) :
    replaceEntry (name x) (change a) (entries.map (Prod.map name change)) =
      (replaceEntry x a entries).map (Prod.map name change) := by
  induction entries with
  | nil => rfl
  | cons e entries ih =>
    obtain ⟨y, c⟩ := e
    rw [List.map_cons, Prod.map_apply, replaceEntry, replaceEntry, ih]
    by_cases same : x = y
    · rw [same, beq_self_eq_true, beq_self_eq_true]
      rfl
    · rw [beq_false_of_ne same, beq_false_of_ne fun same' => same (inj same')]
      rfl

theorem put_rename (x : Name) (a : α) :
    (b.rename name change).put (name x) (change a) = (b.put x a).rename name change := by
  rw [put, has_rename inj, put]
  split
  · exact congrArg mk (replaceEntry_rename inj change x a b.entries)
  · rfl

theorem putPairs_rename (ps : List (Name × α)) :
    (ps.map (Prod.map name change)).foldl (fun b p => b.put p.1 p.2) (b.rename name change) =
      (ps.foldl (fun b p => b.put p.1 p.2) b).rename name change := by
  induction ps generalizing b with
  | nil => rfl
  | cons p ps ih =>
    rw [List.map_cons, List.foldl_cons, List.foldl_cons, ← ih (b.put p.1 p.2),
      ← put_rename inj change b p.1 p.2]
    rfl

theorem ofPairs_rename (ps : List (Name × α)) :
    ofPairs (ps.map (Prod.map name change)) = (ofPairs ps).rename name change :=
  putPairs_rename inj change empty ps

end Bindings

def Frame.rename (frame : Frame) : Frame := Bindings.rename r.var id frame

def Calls.rename (c : Calls) : Calls :=
  ⟨c.frames.map (Frame.rename r), c.depth, by rw [c.depth_eq, List.length_map]⟩

def State.rename (s : State) : State where
  functions := s.functions.rename r.fn (Function.rename r)
  globals := s.globals.rename r
  calls := s.calls.rename r
  lists := s.lists
  output := s.output

theorem Frame.get?_rename (frame : Frame) (x : Name) :
    (frame.rename r).get? (r.var x) = frame.get? x := by
  rw [rename, Bindings.get?_rename r.var_inj, Option.map_id]
  rfl

theorem Frame.put_rename (frame : Frame) (x : Name) (v : Value) :
    (frame.rename r).put (r.var x) v = Frame.rename r (frame.put x v) :=
  Bindings.put_rename r.var_inj id frame x v

theorem Frame.has_rename (frame : Frame) (x : Name) :
    (frame.rename r).has (r.var x) = frame.has x :=
  Bindings.has_rename r.var_inj id frame x

theorem Bindings.putAll_rename (table : Bindings Function) (fs : List Function) :
    (table.rename r.fn (Function.rename r)).putAll (fs.map (Function.rename r)) =
      (table.putAll fs).rename r.fn (Function.rename r) := by
  induction fs generalizing table with
  | nil => rfl
  | cons f fs ih =>
    refine .trans ?_ (ih (table.put f.name f))
    rw [← put_rename r.fn_inj]
    rfl

theorem SemanticError.rename_of_ofOperands {e : SemanticError} (operands : e.ofOperands = true) :
    e.rename r = e := by
  cases e with
  | unknownVariable x | unknownFunction f | arityMismatch f expected found => cases operands
  | _ => rfl

theorem OfOperands.rename {α : Type} {res : Except SemanticError α} (h : OfOperands res) :
    res.mapError (SemanticError.rename r) = res := by
  cases res with
  | ok a => rfl
  | error e => exact congrArg Except.error (SemanticError.rename_of_ofOperands r (h e rfl))

theorem Value.field_rename (n : Int64) (v : Value) :
    (v.field n).mapError (SemanticError.rename r) = v.field n := by
  cases result : v.field n with
  | ok u => rfl
  | error e =>
    rcases Value.error_of_field result with operands | ⟨items, -, rfl⟩
    · exact congrArg Except.error (SemanticError.rename_of_ofOperands r operands)
    · rfl

namespace State

variable (s : State)

theorem lookup_rename (x : Name) :
    (s.rename r).lookup (r.var x) = (s.lookup x).mapError (SemanticError.rename r) := by
  have same : (s.rename r).lookup? (r.var x) = s.lookup? x := by
    obtain ⟨functions, globals, ⟨frames, depth, count⟩, lists, output⟩ := s
    cases frames with
    | nil => exact globals.get?_rename r x
    | cons frame callers =>
      show (((frame.rename r).get? _).orElse fun _ => (globals.rename r).get? _) = _
      rw [Frame.get?_rename, Frame.get?_rename]
      rfl
  rw [lookup, lookup, same]
  cases s.lookup? x <;> rfl

theorem withCalls_rename {c c' : Calls} (frames : c'.frames = c.frames.map (Frame.rename r)) :
    { s.rename r with calls := c' } = rename r { s with calls := c } :=
  congrArg (fun calls => State.mk _ _ calls _ _) (Calls.eq_of_frames_eq frames)

theorem assign_rename (x : Name) (v : Value) :
    (s.rename r).assign (r.var x) v = (s.assign x v).rename r := by
  obtain ⟨functions, globals, ⟨frames, depth, count⟩, lists, output⟩ := s
  cases frames with
  | nil => exact congrArg (fun globals => State.mk _ globals _ _ _) (globals.put_rename r x v)
  | cons frame callers =>
    have same : (!(frame.rename r).has (r.var x) && (globals.rename r).has (r.var x)) =
        (!frame.has x && globals.has x) := by
      rw [Frame.has_rename, Frame.has_rename]
    by_cases global : (!frame.has x && globals.has x) = true
    · refine (if_pos (same.trans global)).trans ?_
      refine .trans ?_ (congrArg (rename r) (if_pos global).symm)
      exact congrArg (fun globals => State.mk _ globals _ _ _) (globals.put_rename r x v)
    · refine (if_neg (same ▸ global)).trans ?_
      refine .trans ?_ (congrArg (rename r) (if_neg global).symm)
      exact withCalls_rename r _ (congrArg (· :: _) (frame.put_rename r x v))

theorem enter_rename (f : Function) (args : List Value) :
    (s.rename r).enter (f.rename r) args = (s.enter f args).rename r := by
  refine s.withCalls_rename r (congrArg (· :: _) ?_)
  show Bindings.ofPairs ((f.params.map r.var).zip args) = _
  rw [List.zip_map_left]
  exact Bindings.ofPairs_rename r.var_inj id (f.params.zip args)

theorem leave_rename : (s.rename r).leave = s.leave.rename r :=
  s.withCalls_rename r (List.map_tail ..).symm

theorem define_rename (fs : List Function) :
    (s.rename r).define (fs.map (Function.rename r)) = (s.define fs).rename r :=
  congrArg (fun functions => State.mk functions _ _ _ _) (s.functions.putAll_rename r fs)

theorem place?_rename (x : Name) (indices : List Value) :
    (s.rename r).place? (r.var x) indices =
      (s.place? x indices).mapError (SemanticError.rename r) := by
  rw [place?, place?, lookup_rename]
  cases s.lookup x with
  | error e => rfl
  | ok target => exact (OfOperands.rename r (OfOperands.place? _ _ _)).symm

end State

def Purpose.rename : Purpose → Purpose
  | arguments f => arguments (f.rename r)
  | positions x e => positions (r.var x) (e.rename r)
  | p => p

theorem Purpose.awaits_rename (p : Purpose) : p.awaits = (p.rename r).awaits := by
  cases p <;> rfl

def Cont.rename : {w : Awaits} → Cont w → Cont w
  | _, halt => halt
  | _, unary op k => unary op k.rename
  | _, binaryLeft op b k => binaryLeft op (b.rename r) k.rename
  | _, binaryRight op v k => binaryRight op v k.rename
  | _, index indices k => index (Expr.renameAll r indices) k.rename
  | _, field n k => field n k.rename
  -- What a purpose awaits is the same under other names, but only case by case: hence the cast.
  | _, next p values es k =>
    next (p.rename r) values (Expr.renameAll r es) (p.awaits_rename r ▸ k.rename)
  | _, leave k => leave k.rename
  | _, print k => print k.rename
  | _, assign x k => assign (r.var x) k.rename
  | _, assignAt x indices k => assignAt (r.var x) indices k.rename
  | _, branch body other k =>
    branch (Stmt.renameAll r body) (Stmt.renameAll r other) k.rename
  | _, loop cond body k => loop (cond.rename r) (Stmt.renameAll r body) k.rename
  | _, discard k => discard k.rename
  | _, rest ss k => rest (Stmt.renameAll r ss) k.rename
  | _, again cond body k => again (cond.rename r) (Stmt.renameAll r body) k.rename
  | _, result e k => result (e.rename r) k.rename

theorem Cont.unwind_rename {w : Awaits} (k : Cont w) (s : State) :
    (k.rename r).unwind (s.rename r) = (k.unwind s).rename r := by
  induction k generalizing s with
  | halt => rfl
  | next p values es k ih => cases p <;> exact ih s
  | leave k ih => exact (congrArg _ (s.leave_rename r)).trans (ih s.leave)
  | result e k ih => exact (congrArg _ (s.leave_rename r)).trans (ih s.leave)
  | _ => apply_assumption

namespace Machine

def rename : Machine → Machine
  | eval e k s => eval (e.rename r) (k.rename r) (s.rename r)
  | gather p values es k s =>
    gather (p.rename r) values (Expr.renameAll r es) (p.awaits_rename r ▸ k.rename r) (s.rename r)
  | value v k s => value v (k.rename r) (s.rename r)
  | run ss k s => run (Stmt.renameAll r ss) (k.rename r) (s.rename r)
  | returned v s => returned v (s.rename r)
  | finished s => finished (s.rename r)
  | failed f s => failed (f.rename r) (s.rename r)

variable {limit : Nat} {s : State}

theorem reject_rename {w : Awaits} (e : SemanticError) (k : Cont w) :
    reject (e.rename r) (k.rename r) (s.rename r) = (reject e k s).rename r :=
  congrArg (failed _) (k.unwind_rename r s)

theorem pass_rename (res : Except SemanticError Value) (k : Cont .value) :
    pass (res.mapError (SemanticError.rename r)) (k.rename r) (s.rename r) =
      (pass res k s).rename r := by
  cases res with
  | ok v => rfl
  | error e => exact reject_rename r e k

theorem pass_unnamed_rename {res : Except SemanticError Value}
    (unnamed : res.mapError (SemanticError.rename r) = res) (k : Cont .value) :
    pass res (k.rename r) (s.rename r) = (pass res k s).rename r := by
  have passed := pass_rename r (s := s) res k
  rwa [unnamed] at passed

theorem call_rename (f : Name) (args : List Expr) (k : Cont .value) :
    call limit (r.fn f) (Expr.renameAll r args) (k.rename r) (s.rename r) =
      (call limit f args k s).rename r := by
  have found : (s.rename r).functions.get? (r.fn f) =
      (s.functions.get? f).map (Function.rename r) :=
    Bindings.get?_rename r.fn_inj _ _ f
  have depth : (s.rename r).depth = s.depth := rfl
  unfold call
  rw [found, depth, Expr.length_renameAll]
  cases s.functions.get? f with
  | none => exact reject_rename r (.unknownFunction f) k
  | some fn =>
    have params : (fn.rename r).params.length = fn.params.length := List.length_map _
    simp only [Option.map_some, params]
    split
    · exact reject_rename r (.arityMismatch f _ _) k
    split
    · exact reject_rename r (.callDepthExceeded limit) k
    · rfl

theorem stepEval_rename (e : Expr) (k : Cont .value) :
    stepEval limit (e.rename r) (k.rename r) (s.rename r) = (stepEval limit e k s).rename r := by
  cases e with
  | var x =>
    refine .trans ?_ (pass_rename r (s.lookup x) k)
    rw [← State.lookup_rename]
    rfl
  | call f args => exact call_rename r f args k
  | _ => rfl

theorem use_rename (p : Purpose) (values : List Value) (k : Cont p.awaits) :
    use (p.rename r) values (p.awaits_rename r ▸ k.rename r) (s.rename r) =
      (use p values k s).rename r := by
  cases p with
  | indices target => exact pass_unnamed_rename r (OfOperands.rename r (OfOperands.indexed _ _ _)) k
  | arguments f => exact congrArg (run _ _) (s.enter_rename r f values)
  | _ => rfl

theorem onCondition_rename (v : Value) (k : Cont .done) {go go' : Bool → Machine}
    (goes : ∀ b, go' b = (go b).rename r) :
    onCondition v (k.rename r) (s.rename r) go' = (onCondition v k s go).rename r := by
  unfold onCondition
  split
  · exact goes _
  · exact reject_rename r (.nonBooleanCondition v.kind) k

theorem stepValue_rename (v : Value) (k : Cont .value) :
    stepValue v (k.rename r) (s.rename r) = (stepValue v k s).rename r := by
  cases k with
  | unary op k => exact pass_unnamed_rename r (OfOperands.rename r (OfOperands.unary op v)) k
  | binaryRight op l k =>
    have operands := OfOperands.binary s.lists op l v
    have lists : (s.rename r).lists = s.lists := rfl
    simp only [Cont.rename, stepValue, lists]
    split
    · rfl
    · rename_i e failed
      refine .trans ?_ (reject_rename r e k)
      rw [SemanticError.rename_of_ofOperands r (operands e failed)]
  | field n k => exact pass_unnamed_rename r (v.field_rename r n) k
  | leave k => exact congrArg (value v _) (s.leave_rename r)
  | print k =>
    have renamed : (s.rename r).print (v.display s.lists) =
        ((s.print (v.display s.lists)).1.rename r, (s.print (v.display s.lists)).2) := rfl
    have lists : (s.rename r).lists = s.lists := rfl
    simp only [Cont.rename, stepValue, lists, renamed]
    rcases s.print (v.display s.lists) with ⟨s', all⟩
    cases all with
    | true => rfl
    | false => exact congrArg (failed .output) (k.unwind_rename r s')
  | assign x k => exact congrArg (run [] _) (s.assign_rename r x v)
  | assignAt x indices k =>
    simp only [Cont.rename, stepValue, State.place?_rename]
    cases s.place? x indices with
    | ok place => rfl
    | error e => exact reject_rename r e k
  | branch body other k =>
    refine onCondition_rename r v k fun b => ?_
    cases b <;> rfl
  | loop cond body k =>
    refine onCondition_rename r v k fun b => ?_
    cases b <;> rfl
  | _ => rfl

theorem stepStmt_rename (st : Stmt) (k : Cont .done) :
    stepStmt limit (st.rename r) (k.rename r) (s.rename r) = (stepStmt limit st k s).rename r := by
  cases st with
  | call f args => exact call_rename r f args (.discard k)
  | _ => rfl

theorem stepDone_rename (k : Cont .done) :
    stepDone (k.rename r) (s.rename r) = (stepDone k s).rename r := by
  cases k <;> rfl

theorem step_rename (m : Machine) : (m.rename r).step limit = (m.step limit).rename r := by
  cases m with
  | eval e k s => exact stepEval_rename r e k
  | gather p values es k s =>
    cases es with
    | nil => exact use_rename r p values.reverse k
    | cons e es => rfl
  | value v k s => exact stepValue_rename r v k
  | run ss k s =>
    cases ss with
    | nil => exact stepDone_rename r k
    | cons st ss => exact stepStmt_rename r st (.rest ss k)
  | _ => rfl

theorem advance_rename (m : Machine) (n : Nat) :
    (m.rename r).advance limit n = (m.advance limit n).rename r := by
  induction n with
  | zero => rfl
  | succ n ih => rw [advance_succ, advance_succ, ih, step_rename]

theorem state_rename (m : Machine) : (m.rename r).state = m.state.rename r := by
  cases m <;> rfl

theorem outcome?_rename (m : Machine) :
    (m.rename r).outcome? = m.outcome?.map (Option.map (Fault.rename r)) := by
  cases m <;> rfl

end Machine

theorem State.start_rename (s : State) (p : Program) :
    (s.rename r).start (p.rename r) = (s.start p).rename r :=
  congrArg (Machine.run _ .halt) (s.define_rename r p.functions)

/-- The names of variables and those of functions, each kind behind a letter of its own. -/
def Renaming.apart : Renaming where
  var x := "v" ++ x
  fn f := "f" ++ f
  var_inj same := String.append_right_inj _ |>.mp same
  fn_inj same := String.append_right_inj _ |>.mp same

theorem Renaming.apart_ne (x f : Name) : apart.var x ≠ apart.fn f := by
  intro same
  have same : ("v" ++ x).toList = ("f" ++ f).toList := congrArg String.toList same
  rw [String.toList_append, String.toList_append] at same
  cases same

/--
Names only tell variables from one another, and functions from one another. Under other names for
both, chosen independently, a program runs step by step as it did: it prints the same, makes the
same lists, ends when and how it did, with the other names in the error, and leaves the same values
in the global variables. So it does not matter that a variable has the name of a function: there are
always names under which none does.
-/
theorem names_only_tell_apart (limit : Nat) (s : State) (p : Program) :
    (∀ (r : Renaming) (n : Nat),
      let m := (s.start p).advance limit n
      let m' := ((s.rename r).start (p.rename r)).advance limit n
      m' = m.rename r ∧
      m'.outcome? = m.outcome?.map (Option.map (Fault.rename r)) ∧
      m'.state.output = m.state.output ∧ m'.state.lists = m.state.lists ∧
      m'.state.globals.names = m.state.globals.names.map r.var ∧
      ∀ x, m'.state.globals.get? (r.var x) = m.state.globals.get? x) ∧
    ∃ r : Renaming, ∀ x f, r.var x ≠ r.fn f := by
  refine ⟨fun r n => ?_, .apart, Renaming.apart_ne⟩
  intro m m'
  have same : m' = m.rename r := by
    show ((s.rename r).start (p.rename r)).advance limit n = _
    rw [State.start_rename, Machine.advance_rename]
  have state : m'.state = m.state.rename r := by rw [same, Machine.state_rename]
  refine ⟨same, ?_, ?_, ?_, ?_, fun x => ?_⟩
  · rw [same, Machine.outcome?_rename]
  · rw [state]
    rfl
  · rw [state]
    rfl
  · rw [state]
    exact Bindings.names_rename r.var id m.state.globals
  · rw [state]
    exact m.state.globals.get?_rename r x

end Scriptlet
