import Scriptlet.Proofs.Run.Variables
import Scriptlet.Run.Machine

namespace Scriptlet

namespace State

/-- The states differ in nothing but the variables of calls further out than the `n` innermost. -/
structure Agree (n : Nat) (s t : State) : Prop where
  functions : t.functions = s.functions
  globals : t.globals = s.globals
  depth : t.depth = s.depth
  frames : t.calls.frames.take n = s.calls.frames.take n
  lists : t.lists = s.lists
  output : t.output = s.output

namespace Agree

variable {n : Nat} {s t : State}

theorem innermost (h : s.Agree (n + 1) t) :
    s.calls.frames = [] ∧ t.calls.frames = [] ∨
      ∃ frame callers callers', s.calls.frames = frame :: callers ∧
        t.calls.frames = frame :: callers' ∧ callers'.take n = callers.take n := by
  have same := h.frames
  cases inner : s.calls.frames with
  | nil =>
    rw [inner, List.take_nil, List.take_eq_nil_iff] at same
    exact .inl ⟨rfl, same.resolve_left (Nat.succ_ne_zero n)⟩
  | cons frame callers =>
    cases inner' : t.calls.frames with
    | nil =>
      rw [inner, inner'] at same
      cases same
    | cons frame' callers' =>
      rw [inner, inner', List.take_succ_cons, List.take_succ_cons] at same
      obtain ⟨eq, same⟩ := List.cons_eq_cons.mp same
      exact .inr ⟨frame, callers, callers', rfl, by rw [eq], same⟩

theorem lookup (h : s.Agree (n + 1) t) (x : Name) : t.lookup x = s.lookup x := by
  have same : t.lookup? x = s.lookup? x := by
    rw [lookup?, lookup?]
    rcases h.innermost with ⟨none, none'⟩ | ⟨frame, _, _, top, top', _⟩
    · rw [none, none', h.globals]
    · rw [top, top', h.globals]
  rw [State.lookup, State.lookup, same]

theorem place? (h : s.Agree (n + 1) t) (x : Name) (indices : List Value) :
    t.place? x indices = s.place? x indices := by
  rw [State.place?, State.place?, h.lookup, h.lists]

theorem assign (h : s.Agree (n + 1) t) (x : Name) (v : Value) :
    (s.assign x v).Agree (n + 1) (t.assign x v) := by
  obtain ⟨functions, globals, ⟨frames, depth, count⟩, lists, output⟩ := s
  obtain ⟨functions', globals', ⟨frames', depth', count'⟩, lists', output'⟩ := t
  obtain ⟨rfl, rfl, rfl, _, rfl, rfl⟩ := id h
  rcases h.innermost with ⟨none, none'⟩ | ⟨frame, callers, callers', top, top', same⟩
  · cases none
    cases none'
    exact ⟨rfl, rfl, rfl, rfl, rfl, rfl⟩
  · cases top
    cases top'
    have frames : ∀ frame : Frame, (frame :: callers').take (n + 1) = (frame :: callers).take (n + 1) :=
      fun _ => congrArg (_ :: ·) same
    simp only [State.assign]
    split <;> exact ⟨rfl, rfl, rfl, frames _, rfl, rfl⟩

theorem enter (h : s.Agree n t) (f : Function) (args : List Value) :
    (s.enter f args).Agree (n + 1) (t.enter f args) where
  functions := h.functions
  globals := h.globals
  depth := congrArg (· + 1) h.depth
  frames := congrArg (_ :: ·) h.frames
  lists := h.lists
  output := h.output

theorem leave (h : s.Agree (n + 1) t) : s.leave.Agree n t.leave where
  functions := h.functions
  globals := h.globals
  depth := congrArg (· - 1) h.depth
  frames := by
    show t.calls.frames.tail.take n = s.calls.frames.tail.take n
    rcases h.innermost with ⟨none, none'⟩ | ⟨frame, callers, callers', top, top', same⟩
    · rw [none, none']
    · rw [top, top']
      exact same
  lists := h.lists
  output := h.output

theorem accept (h : s.Agree n t) (r : Result) :
    (t.accept r).1 = (s.accept r).1 ∧ (s.accept r).2.Agree n (t.accept r).2 := by
  have value (s : State) : (s.accept r).1 = (r.store s.lists).1 := rfl
  have lists (s : State) : (s.accept r).2.lists = (r.store s.lists).2 := rfl
  refine ⟨by rw [value, value, h.lists], h.functions, h.globals, h.depth, h.frames, ?_, h.output⟩
  rw [lists, lists, h.lists]

theorem print (h : s.Agree n t) (line : String) :
    (t.print line).2 = (s.print line).2 ∧ (s.print line).1.Agree n (t.print line).1 := by
  have all (s : State) : (s.print line).2 = (s.output.write (line ++ "\n")).2 := rfl
  have output (s : State) : (s.print line).1.output = (s.output.write (line ++ "\n")).1 := rfl
  refine ⟨by rw [all, all, h.output], h.functions, h.globals, h.depth, h.frames, h.lists, ?_⟩
  rw [output, output, h.output]

theorem write (h : s.Agree n t) (place : Option (ListId × Nat)) (v : Value) :
    (s.write place v).Agree n (t.write place v) where
  functions := h.functions
  globals := h.globals
  depth := h.depth
  frames := h.frames
  lists := congrArg (·.write place v) h.lists
  output := h.output

end Agree

end State

def Cont.returns : {w : Awaits} → Cont w → Nat
  | _, halt => 0
  | _, unary _ k => k.returns
  | _, binaryLeft _ _ k => k.returns
  | _, binaryRight _ _ k => k.returns
  | _, index _ k => k.returns
  | _, field _ k => k.returns
  | _, next _ _ _ k => k.returns
  | _, leave k => k.returns + 1
  | _, print k => k.returns
  | _, assign _ k => k.returns
  | _, assignAt _ _ k => k.returns
  | _, branch _ _ k => k.returns
  | _, loop _ _ k => k.returns
  | _, discard k => k.returns
  | _, rest _ k => k.returns
  | _, again _ _ k => k.returns
  | _, result _ k => k.returns + 1

theorem State.Agree.unwind {w : Awaits} {k : Cont w} {s t : State}
    (h : s.Agree (k.returns + 1) t) : (k.unwind s).Agree 1 (k.unwind t) := by
  induction k generalizing s t with
  | halt => exact h
  | leave k ih => exact ih h.leave
  | result e k ih => exact ih h.leave
  | _ => apply_assumption; exact h

inductive Machine.Agree : Machine → Machine → Prop
  | eval (e : Expr) (k : Cont .value) {s t : State} : s.Agree (k.returns + 1) t →
      Agree (eval e k s) (eval e k t)
  | gather (p : Purpose) (values : List Value) (es : List Expr) (k : Cont p.awaits) {s t : State} :
      s.Agree (k.returns + 1) t → Agree (gather p values es k s) (gather p values es k t)
  | value (v : Value) (k : Cont .value) {s t : State} : s.Agree (k.returns + 1) t →
      Agree (value v k s) (value v k t)
  | run (ss : List Stmt) (k : Cont .done) {s t : State} : s.Agree (k.returns + 1) t →
      Agree (run ss k s) (run ss k t)
  | returned (v : Value) {s t : State} : s.Agree 1 t → Agree (returned v s) (returned v t)
  | finished {s t : State} : s.Agree 1 t → Agree (finished s) (finished t)
  | failed (f : Fault) {s t : State} : s.Agree 1 t → Agree (failed f s) (failed f t)

namespace Machine

variable {limit : Nat} {s t : State}

theorem Agree.reject {w : Awaits} {k : Cont w} (e : SemanticError)
    (h : s.Agree (k.returns + 1) t) : (reject e k s).Agree (reject e k t) :=
  .failed _ h.unwind

theorem Agree.pass {k : Cont .value} (r : Except SemanticError Value)
    (h : s.Agree (k.returns + 1) t) : (pass r k s).Agree (pass r k t) := by
  cases r with
  | ok v => exact .value v k h
  | error e => exact .reject e h

theorem Agree.call {k : Cont .value} (f : Name) (args : List Expr)
    (h : s.Agree (k.returns + 1) t) : (call limit f args k s).Agree (call limit f args k t) := by
  simp only [Machine.call, h.functions, h.depth]
  split
  · exact .reject _ h
  · split
    · exact .reject _ h
    · split
      · exact .reject _ h
      · exact .gather _ _ _ _ h

theorem Agree.stepEval {k : Cont .value} (e : Expr) (h : s.Agree (k.returns + 1) t) :
    (stepEval limit e k s).Agree (stepEval limit e k t) := by
  cases e with
  | literal l => exact .value _ _ h
  | list items => exact .gather _ _ _ _ h
  | tuple items => exact .gather _ _ _ _ h
  | var x =>
    simp only [Machine.stepEval, h.lookup]
    exact .pass _ h
  | unary op e => exact .eval _ _ h
  | binary op l r => exact .eval _ _ h
  | index target indices => exact .eval _ _ h
  | field n target => exact .eval _ _ h
  | call f args => exact .call f args h

theorem Agree.stepStmt {k : Cont .done} (st : Stmt) (h : s.Agree (k.returns + 1) t) :
    (stepStmt limit st k s).Agree (stepStmt limit st k t) := by
  cases st with
  | print e => exact .eval _ _ h
  | assign x e => exact .eval _ _ h
  | assignAt x indices e => exact .gather _ _ _ _ h
  | block body => exact .run _ _ h
  | ifThen cond body => exact .eval _ _ h
  | ifElse cond body other => exact .eval _ _ h
  | loop cond body => exact .eval _ _ h
  | call f args => exact .call f args (k := .discard k) h

theorem Agree.use {p : Purpose} {k : Cont p.awaits} (values : List Value)
    (h : s.Agree (k.returns + 1) t) : (use p values k s).Agree (use p values k t) := by
  cases p with
  | list =>
    obtain ⟨value, after⟩ := h.accept (.list (.ofList values))
    simp only [Machine.use, value]
    exact .value _ k after
  | tuple => exact .value _ k h
  | indices target =>
    simp only [Machine.use, h.lists]
    exact .pass _ h
  | arguments f => exact .run _ _ (h.enter f values)
  | positions x e => exact .eval _ _ h

theorem Agree.onCondition {k : Cont .done} (v : Value) {go go' : Bool → Machine}
    (h : s.Agree (k.returns + 1) t) (goes : ∀ b, (go b).Agree (go' b)) :
    (onCondition v k s go).Agree (onCondition v k t go') := by
  unfold Machine.onCondition
  split
  · exact goes _
  · exact .reject _ h

theorem Agree.stepValue {k : Cont .value} (v : Value) (h : s.Agree (k.returns + 1) t) :
    (stepValue v k s).Agree (stepValue v k t) := by
  cases k with
  | halt => exact .returned v h
  | unary op k => exact .pass _ h
  | binaryLeft op r k => exact .eval _ _ h
  | binaryRight op l k =>
    simp only [Machine.stepValue, h.lists]
    split
    · rename_i r _
      obtain ⟨value, after⟩ := h.accept r
      rw [value]
      exact .value _ _ after
    · exact .reject _ h
  | index indices k => exact .gather _ _ _ _ h
  | field n k => exact .pass _ h
  | next p values es k => exact .gather _ _ _ _ h
  | leave k => exact .value _ _ h.leave
  | print k =>
    obtain ⟨all, after⟩ := h.print (v.display s.lists)
    simp only [Machine.stepValue, h.lists]
    rcases written : s.print (v.display s.lists) with ⟨s', fits⟩
    rcases written' : t.print (v.display s.lists) with ⟨t', fits'⟩
    rw [written, written'] at all after
    cases all
    cases fits with
    | true => exact .run _ _ after
    | false => exact .failed _ after.unwind
  | assign x k => exact .run _ _ (h.assign x v)
  | assignAt x indices k =>
    simp only [Machine.stepValue, h.place?]
    split
    · exact .run _ _ (h.write _ v)
    · exact .reject _ h
  | branch body other k => exact .onCondition v h fun _ => .run _ _ h
  | loop cond body k =>
    refine .onCondition v h fun b => ?_
    cases b with
    | true => exact .run _ _ h
    | false => exact .run _ _ h
  | discard k => exact .run _ _ h

theorem Agree.stepDone {k : Cont .done} (h : s.Agree (k.returns + 1) t) :
    (stepDone k s).Agree (stepDone k t) := by
  cases k with
  | halt => exact .finished h
  | rest ss k => exact .run _ _ h
  | again cond body k => exact .eval _ _ h
  | result e k => exact .eval _ _ h

variable {m m' : Machine}

theorem Agree.step (h : m.Agree m') : (m.step limit).Agree (m'.step limit) := by
  cases h with
  | eval e k agree => exact .stepEval e agree
  | gather p values es k agree =>
    cases es with
    | nil => exact .use _ agree
    | cons e es => exact .eval _ _ agree
  | value v k agree => exact .stepValue v agree
  | run ss k agree =>
    cases ss with
    | nil => exact .stepDone agree
    | cons st ss => exact .stepStmt st agree
  | returned v agree => exact .returned v agree
  | finished agree => exact .finished agree
  | failed f agree => exact .failed f agree

theorem Agree.isOver (h : m.Agree m') : m'.isOver = m.isOver := by
  cases h <;> rfl

theorem Agree.advance (h : m.Agree m') (limit n : Nat) :
    (m.advance limit n).Agree (m'.advance limit n) := by
  induction n generalizing m m' with
  | zero => exact h
  | succ n ih =>
    rw [Machine.advance, Machine.advance, h.isOver]
    split
    · exact h
    · exact ih h.step

/-- The ends of two runs: the same value or the same fault, in states that look the same. -/
inductive SameEnd : Machine → Machine → Prop
  | returned (v : Value) {s t : State} : s.Agree 1 t → SameEnd (returned v s) (returned v t)
  | finished {s t : State} : s.Agree 1 t → SameEnd (finished s) (finished t)
  | failed (f : Fault) {s t : State} : s.Agree 1 t → SameEnd (failed f s) (failed f t)

theorem Agree.sameEnd (h : m.Agree m') (ended : m.isOver) : m.SameEnd m' := by
  cases h with
  | returned v agree => exact .returned v agree
  | finished agree => exact .finished agree
  | failed f agree => exact .failed f agree
  | _ => cases ended

end Machine

/--
The variables of outer calls do not matter. In states that look the same, an expression and
statements come to an end after as many steps, with the same value or the same fault, and the
states after it look the same.
-/
theorem hidden_frames_irrelevant (limit : Nat) {s t : State} (same : s.Agree 1 t) :
    (∀ e n, ((t.evaluate e).advance limit n).isOver = ((s.evaluate e).advance limit n).isOver ∧
      (((s.evaluate e).advance limit n).isOver →
        ((s.evaluate e).advance limit n).SameEnd ((t.evaluate e).advance limit n))) ∧
    ∀ ss n, ((Machine.run ss .halt t).advance limit n).isOver =
        ((Machine.run ss .halt s).advance limit n).isOver ∧
      (((Machine.run ss .halt s).advance limit n).isOver →
        ((Machine.run ss .halt s).advance limit n).SameEnd
          ((Machine.run ss .halt t).advance limit n)) := by
  constructor
  · intro e n
    have agree := (Machine.Agree.eval e .halt same).advance limit n
    exact ⟨agree.isOver, agree.sameEnd⟩
  · intro ss n
    have agree := (Machine.Agree.run ss .halt same).advance limit n
    exact ⟨agree.isOver, agree.sameEnd⟩

namespace State

/-- In a call of one function, made from a call of another of which `a` is a variable. -/
def insideTwoCalls (a : Int64) : State where
  functions := .ofPairs [("f", ⟨"f", [], [.print (.var "b")], .var "a"⟩)]
  globals := .ofPairs [("b", .int 7)]
  calls := (Calls.empty.enter (.ofPairs [("a", .int a)])).enter (.ofPairs [("c", .int 0)])
  lists := .empty
  output := .unlimited

theorem hidden_frames_irrelevant_insideTwoCalls :
    (insideTwoCalls 1).Agree 1 (insideTwoCalls 2) ∧
      (insideTwoCalls 1).leave.lookup "a" = .ok (.int 1) ∧
      (insideTwoCalls 2).leave.lookup "a" = .ok (.int 2) ∧
      ((((insideTwoCalls 1).evaluate (.call "f" [])).advance 9 9).isOver ∧
        (((insideTwoCalls 1).evaluate (.call "f" [])).advance 9 9).SameEnd
          (((insideTwoCalls 2).evaluate (.call "f" [])).advance 9 9)) := by
  have same : (insideTwoCalls 1).Agree 1 (insideTwoCalls 2) := ⟨rfl, rfl, rfl, rfl, rfl, rfl⟩
  have ended : (((insideTwoCalls 1).evaluate (.call "f" [])).advance 9 9).isOver := by decide
  exact ⟨same, rfl, rfl, ended, ((hidden_frames_irrelevant 9 same).1 _ 9).2 ended⟩

end State

end Scriptlet
