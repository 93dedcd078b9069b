import Scriptlet.Proofs.Run.Span

namespace Scriptlet

inductive Cont.Over {w₀ : Awaits} (k₀ k₁ : Cont w₀) : {w : Awaits} → Cont w → Cont w → Prop
  | base : Over k₀ k₁ k₀ k₁
  | unary {op k k'} : Over k₀ k₁ k k' → Over k₀ k₁ (.unary op k) (.unary op k')
  | binaryLeft {op r k k'} : Over k₀ k₁ k k' → Over k₀ k₁ (.binaryLeft op r k) (.binaryLeft op r k')
  | binaryRight {op l k k'} : Over k₀ k₁ k k' →
      Over k₀ k₁ (.binaryRight op l k) (.binaryRight op l k')
  | index {indices k k'} : Over k₀ k₁ k k' → Over k₀ k₁ (.index indices k) (.index indices k')
  | field {n k k'} : Over k₀ k₁ k k' → Over k₀ k₁ (.field n k) (.field n k')
  | next {p : Purpose} {values es k k'} : Over k₀ k₁ k k' →
      Over k₀ k₁ (.next p values es k) (.next p values es k')
  | leave {k k'} : Over k₀ k₁ k k' → Over k₀ k₁ (.leave k) (.leave k')
  | print {k k'} : Over k₀ k₁ k k' → Over k₀ k₁ (.print k) (.print k')
  | assign {x k k'} : Over k₀ k₁ k k' → Over k₀ k₁ (.assign x k) (.assign x k')
  | assignAt {x indices k k'} : Over k₀ k₁ k k' →
      Over k₀ k₁ (.assignAt x indices k) (.assignAt x indices k')
  | branch {body other k k'} : Over k₀ k₁ k k' →
      Over k₀ k₁ (.branch body other k) (.branch body other k')
  | loop {cond body k k'} : Over k₀ k₁ k k' → Over k₀ k₁ (.loop cond body k) (.loop cond body k')
  | discard {k k'} : Over k₀ k₁ k k' → Over k₀ k₁ (.discard k) (.discard k')
  | rest {ss k k'} : Over k₀ k₁ k k' → Over k₀ k₁ (.rest ss k) (.rest ss k')
  | again {cond body k k'} : Over k₀ k₁ k k' →
      Over k₀ k₁ (.again cond body k) (.again cond body k')
  | result {e k k'} : Over k₀ k₁ k k' → Over k₀ k₁ (.result e k) (.result e k')

namespace Machine

variable {limit : Nat} {w₀ : Awaits} {k₀ k₁ : Cont w₀} {s : State}

/-- The machines do the same, the one in front of `k₀` and the other in front of `k₁`. -/
inductive Over (k₀ k₁ : Cont w₀) : Machine → Machine → Prop
  | eval (e : Expr) {k k' : Cont .value} (s : State) : k₀.Over k₁ k k' →
      Over k₀ k₁ (eval e k s) (eval e k' s)
  | gather {p : Purpose} (values : List Value) (es : List Expr) {k k' : Cont p.awaits} (s : State) :
      k₀.Over k₁ k k' → Over k₀ k₁ (gather p values es k s) (gather p values es k' s)
  | value (v : Value) {k k' : Cont .value} (s : State) : k₀.Over k₁ k k' →
      Over k₀ k₁ (value v k s) (value v k' s)
  | run (ss : List Stmt) {k k' : Cont .done} (s : State) : k₀.Over k₁ k k' →
      Over k₀ k₁ (run ss k s) (run ss k' s)
  | failed (f : Fault) (s : State) : Over k₀ k₁ (failed f (k₀.unwind s)) (failed f (k₁.unwind s))

inductive Back : {w : Awaits} → (k₀ k₁ : Cont w) → Machine → Machine → Prop
  | value {k₀ k₁ : Cont .value} (v : Value) (s : State) : Back k₀ k₁ (value v k₀ s) (value v k₁ s)
  | done {k₀ k₁ : Cont .done} (s : State) : Back k₀ k₁ (run [] k₀ s) (run [] k₁ s)

namespace Over

theorem fail {w : Awaits} {k k' : Cont w} (f : Fault) (s : State) (h : k₀.Over k₁ k k') :
    Over k₀ k₁ (.failed f (k.unwind s)) (.failed f (k'.unwind s)) := by
  induction h generalizing s with
  | base => exact .failed f s
  | leave _ ih => exact ih s.leave
  | result _ ih => exact ih s.leave
  | _ => apply_assumption

theorem reject {w : Awaits} {k k' : Cont w} (e : SemanticError) (h : k₀.Over k₁ k k') :
    Over k₀ k₁ (reject e k s) (reject e k' s) := fail _ s h

theorem pass {k k' : Cont .value} (r : Except SemanticError Value) (h : k₀.Over k₁ k k') :
    Over k₀ k₁ (pass r k s) (pass r k' s) := by
  cases r with
  | ok v => exact .value v s h
  | error e => exact reject e h

theorem call {k k' : Cont .value} (f : Name) (args : List Expr) (h : k₀.Over k₁ k k') :
    Over k₀ k₁ (call limit f args k s) (call limit f args k' s) := by
  unfold Machine.call
  split
  · exact reject _ h
  split
  · exact reject _ h
  split
  · exact reject _ h
  · exact .gather _ _ _ h

theorem stepEval {k k' : Cont .value} (e : Expr) (h : k₀.Over k₁ k k') :
    Over k₀ k₁ (stepEval limit e k s) (stepEval limit e k' s) := by
  cases e with
  | literal l => exact .value _ _ h
  | list items => exact .gather _ _ _ h
  | tuple items => exact .gather _ _ _ h
  | var x => exact pass _ h
  | unary op e => exact .eval _ _ (.unary h)
  | binary op l r => exact .eval _ _ (.binaryLeft h)
  | index target indices => exact .eval _ _ (.index h)
  | field n target => exact .eval _ _ (.field h)
  | call f args => exact call f args h

theorem stepStmt {k k' : Cont .done} (st : Stmt) (s : State) (h : k₀.Over k₁ k k') :
    Over k₀ k₁ (stepStmt limit st k s) (stepStmt limit st k' s) := by
  cases st with
  | print e => exact .eval _ _ (.print h)
  | assign x e => exact .eval _ _ (.assign h)
  | assignAt x indices e => exact .gather _ _ _ h
  | block body => exact .run _ _ h
  | ifThen cond body => exact .eval _ _ (.branch h)
  | ifElse cond body other => exact .eval _ _ (.branch h)
  | loop cond body => exact .eval _ _ (.loop h)
  | call f args => exact call f args (.discard h)

theorem use {p : Purpose} {k k' : Cont p.awaits} (values : List Value) (h : k₀.Over k₁ k k') :
    Over k₀ k₁ (use p values k s) (use p values k' s) := by
  cases p with
  | list => exact .value _ _ h
  | tuple => exact .value _ _ h
  | indices target => exact pass _ h
  | arguments f => exact .run _ _ (.result h)
  | positions x e => exact .eval _ _ (.assignAt h)

theorem onCondition {k k' : Cont .done} (v : Value) {go go' : Bool → Machine}
    (h : k₀.Over k₁ k k') (goes : ∀ b, Over k₀ k₁ (go b) (go' b)) :
    Over k₀ k₁ (onCondition v k s go) (onCondition v k' s go') := by
  unfold Machine.onCondition
  split
  · exact goes _
  · exact reject _ h

theorem stepDone {k k' : Cont .done} (h : k₀.Over k₁ k k') :
    Back k₀ k₁ (.run [] k s) (.run [] k' s) ∨ Over k₀ k₁ (stepDone k s) (stepDone k' s) := by
  cases h with
  | base => exact .inl (.done s)
  | rest inner => exact .inr (.run _ _ inner)
  | again inner => exact .inr (.eval _ _ (.loop inner))
  | result inner => exact .inr (.eval _ _ (.leave inner))

theorem stepValue {k k' : Cont .value} (v : Value) (h : k₀.Over k₁ k k') :
    Back k₀ k₁ (.value v k s) (.value v k' s) ∨
      Over k₀ k₁ (stepValue v k s) (stepValue v k' s) := by
  cases h with
  | base => exact .inl (.value v s)
  | unary inner => exact .inr (pass _ inner)
  | binaryLeft inner => exact .inr (.eval _ _ (.binaryRight inner))
  | binaryRight inner =>
    right
    simp only [Machine.stepValue]
    split
    · exact .value _ _ inner
    · exact reject _ inner
  | index inner => exact .inr (.gather _ _ _ inner)
  | field inner => exact .inr (pass _ inner)
  | next inner => exact .inr (.gather _ _ _ inner)
  | leave inner => exact .inr (.value _ _ inner)
  | print inner =>
    right
    simp only [Machine.stepValue]
    split
    · exact .run _ _ inner
    · exact fail _ _ inner
  | assign inner => exact .inr (.run _ _ inner)
  | assignAt inner =>
    right
    simp only [Machine.stepValue]
    split
    · exact .run _ _ inner
    · exact reject _ inner
  | branch inner => exact .inr (onCondition v inner fun _ => .run _ _ inner)
  | loop inner =>
    refine .inr (onCondition v inner fun b => ?_)
    cases b with
    | true => exact .run _ _ (.again inner)
    | false => exact .run _ _ inner
  | discard inner => exact .inr (.run _ _ inner)

variable {m m' : Machine}

theorem step (h : Over k₀ k₁ m m') :
    Back k₀ k₁ m m' ∨ Over k₀ k₁ (m.step limit) (m'.step limit) := by
  cases h with
  | eval e s alike => exact .inr (stepEval e alike)
  | gather values es s alike =>
    cases es with
    | nil => exact .inr (use _ alike)
    | cons e es => exact .inr (.eval _ _ (.next alike))
  | value v s alike => exact stepValue v alike
  | run ss s alike =>
    cases ss with
    | nil => exact stepDone alike
    | cons st ss => exact .inr (stepStmt st s (.rest alike))
  | failed f s => exact .inr (.failed f s)

/-- The runs take as many steps until they are done with what they do alike. -/
theorem advance (limit : Nat) (h : Over k₀ k₁ m m') (n : Nat) :
    (∃ j ≤ n, Back k₀ k₁ (m.advance limit j) (m'.advance limit j)) ∨
      Over k₀ k₁ (m.advance limit n) (m'.advance limit n) := by
  induction n with
  | zero => exact .inr h
  | succ n ih =>
    rw [advance_succ, advance_succ]
    rcases ih with ⟨j, le, back⟩ | alike
    · exact .inl ⟨j, Nat.le_succ_of_le le, back⟩
    · rcases alike.step with back | next
      · exact .inl ⟨n, Nat.le_succ n, back⟩
      · exact .inr next

end Over

end Machine

end Scriptlet
