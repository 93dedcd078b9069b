import Scriptlet.Proofs.Run.Joined

namespace Scriptlet

/-- What is asked of every expression and of every statement. -/
structure Rule where
  expr : Expr → Prop
  stmt : Stmt → Prop

def Expr.parts : Expr → List Expr
  | literal _ | var _ => []
  | list es | tuple es | call _ es => es
  | unary _ e | field _ e => [e]
  | binary _ l r => [l, r]
  | index target indices => target :: indices

def Stmt.exprs : Stmt → List Expr
  | block _ => []
  | print e | assign _ e | ifThen e _ | ifElse e _ _ | loop e _ => [e]
  | assignAt _ indices e => e :: indices
  | call _ args => args

def Stmt.parts : Stmt → List Stmt
  | block body | ifThen _ body | loop _ body => body
  | ifElse _ body other => body ++ other
  | _ => []

theorem Expr.sizeOf_lt_of_mem_parts {e p : Expr} (part : p ∈ e.parts) : sizeOf p < sizeOf e := by
  cases e with
  | literal l => cases part
  | var x => cases part
  | list es | tuple es | call f es =>
    have smaller : sizeOf p < sizeOf es := List.sizeOf_lt_of_mem part
    simp only [list.sizeOf_spec, tuple.sizeOf_spec, call.sizeOf_spec]
    omega
  | unary op e | field n e =>
    rw [List.mem_singleton.mp part]
    simp only [unary.sizeOf_spec, field.sizeOf_spec]
    omega
  | binary op l r =>
    simp only [binary.sizeOf_spec]
    rcases List.mem_pair.mp part with rfl | rfl <;> omega
  | index target indices =>
    have smaller : sizeOf p < sizeOf (target :: indices) := List.sizeOf_lt_of_mem part
    simp only [List.cons.sizeOf_spec] at smaller
    simp only [index.sizeOf_spec]
    omega

theorem Stmt.sizeOf_lt_of_mem_parts {st p : Stmt} (part : p ∈ st.parts) :
    sizeOf p < sizeOf st := by
  cases st with
  | block body | ifThen cond body | loop cond body =>
    have smaller : sizeOf p < sizeOf body := List.sizeOf_lt_of_mem part
    simp only [block.sizeOf_spec, ifThen.sizeOf_spec, loop.sizeOf_spec]
    omega
  | ifElse cond body other =>
    simp only [ifElse.sizeOf_spec]
    rcases List.mem_append.mp part with part | part
    · have smaller := List.sizeOf_lt_of_mem part
      omega
    · have smaller := List.sizeOf_lt_of_mem part
      omega
  | _ => cases part

inductive Expr.Obeys (rule : Rule) : Expr → Prop
  | intro {e : Expr} : rule.expr e → (∀ p ∈ e.parts, p.Obeys rule) → Obeys rule e

inductive Stmt.Obeys (rule : Rule) : Stmt → Prop
  | intro {st : Stmt} : rule.stmt st → (∀ e ∈ st.exprs, e.Obeys rule) →
      (∀ p ∈ st.parts, p.Obeys rule) → Obeys rule st

variable {rule : Rule}

theorem Expr.Obeys.part {e p : Expr} (h : e.Obeys rule) (part : p ∈ e.parts) : p.Obeys rule := by
  cases h with
  | intro _ parts => exact parts p part

theorem Expr.Obeys.here {e : Expr} (h : e.Obeys rule) : rule.expr e := by
  cases h with
  | intro here _ => exact here

theorem Expr.obeys_of {P : Expr → Prop} (here : ∀ {e}, P e → rule.expr e)
    (part : ∀ {e p}, P e → p ∈ e.parts → P p) {e : Expr} (h : P e) : e.Obeys rule :=
  .intro (here h) fun p inside => by
    have smaller : sizeOf p < sizeOf e := Expr.sizeOf_lt_of_mem_parts inside
    exact obeys_of here part (part h inside)
termination_by e

theorem Expr.obeys_of_forall (all : ∀ e, rule.expr e) (e : Expr) : e.Obeys rule :=
  obeys_of (P := fun _ => True) (fun _ => all _) (fun _ _ => trivial) trivial

theorem Expr.obeys_of_parts_eq_nil {e : Expr} (here : rule.expr e) (alone : e.parts = []) :
    e.Obeys rule :=
  .intro here fun p part => by rw [alone] at part; cases part

theorem Stmt.obeys_of_parts_eq_nil {st : Stmt} (here : rule.stmt st)
    (exprs : ∀ e ∈ st.exprs, e.Obeys rule) (alone : st.parts = []) : st.Obeys rule :=
  .intro here exprs fun p part => by rw [alone] at part; cases part

theorem Stmt.obeys_of {P : Stmt → Prop} (here : ∀ {st}, P st → rule.stmt st)
    (expr : ∀ {st e}, P st → e ∈ st.exprs → e.Obeys rule)
    (part : ∀ {st p}, P st → p ∈ st.parts → P p) {st : Stmt} (h : P st) : st.Obeys rule :=
  .intro (here h) (fun _ inside => expr h inside) fun p inside => by
    have smaller : sizeOf p < sizeOf st := Stmt.sizeOf_lt_of_mem_parts inside
    exact obeys_of here expr part (part h inside)
termination_by st

theorem Stmt.Obeys.here {st : Stmt} (h : st.Obeys rule) : rule.stmt st := by
  cases h with
  | intro here _ _ => exact here

theorem Stmt.Obeys.expr {st : Stmt} {e : Expr} (h : st.Obeys rule) (inside : e ∈ st.exprs) :
    e.Obeys rule := by
  cases h with
  | intro _ exprs _ => exact exprs e inside

theorem Stmt.Obeys.part {st p : Stmt} (h : st.Obeys rule) (part : p ∈ st.parts) :
    p.Obeys rule := by
  cases h with
  | intro _ _ parts => exact parts p part

structure Function.Obeys (rule : Rule) (f : Function) : Prop where
  body : ∀ st ∈ f.body, st.Obeys rule
  result : f.result.Obeys rule

structure Program.Obeys (rule : Rule) (p : Program) : Prop where
  functions : ∀ f ∈ p.functions, f.Obeys rule
  main : ∀ st ∈ p.main, st.Obeys rule

def Bindings.Obeys (rule : Rule) (table : Bindings Function) : Prop :=
  ∀ x f, table.get? x = some f → f.Obeys rule

theorem Bindings.Obeys.empty : Obeys rule .empty := by
  intro x f bound
  cases bound

theorem Bindings.Obeys.putAll {t : Bindings Function} {fs : List Function} (table : t.Obeys rule)
    (functions : ∀ f ∈ fs, f.Obeys rule) : (t.putAll fs).Obeys rule := by
  induction fs generalizing t with
  | nil => exact table
  | cons g fs ih =>
    refine ih (fun x f bound => ?_) fun f member => functions f (List.mem_cons_of_mem _ member)
    rw [get?_put] at bound
    split at bound
    · cases bound
      exact functions g List.mem_cons_self
    · exact table x f bound

def Purpose.Obeys (rule : Rule) : Purpose → Prop
  | arguments f => f.Obeys rule
  | positions x e => (∃ indices, rule.stmt (.assignAt x indices e)) ∧ e.Obeys rule
  | _ => True

def Cont.Obeys (rule : Rule) : {w : Awaits} → Cont w → Prop
  | _, halt => True
  | _, unary _ k | _, binaryRight _ _ k | _, field _ k | _, leave k => k.Obeys rule
  | _, print k | _, assign _ k | _, discard k => k.Obeys rule
  | _, binaryLeft _ r k => r.Obeys rule ∧ k.Obeys rule
  | _, index indices k => (∀ e ∈ indices, e.Obeys rule) ∧ k.Obeys rule
  | _, next p _ es k => p.Obeys rule ∧ (∀ e ∈ es, e.Obeys rule) ∧ k.Obeys rule
  -- Of the assignment itself only a part is left to do, but it was in the code as a whole.
  | _, assignAt x _ k => (∃ indices e, rule.stmt (.assignAt x indices e)) ∧ k.Obeys rule
  | _, branch body other k =>
    (∀ st ∈ body, st.Obeys rule) ∧ (∀ st ∈ other, st.Obeys rule) ∧ k.Obeys rule
  | _, loop cond body k | _, again cond body k =>
    (cond.Obeys rule ∧ ∀ st ∈ body, st.Obeys rule) ∧ k.Obeys rule
  | _, rest ss k => (∀ st ∈ ss, st.Obeys rule) ∧ k.Obeys rule
  | _, result e k => e.Obeys rule ∧ k.Obeys rule

namespace Machine

def Obeys (rule : Rule) : Machine → Prop
  | eval e k _ => e.Obeys rule ∧ k.Obeys rule
  | gather p _ es k _ => p.Obeys rule ∧ (∀ e ∈ es, e.Obeys rule) ∧ k.Obeys rule
  | value _ k _ => k.Obeys rule
  | run ss k _ => (∀ st ∈ ss, st.Obeys rule) ∧ k.Obeys rule
  | returned .. | finished _ | failed .. => True

namespace Obeys

variable {limit : Nat} {s : State}

theorem pass {k : Cont .value} (r : Except SemanticError Value) (next : k.Obeys rule) :
    (Machine.pass r k s).Obeys rule := by
  cases r with
  | ok v => exact next
  | error e => trivial

theorem call {k : Cont .value} (f : Name) {args : List Expr} (functions : s.functions.Obeys rule)
    (code : ∀ e ∈ args, e.Obeys rule) (next : k.Obeys rule) :
    (Machine.call limit f args k s).Obeys rule := by
  unfold Machine.call
  split
  · trivial
  · rename_i fn found
    split
    · trivial
    split
    · trivial
    · exact ⟨functions f fn found, code, next⟩

theorem stepEval {e : Expr} {k : Cont .value} (functions : s.functions.Obeys rule)
    (code : e.Obeys rule) (next : k.Obeys rule) :
    (Machine.stepEval limit e k s).Obeys rule := by
  cases e with
  | literal l => exact next
  | list items => exact ⟨trivial, fun _ => code.part, next⟩
  | tuple items => exact ⟨trivial, fun _ => code.part, next⟩
  | var x => exact pass _ next
  | unary op e => exact ⟨code.part List.mem_cons_self, next⟩
  | binary op l r =>
    exact ⟨code.part List.mem_cons_self,
      code.part (List.mem_cons_of_mem _ List.mem_cons_self), next⟩
  | index target indices =>
    exact ⟨code.part List.mem_cons_self, fun _ inside => code.part (List.mem_cons_of_mem _ inside),
      next⟩
  | field n target => exact ⟨code.part List.mem_cons_self, next⟩
  | call f args => exact call f functions (fun _ => code.part) next

theorem stepStmt {st : Stmt} {k : Cont .done} (functions : s.functions.Obeys rule)
    (code : st.Obeys rule) (next : k.Obeys rule) :
    (Machine.stepStmt limit st k s).Obeys rule := by
  cases st with
  | print e => exact ⟨code.expr List.mem_cons_self, next⟩
  | assign x e => exact ⟨code.expr List.mem_cons_self, next⟩
  | assignAt x indices e =>
    exact ⟨⟨⟨indices, code.here⟩, code.expr List.mem_cons_self⟩,
      fun _ inside => code.expr (List.mem_cons_of_mem _ inside), next⟩
  | block body => exact ⟨fun _ => code.part, next⟩
  | ifThen cond body => exact ⟨code.expr List.mem_cons_self, fun _ => code.part, nofun, next⟩
  | ifElse cond body other =>
    exact ⟨code.expr List.mem_cons_self,
      fun _ inside => code.part (List.mem_append_left _ inside),
      fun _ inside => code.part (List.mem_append_right _ inside), next⟩
  | loop cond body =>
    have cond := code.expr List.mem_cons_self
    exact ⟨cond, ⟨cond, fun _ => code.part⟩, next⟩
  | call f args => exact call f functions (fun _ => code.expr) next

theorem use {p : Purpose} {k : Cont p.awaits} (values : List Value) (purpose : p.Obeys rule)
    (next : k.Obeys rule) : (Machine.use p values k s).Obeys rule := by
  cases p with
  | list => exact next
  | tuple => exact next
  | indices target => exact pass _ next
  | arguments f => exact ⟨purpose.body, purpose.result, next⟩
  | positions x e =>
    obtain ⟨⟨indices, stmt⟩, code⟩ := purpose
    exact ⟨code, ⟨indices, e, stmt⟩, next⟩

theorem onCondition {k : Cont .done} (v : Value) {go : Bool → Machine}
    (goes : ∀ b, (go b).Obeys rule) : (Machine.onCondition v k s go).Obeys rule := by
  unfold Machine.onCondition
  split
  · exact goes _
  · trivial

theorem stepValue {k : Cont .value} (v : Value) (next : k.Obeys rule) :
    (Machine.stepValue v k s).Obeys rule := by
  cases k with
  | halt => trivial
  | unary op k => exact pass _ next
  | binaryLeft op r k => exact next
  | binaryRight op l k =>
    simp only [Machine.stepValue]
    split
    · exact next
    · trivial
  | index indices k => exact ⟨trivial, next⟩
  | field n k => exact pass _ next
  | next p values es k => exact next
  | leave k => exact next
  | print k =>
    simp only [Machine.stepValue]
    split
    · exact ⟨List.forall_mem_nil _, next⟩
    · trivial
  | assign x k => exact ⟨List.forall_mem_nil _, next⟩
  | assignAt x indices k =>
    simp only [Machine.stepValue]
    split
    · exact ⟨List.forall_mem_nil _, next.2⟩
    · trivial
  | branch body other k =>
    refine onCondition v fun b => ?_
    cases b with
    | true => exact ⟨next.1, next.2.2⟩
    | false => exact next.2
  | loop cond body k =>
    refine onCondition v fun b => ?_
    cases b with
    | true => exact ⟨next.1.2, next⟩
    | false => exact ⟨List.forall_mem_nil _, next.2⟩
  | discard k => exact ⟨List.forall_mem_nil _, next⟩

theorem stepDone {k : Cont .done} (next : k.Obeys rule) : (Machine.stepDone k s).Obeys rule := by
  cases k with
  | halt => trivial
  | rest ss k => exact next
  | again cond body k => exact ⟨next.1.1, next⟩
  | result e k => exact next

theorem step {m : Machine} (functions : m.state.functions.Obeys rule) (code : m.Obeys rule) :
    (m.step limit).Obeys rule := by
  cases m with
  | eval e k s => exact stepEval functions code.1 code.2
  | gather p values es k s =>
    obtain ⟨purpose, exprs, next⟩ := code
    cases es with
    | nil => exact use _ purpose next
    | cons e es =>
      exact ⟨exprs e List.mem_cons_self, purpose,
        fun _ inside => exprs _ (List.mem_cons_of_mem _ inside), next⟩
  | value v k s => exact stepValue v code
  | run ss k s =>
    obtain ⟨stmts, next⟩ := code
    cases ss with
    | nil => exact stepDone next
    | cons st ss =>
      exact stepStmt functions (stmts st List.mem_cons_self)
        ⟨fun _ inside => stmts _ (List.mem_cons_of_mem _ inside), next⟩
  | returned v s => trivial
  | finished s => trivial
  | failed f s => trivial

theorem advance {m : Machine} (functions : m.state.functions.Obeys rule) (code : m.Obeys rule)
    (limit n : Nat) : (m.advance limit n).Obeys rule := by
  induction n with
  | zero => exact code
  | succ n ih =>
    rw [advance_succ]
    exact step (by rwa [functions_advance]) ih

end Obeys

/-- The machine takes a step or, at the end of one program, sets out to run another. -/
inductive Move (limit : Nat) (among : Program → Prop) : Machine → Machine → Prop
  | step (m : Machine) : Move limit among m (m.step limit)
  | start {m : Machine} {p : Program} : m.isOver → among p → Move limit among m (m.state.start p)

abbrev Later (limit : Nat) (among : Program → Prop) : Machine → Machine → Prop :=
  Relation.ReflTransGen (Move limit among)

variable {limit : Nat} {among : Program → Prop} {m m' : Machine}

theorem later_advance (m : Machine) (n : Nat) : m.Later limit among (m.advance limit n) := by
  induction n with
  | zero => exact .refl
  | succ n ih =>
    rw [advance_succ]
    exact ih.tail (.step _)

theorem Reaches.later (reaches : m.Reaches limit m') (among : Program → Prop) :
    m.Later limit among m' := by
  obtain ⟨n, rfl⟩ := reaches
  exact later_advance m n

namespace Obeys

theorem move (programs : ∀ p, among p → p.Obeys rule) (move : m.Move limit among m')
    (functions : m.state.functions.Obeys rule) (code : m.Obeys rule) :
    m'.state.functions.Obeys rule ∧ m'.Obeys rule := by
  cases move with
  | step => exact ⟨by rwa [functions_step], step functions code⟩
  | start _ chosen =>
    have program := programs _ chosen
    exact ⟨functions.putAll program.functions, program.main, trivial⟩

theorem later (programs : ∀ p, among p → p.Obeys rule) (later : m.Later limit among m')
    (functions : m.state.functions.Obeys rule) (code : m.Obeys rule) :
    m'.state.functions.Obeys rule ∧ m'.Obeys rule := by
  induction later with
  | refl => exact ⟨functions, code⟩
  | tail _ last ih => exact move programs last ih.1 ih.2

end Obeys

end Machine

end Scriptlet
