import Scriptlet.Proofs.Run.Code

namespace Scriptlet

def Rule.noLoop : Rule where
  expr _ := True
  stmt st := ∀ cond body, st ≠ .loop cond body

structure State.At (depth : Nat) (table : Bindings Function) (s : State) : Prop where
  depth : s.depth = depth
  functions : s.functions = table

namespace State.At

variable {depth : Nat} {table : Bindings Function} {s : State}

theorem congr {t : State} (h : s.At depth table) (calls : t.calls = s.calls)
    (functions : t.functions = s.functions) : t.At depth table :=
  ⟨(depth_congr calls).trans h.depth, functions.trans h.functions⟩

theorem assign (h : s.At depth table) (x : Name) (v : Value) : (s.assign x v).At depth table := by
  refine ⟨(s.depth_assign x v).trans h.depth, Eq.trans ?_ h.functions⟩
  unfold State.assign
  split
  · rfl
  · split <;> rfl

theorem enter (h : s.At depth table) (f : Function) (args : List Value) :
    (s.enter f args).At (depth + 1) table :=
  ⟨congrArg (· + 1) h.depth, h.functions⟩

theorem leave (h : s.At (depth + 1) table) : s.leave.At depth table :=
  ⟨congrArg (· - 1) h.depth, h.functions⟩

end State.At

namespace Machine

/--
After finitely many steps the machine goes on with `k`, as deep in calls as given and with the same
functions, or fails.
-/
def Settles (limit depth : Nat) (table : Bindings Function) {w : Awaits} (k : Cont w)
    (m : Machine) : Prop :=
  ∃ n, (∃ s : State, s.At depth table ∧ BackAt k s (m.advance limit n)) ∨
    ∃ f s, m.advance limit n = failed f s

theorem BackAt.step_halt (limit : Nat) {s : State} {m : Machine}
    (back : BackAt (.halt : Cont .done) s m) : m.step limit = finished s := by
  cases back with
  | done => rfl

namespace Settles

variable {limit depth : Nat} {table : Bindings Function} {s : State}

theorem value {k : Cont .value} (v : Value) (h : s.At depth table) :
    (Machine.value v k s).Settles limit depth table k :=
  ⟨0, .inl ⟨s, h, .value v⟩⟩

theorem done {k : Cont .done} (h : s.At depth table) :
    (Machine.run [] k s).Settles limit depth table k :=
  ⟨0, .inl ⟨s, h, .done⟩⟩

theorem reject {w w' : Awaits} {k : Cont w} {k' : Cont w'} (e : SemanticError) :
    (Machine.reject e k s).Settles limit depth table k' :=
  ⟨0, .inr ⟨_, _, rfl⟩⟩

theorem pass {k : Cont .value} (r : Except SemanticError Value) (h : s.At depth table) :
    (Machine.pass r k s).Settles limit depth table k := by
  cases r with
  | ok v => exact .value v h
  | error e => exact .reject e

theorem step {w : Awaits} {k : Cont w} {m : Machine}
    (h : (m.step limit).Settles limit depth table k) : m.Settles limit depth table k := by
  obtain ⟨n, final⟩ := h
  refine ⟨1 + n, ?_⟩
  have first : m.advance limit 1 = m.step limit := advance_succ limit 0 m
  rwa [advance_add, first]

theorem bind {depth' : Nat} {w w' : Awaits} {k : Cont w} {k' : Cont w'} {m : Machine}
    (h : m.Settles limit depth table k)
    (next : ∀ (s : State) m', s.At depth table → BackAt k s m' →
      m'.Settles limit depth' table k') : m.Settles limit depth' table k' := by
  obtain ⟨n, ⟨s, here, back⟩ | ⟨f, s, failed⟩⟩ := h
  · obtain ⟨n', final⟩ := next s _ here back
    exact ⟨n + n', by rwa [advance_add]⟩
  · exact ⟨n, .inr ⟨f, s, failed⟩⟩

theorem andThen {depth' : Nat} {w : Awaits} {k : Cont .value} {k' : Cont w} {m : Machine}
    (h : m.Settles limit depth table k)
    (next : ∀ v (s : State), s.At depth table →
      (stepValue v k s).Settles limit depth' table k') : m.Settles limit depth' table k' := by
  refine h.bind fun s m' here back => ?_
  cases back with
  | value v => exact .step (next v s here)

theorem thenDone {depth' : Nat} {w : Awaits} {k : Cont .done} {k' : Cont w} {m : Machine}
    (h : m.Settles limit depth table k)
    (next : ∀ s : State, s.At depth table → (stepDone k s).Settles limit depth' table k') :
    m.Settles limit depth' table k' := by
  refine h.bind fun s m' here back => ?_
  cases back with
  | done => exact .step (next s here)

theorem onCondition {k : Cont .done} (v : Value) {go : Bool → Machine}
    (goes : ∀ b, (go b).Settles limit depth table k) :
    (Machine.onCondition v k s go).Settles limit depth table k := by
  unfold Machine.onCondition
  split
  · exact goes _
  · exact .reject _

end Settles

def Evaluates (limit depth : Nat) (table : Bindings Function) (e : Expr) : Prop :=
  ∀ (s : State) (k : Cont .value), s.At depth table → (eval e k s).Settles limit depth table k

def Executes (limit depth : Nat) (table : Bindings Function) (ss : List Stmt) : Prop :=
  ∀ (s : State) (k : Cont .done), s.At depth table → (run ss k s).Settles limit depth table k

def Callable (limit depth : Nat) (table : Bindings Function) : Prop :=
  depth < limit → ∀ x f, table.get? x = some f →
    Executes limit (depth + 1) table f.body ∧ Evaluates limit (depth + 1) table f.result

variable {limit depth : Nat} {table : Bindings Function}

theorem settles_gather {p : Purpose} {es : List Expr}
    (each : ∀ e ∈ es, Evaluates limit depth table e) {k : Cont p.awaits} {w : Awaits} {k' : Cont w}
    (used : ∀ values (s : State), s.At depth table →
      (use p values k s).Settles limit depth table k')
    (values : List Value) {s : State} (h : s.At depth table) :
    (gather p values es k s).Settles limit depth table k' := by
  induction es generalizing values s with
  | nil => exact .step (used _ s h)
  | cons e es ih =>
    apply Settles.step
    refine (each e List.mem_cons_self s (.next p values es k) h).andThen fun v s here => ?_
    exact ih (fun e mem => each e (List.mem_cons_of_mem _ mem)) (v :: values) here

theorem settles_call (callable : Callable limit depth table) {args : List Expr}
    (each : ∀ e ∈ args, Evaluates limit depth table e) (f : Name) {s : State} (k : Cont .value)
    (h : s.At depth table) : (call limit f args k s).Settles limit depth table k := by
  unfold call
  split
  · exact .reject _
  · rename_i fn found
    split
    · exact .reject _
    split
    · exact .reject _
    · rename_i room
      rw [h.depth] at room
      rw [h.functions] at found
      obtain ⟨body, result⟩ := callable (Nat.lt_of_not_le room) f fn found
      refine settles_gather each (fun values s here => ?_) [] h
      refine (body _ (.result fn.result k) (here.enter fn values)).thenDone fun s here => ?_
      exact (result s (.leave k) here).andThen fun v s here => .value v here.leave

theorem evaluates (callable : Callable limit depth table) :
    (e : Expr) → Evaluates limit depth table e
  | .literal l, s, k, h => .step (.value l.value h)
  | .list items, s, k, h =>
    .step (settles_gather (p := .list) (fun e _ => evaluates callable e)
      (fun _ _ here => .value _ (here.congr rfl rfl)) [] h)
  | .tuple items, s, k, h =>
    .step (settles_gather (p := .tuple) (fun e _ => evaluates callable e)
      (fun _ _ here => .value _ here) [] h)
  | .var x, s, k, h => .step (.pass _ h)
  | .unary op e, s, k, h =>
    .step ((evaluates callable e s (.unary op k) h).andThen fun _ _ here => .pass _ here)
  | .binary op l r, s, k, h => by
    apply Settles.step
    refine (evaluates callable l s (.binaryLeft op r k) h).andThen fun v s here => ?_
    refine (evaluates callable r s (.binaryRight op v k) here).andThen fun v s here => ?_
    simp only [stepValue]
    split
    · exact .value _ (here.congr rfl rfl)
    · exact .reject _
  | .index target indices, s, k, h => by
    apply Settles.step
    refine (evaluates callable target s (.index indices k) h).andThen fun v s here => ?_
    exact settles_gather (p := .indices v) (fun e _ => evaluates callable e)
      (fun _ _ here => .pass _ here) [] here
  | .field n target, s, k, h =>
    .step ((evaluates callable target s (.field n k) h).andThen fun _ _ here => .pass _ here)
  | .call f args, s, k, h =>
    .step (settles_call callable (fun e _ => evaluates callable e) f k h)

theorem executes_of_stmts {ss : List Stmt}
    (each : ∀ st ∈ ss, ∀ (s : State) (k : Cont .done), s.At depth table →
      (stepStmt limit st k s).Settles limit depth table k) : Executes limit depth table ss := by
  induction ss with
  | nil => exact fun s k h => .done h
  | cons st ss ih =>
    intro s k h
    apply Settles.step
    refine (each st List.mem_cons_self s (.rest ss k) h).thenDone fun s here => ?_
    exact ih (fun st mem => each st (List.mem_cons_of_mem _ mem)) s k here

theorem settles_stmt (callable : Callable limit depth table) {st : Stmt}
    (free : st.Obeys .noLoop) (s : State) (k : Cont .done) (h : s.At depth table) :
    (stepStmt limit st k s).Settles limit depth table k := by
  have value (e : Expr) := evaluates callable e
  induction free generalizing s k with
  | @intro st here _ _ ih =>
    cases st with
    | print e =>
      refine (value e s (.print k) h).andThen fun v s here => ?_
      simp only [stepValue]
      split
      · rename_i s' eq
        have same : s' = (s.print (v.display s.lists)).1 := by rw [eq]
        exact .done (here.congr (same ▸ s.calls_print _) (by rw [same]; rfl))
      · exact ⟨0, .inr ⟨_, _, rfl⟩⟩
    | assign x e =>
      exact (value e s (.assign x k) h).andThen fun v s here => .done (here.assign x v)
    | assignAt x indices e =>
      refine settles_gather (p := .positions x e) (fun e _ => value e)
        (fun values s here => ?_) [] h
      refine (value e s (.assignAt x values k) here).andThen fun v s here => ?_
      simp only [stepValue]
      split
      · exact .done (here.congr rfl rfl)
      · exact .reject _
    | block body => exact executes_of_stmts ih s k h
    | ifThen cond body =>
      refine (value cond s (.branch body [] k) h).andThen fun v s here =>
        .onCondition v fun b => ?_
      cases b with
      | true => exact executes_of_stmts ih s k here
      | false => exact .done here
    | ifElse cond body other =>
      refine (value cond s (.branch body other k) h).andThen fun v s here =>
        .onCondition v fun b => ?_
      cases b with
      | true => exact executes_of_stmts (fun st mem => ih st (List.mem_append_left _ mem)) s k here
      | false =>
        exact executes_of_stmts (fun st mem => ih st (List.mem_append_right _ mem)) s k here
    | loop cond body => exact absurd rfl (here cond body)
    | call f args =>
      refine (settles_call callable (fun e _ => value e) f (.discard k) h).andThen ?_
      exact fun _ _ here => .done here

/-- Every depth leaves fewer levels of calls, so that at each of them functions can be called. -/
theorem callable_of_loopFree (free : table.Obeys .noLoop) (limit depth : Nat) :
    Callable limit depth table := by
  induction levels : limit - depth using Nat.strong_induction_on generalizing depth with
  | _ n ih =>
    intro room x f found
    have deeper : Callable limit (depth + 1) table := ih _ (by omega) (depth + 1) rfl
    refine ⟨executes_of_stmts fun st mem => ?_, evaluates deeper f.result⟩
    exact settles_stmt deeper ((free x f found).body st mem)

end Machine

/--
Without a loop in the block of the program or in a function of the table every run comes to an end,
in any state, with any limit, and however the functions call each other.
-/
theorem halts_of_loopFree (limit : Nat) (s : State) (p : Program)
    (main : ∀ st ∈ p.main, st.Obeys .noLoop)
    (table : (s.define p.functions).functions.Obeys .noLoop) :
    ∃ n, (∃ t, (s.start p).advance limit n = .finished t) ∨
      ∃ f t, (s.start p).advance limit n = .failed f t := by
  have callable := Machine.callable_of_loopFree table limit s.depth
  have runs := Machine.executes_of_stmts fun st mem => Machine.settles_stmt callable (main st mem)
  obtain ⟨n, ⟨t, _, back⟩ | failed⟩ := runs (s.define p.functions) .halt ⟨rfl, rfl⟩
  · refine ⟨n + 1, .inl ⟨t, ?_⟩⟩
    rw [Machine.advance_succ]
    exact back.step_halt limit
  · exact ⟨n, .inr failed⟩

namespace Program

/-- `fun f(x) = { print(x in [x]); } f(f(x)); { print(f(a)); }` -/
def endlessCalls : Program where
  functions := [⟨"f", ["x"], [.print (.binary .member (.var "x") (.list [.var "x"]))],
    .call "f" [.call "f" [.var "x"]]⟩]
  main := [.print (.call "f" [.var "a"])]

theorem halts_of_loopFree_endlessCalls :
    let s : State := { State.fresh .unlimited with
      globals := .ofPairs [("a", .list ⟨0⟩)], lists := ⟨#[.singleton (.list ⟨0⟩)]⟩ }
    (∀ st ∈ endlessCalls.main, st.Obeys .noLoop) ∧
      (s.define endlessCalls.functions).functions.Obeys .noLoop ∧
      ∃ n, (∃ t, (s.start endlessCalls).advance 1000 n = .finished t) ∨
        ∃ f t, (s.start endlessCalls).advance 1000 n = .failed f t := by
  intro s
  have print (e : Expr) : (Stmt.print e).Obeys .noLoop :=
    Stmt.obeys_of_parts_eq_nil (fun _ _ => Stmt.noConfusion)
      (fun e _ => Expr.obeys_of_forall (fun _ => trivial) e) rfl
  have main : ∀ st ∈ endlessCalls.main, st.Obeys .noLoop := by
    intro st mem
    rw [List.mem_singleton.mp mem]
    exact print _
  have table : (s.define endlessCalls.functions).functions.Obeys .noLoop := by
    intro x f found
    have found : (Bindings.empty.put "f" endlessCalls.functions.head!).get? x = some f := found
    rw [Bindings.get?_put] at found
    split at found
    · cases found
      refine ⟨fun st mem => ?_, Expr.obeys_of_forall (fun _ => trivial) _⟩
      rw [List.mem_singleton.mp mem]
      exact print _
    · cases found
  exact ⟨main, table, halts_of_loopFree 1000 s endlessCalls main table⟩

end Program

end Scriptlet
