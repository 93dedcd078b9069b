import Scriptlet.Proofs.Run.Context
import Scriptlet.Proofs.Run.Refit

namespace Scriptlet

namespace Bindings

variable {t u : Bindings Function} {fs : List Function}

def KeptIn (t u : Bindings Function) : Prop := ∀ x f, t.get? x = some f → u.get? x = some f

def putAll (t : Bindings Function) (fs : List Function) : Bindings Function :=
  fs.foldl (fun t f => t.put f.name f) t

theorem KeptIn.new (kept : t.KeptIn u) (new : ∀ f ∈ fs, t.has f.name = false) :
    t.KeptIn (u.putAll fs) := by
  induction fs generalizing u with
  | nil => exact kept
  | cons g fs ih =>
    refine ih (fun x f bound => ?_) fun f member => new f (List.mem_cons_of_mem _ member)
    have other : x ≠ g.name := by
      rintro rfl
      have unbound := new g List.mem_cons_self
      rw [has, bound] at unbound
      cases unbound
    rw [get?_put, if_neg other]
    exact kept x f bound

theorem KeptIn.putAll (kept : t.KeptIn u) (fs : List Function) :
    (t.putAll fs).KeptIn (u.putAll fs) := by
  induction fs generalizing t u with
  | nil => exact kept
  | cons g fs ih =>
    refine ih fun x f bound => ?_
    rw [get?_put] at bound ⊢
    split
    · rename_i same
      rwa [if_pos same] at bound
    · rename_i other
      rw [if_neg other] at bound
      exact kept x f bound

end Bindings

abbrev State.withFunctions (table : Bindings Function) : State → State := refit (fun _ => table) id

namespace Machine

def Missed (m : Machine) : Prop := ∃ f s, m = failed (.semantic (.unknownFunction f)) s

theorem isOver_of_missed {m : Machine} (h : m.Missed) : m.isOver := by
  obtain ⟨_, _, rfl⟩ := h
  rfl

variable {limit : Nat} {table : Bindings Function} {m : Machine}

theorem step_keptIn (kept : m.state.functions.KeptIn table) (found : ¬ (m.step limit).Missed) :
    (m.mapState (.withFunctions table)).step limit =
      (m.step limit).mapState (.withFunctions table) := by
  rcases m.step_refit with ⟨f, args, k, calls⟩ | ⟨v, k, s, rfl⟩ | same
  · obtain ⟨step, step'⟩ := calls limit
    rw [step', step]
    refine call_refit _ _ ?_ args k
    cases lookup : m.state.functions.get? f with
    | none =>
      refine absurd ⟨f, k.unwind m.state, ?_⟩ found
      rw [step, call, lookup]
      rfl
    | some fn => exact kept f fn lookup
  · exact step_print_refit _ v k
  · exact same limit _ _

theorem functions_step (limit : Nat) (m : Machine) :
    (m.step limit).state.functions = m.state.functions := by
  have kept : m.step limit = (m.step limit).mapState (.withFunctions m.state.functions) := by
    rcases m.step_refit with ⟨f, args, k, calls⟩ | ⟨v, k, s, rfl⟩ | steps
    · rw [(calls limit).1]
      exact call_refit (s := m.state) (fun _ => m.state.functions) id rfl args k
    · exact step_print_refit (s := s) (fun _ => s.functions) v k
    · have same : m.mapState (.withFunctions m.state.functions) = m := by cases m <;> rfl
      exact (congrArg (·.step limit) same).symm.trans (steps limit _ _)
  rw [kept, state_mapState]
  rfl

theorem functions_advance (limit : Nat) (m : Machine) (n : Nat) :
    (m.advance limit n).state.functions = m.state.functions := by
  induction n with
  | zero => rfl
  | succ n ih => rw [advance_succ, functions_step, ih]

/-- A run that finds all functions that it calls does not notice more. -/
theorem advance_keptIn (kept : m.state.functions.KeptIn table) (n : Nat)
    (found : ¬ (m.advance limit n).Missed) :
    (m.mapState (.withFunctions table)).advance limit n =
      (m.advance limit n).mapState (.withFunctions table) := by
  induction n with
  | zero => rfl
  | succ n ih =>
    rw [advance_succ] at found ⊢
    rw [advance_succ, ih, step_keptIn ?_ found]
    · rwa [functions_advance]
    · intro missed
      rw [step_of_isOver limit (isOver_of_missed missed)] at found
      exact found missed

theorem mapState_define (fs : List Function) (m : Machine) :
    m.mapState (·.define fs) = m.mapState (.withFunctions (m.state.functions.putAll fs)) := by
  cases m <;> rfl

theorem advance_define {fs : List Function} (new : ∀ f ∈ fs, m.state.functions.has f.name = false)
    (n : Nat) (found : ¬ (m.advance limit n).Missed) :
    (m.mapState (·.define fs)).advance limit n = (m.advance limit n).mapState (·.define fs) := by
  have kept : m.state.functions.KeptIn (m.state.functions.putAll fs) :=
    Bindings.KeptIn.new (fun _ _ => id) new
  rw [mapState_define, mapState_define, functions_advance, advance_keptIn kept n found]

theorem run_append {ss : List Stmt} {s t : State} {n : Nat} (ss' : List Stmt) (k : Cont .done)
    (ended : (run ss .halt s).advance limit n = finished t) :
    ∃ j, (run (ss ++ ss') k s).advance limit j = run ss' k t := by
  induction ss generalizing s n with
  | nil =>
    have same : s = t := by
      cases n with
      | zero => cases ended
      | succ n =>
        have ended : (finished s).advance limit n = finished t := ended
        rw [advance_of_isOver limit rfl] at ended
        cases ended
        rfl
    exact ⟨0, by rw [same]; rfl⟩
  | cons st ss ih =>
    have alike : Over (.rest ss .halt) (.rest (ss ++ ss') k)
        (stepStmt limit st (.rest ss .halt) s) (stepStmt limit st (.rest (ss ++ ss') k) s) :=
      .stepStmt st s .base
    cases n with
    | zero => cases ended
    | succ n =>
      have ended : (stepStmt limit st (.rest ss .halt) s).advance limit n = finished t := ended
      rcases alike.advance limit n with ⟨j, le, back⟩ | alike
      · generalize first : (stepStmt limit st (.rest ss .halt) s).advance limit j = m at back
        generalize first' : (stepStmt limit st (.rest (ss ++ ss') k) s).advance limit j = m' at back
        cases back with
        | done s' =>
          obtain ⟨i, rfl⟩ := Nat.exists_eq_add_of_le le
          rw [advance_add, first] at ended
          cases i with
          | zero => cases ended
          | succ i =>
            obtain ⟨i', rest⟩ := ih (n := i) (s := s') ended
            refine ⟨j + (i' + 1) + 1, ?_⟩
            show (stepStmt limit st (.rest (ss ++ ss') k) s).advance limit (j + (i' + 1)) = _
            rw [advance_add, first']
            exact rest
      · rw [ended] at alike
        cases alike

end Machine

instance : Append Program := ⟨fun p q => ⟨p.functions ++ q.functions, p.main ++ q.main⟩⟩

theorem State.define_append (s : State) (fs gs : List Function) :
    s.define (fs ++ gs) = (s.define fs).define gs := by
  rw [define, List.foldl_append]
  rfl

/--
Running programs one after the other is running them as one. If the first comes to an end and none
of the names that the second defines is one of a function then, the run of both as one program comes
to where the second sets out, and from there on it is the same run: what it prints, how and whether
it ends, the variables and the lists. Behind it stands that functions under new names change nothing
about an expression, statements or a program that does not fail for want of a function.
-/
theorem runs_compose (limit : Nat) (s : State) (p q : Program) :
    (∀ n t, (s.start p).advance limit n = .finished t →
      (∀ f ∈ q.functions, t.functions.has f.name = false) →
      ∃ k, ∀ i, (s.start (p ++ q)).advance limit (k + i) = (t.start q).advance limit i) ∧
    ∀ fs : List Function, (∀ f ∈ fs, s.functions.has f.name = false) →
      (∀ e n, ¬ ((s.evaluate e).advance limit n).Missed →
        ((s.define fs).evaluate e).advance limit n =
          ((s.evaluate e).advance limit n).mapState (·.define fs)) ∧
      (∀ ss n, ¬ ((Machine.run ss .halt s).advance limit n).Missed →
        (Machine.run ss .halt (s.define fs)).advance limit n =
          ((Machine.run ss .halt s).advance limit n).mapState (·.define fs)) ∧
      ∀ n, ¬ ((s.start p).advance limit n).Missed →
        ((s.define fs).start p).advance limit n = ((s.start p).advance limit n).mapState fun t =>
          { t with functions := ((s.define fs).define p.functions).functions } := by
  refine ⟨fun n t ended new => ?_, fun fs new => ⟨fun e n => ?_, fun ss n => ?_, fun n found => ?_⟩⟩
  · have functions : t.functions = (s.define p.functions).functions := by
      have same := (s.start p).functions_advance limit n
      rwa [ended] at same
    have kept : (s.start p).state.functions.KeptIn (t.functions.putAll q.functions) := by
      show (s.define p.functions).functions.KeptIn _
      rw [← functions]
      exact Bindings.KeptIn.new (fun _ _ => id) new
    have found : ¬ ((s.start p).advance limit n).Missed := by
      rw [ended]
      exact nofun
    have alone := Machine.advance_keptIn kept n found
    rw [ended] at alone
    obtain ⟨k, joined⟩ := Machine.run_append q.main .halt alone
    have start : s.start (p ++ q) = .run (p.main ++ q.main) .halt
        ((s.define p.functions).withFunctions (t.functions.putAll q.functions)) := by
      rw [functions]
      exact congrArg (Machine.run _ .halt) (s.define_append p.functions q.functions)
    refine ⟨k, fun i => ?_⟩
    rw [Machine.advance_add, start, joined]
    rfl
  · exact Machine.advance_define (m := s.evaluate e) new n
  · exact Machine.advance_define (m := .run ss .halt s) new n
  · have kept : s.functions.KeptIn (s.define fs).functions :=
      Bindings.KeptIn.new (fun _ _ => id) new
    exact Machine.advance_keptIn (m := s.start p) (kept.putAll p.functions) n found

namespace Program

/-- `fun f(x) = { print(x); } x + 1; { a = f(1); }` -/
def counted : Program where
  functions := [⟨"f", ["x"], [.print (.var "x")],
    .binary (.arith .add) (.var "x") (.literal (.int 1))⟩]
  main := [.assign "a" (.call "f" [.literal (.int 1)])]

/-- `fun g(x) = { a = f(x); } a; { g(a); h(); }` -/
def countedOn : Program where
  functions := [⟨"g", ["x"], [.assign "a" (.call "f" [.var "x"])], .var "a"⟩]
  main := [.call "g" [.var "a"], .call "h" []]

theorem runs_compose_counted :
    let s := (State.fresh .unlimited).define counted.functions
    let more := s.define countedOn.functions
    let e := Expr.call "f" [.literal (.int 1)]
    (∃ t, (s.start counted).advance 9 30 = .finished t ∧
      (∀ f ∈ countedOn.functions, t.functions.has f.name = false) ∧
      ∃ k, ∀ i, (s.start (counted ++ countedOn)).advance 9 (k + i) =
        (t.start countedOn).advance 9 i) ∧
    (∀ f ∈ countedOn.functions, s.functions.has f.name = false) ∧
    (¬ ((s.evaluate e).advance 9 30).Missed ∧ (more.evaluate e).advance 9 30 =
      ((s.evaluate e).advance 9 30).mapState (·.define countedOn.functions)) ∧
    (¬ ((Machine.run counted.main .halt s).advance 9 30).Missed ∧
      (Machine.run counted.main .halt more).advance 9 30 =
        ((Machine.run counted.main .halt s).advance 9 30).mapState
          (·.define countedOn.functions)) ∧
    ¬ ((s.start counted).advance 9 30).Missed ∧ (more.start counted).advance 9 30 =
      ((s.start counted).advance 9 30).mapState fun t =>
        { t with functions := (more.define counted.functions).functions } := by
  intro s more e
  have new : ∀ f ∈ countedOn.functions, s.functions.has f.name = false := by decide
  have compose := runs_compose 9 s counted countedOn
  obtain ⟨evaluated, executed, ran⟩ := compose.2 countedOn.functions new
  refine ⟨⟨_, rfl, ?_, compose.1 30 _ rfl ?_⟩, new, ⟨?_, evaluated _ 30 ?_⟩,
    ⟨?_, executed _ 30 ?_⟩, ?_, ran 30 ?_⟩
  · decide
  · decide
  all_goals exact nofun

end Program

end Scriptlet
