import Scriptlet.Proofs.Run.CallFree
import Scriptlet.Proofs.Run.Frames

namespace Scriptlet

theorem Value.mapM_position_eq_error {vs : List Value} {v : Value}
    (first : vs.find? (·.kind != .integer) = some v) :
    vs.mapM position = .error (.typeMismatch "[]" [v.kind]) := by
  induction vs with
  | nil => cases first
  | cons w vs ih =>
    rw [List.mapM_cons]
    cases w with
    | int n =>
      rw [ih first]
      rfl
    | _ =>
      cases first
      rfl

namespace State

variable {s t : State} {x : Name} {vs : List Value} {err : SemanticError}

/-- Why an assignment to an element of `x` is refused, whatever the elements and the new value. -/
def obstacle? (s : State) (x : Name) (indices : List Value) : Option SemanticError :=
  match s.lookup? x with
  | none => some (.unknownVariable x)
  | some _ => (indices.find? (·.kind != .integer)).map fun v => .typeMismatch "[]" [v.kind]

theorem exists_obstacle?_iff : (∃ err, s.obstacle? x vs = some err) ↔
    (∃ v ∈ vs, v.kind ≠ .integer) ∨ s.lookup? x = none := by
  unfold obstacle?
  split
  · rename_i unbound
    exact iff_of_true ⟨_, rfl⟩ (.inr unbound)
  · rename_i target bound
    have refused : (∃ v, vs.find? (·.kind != .integer) = some v) ↔ ∃ v ∈ vs, v.kind ≠ .integer := by
      rw [← Option.isSome_iff_exists, List.find?_isSome]
      simp only [bne_iff_ne]
    simp only [Option.map_eq_some_iff, ← refused, bound, Option.some_ne_none, or_false]
    exact ⟨fun ⟨_, v, first, _⟩ => ⟨v, first⟩, fun ⟨v, first⟩ => ⟨_, v, first, rfl⟩⟩

theorem place?_of_obstacle? (obstacle : s.obstacle? x vs = some err) :
    s.place? x vs = .error err := by
  rw [place?, lookup]
  unfold obstacle? at obstacle
  split at obstacle
  · rename_i unbound
    cases obstacle
    rw [unbound]
  · rename_i target bound
    obtain ⟨v, first, rfl⟩ := Option.map_eq_some_iff.mp obstacle
    simp only [bound, Value.place?, Value.mapM_position_eq_error first]

theorem SameFrames.isSome_lookup? (same : s.SameFrames t) (x : Name) :
    (t.lookup? x).isSome = (s.lookup? x).isSome := by
  have globals : (t.globals.get? x).isSome = (s.globals.get? x).isSome := same.globals x
  unfold lookup?
  rw [same.calls]
  split
  · exact globals
  · rename_i frame callers _
    cases frame.get? x with
    | none => exact globals
    | some v => rfl

theorem SameFrames.obstacle?_eq (same : s.SameFrames t) : t.obstacle? x vs = s.obstacle? x vs := by
  have bound := same.isSome_lookup? x
  unfold obstacle?
  cases left : s.lookup? x with
  | none =>
    rw [left, Option.isSome_none, Option.isSome_eq_false_iff, Option.isNone_iff_eq_none] at bound
    rw [bound]
  | some v =>
    rw [left, Option.isSome_some, Option.isSome_iff_exists] at bound
    obtain ⟨w, right⟩ := bound
    rw [right]

end State

theorem Expr.Returns.sameFrames {limit : Nat} {e : Expr} {s t : State} {v : Value}
    (returns : e.Returns limit s v t) : s.SameFrames t := by
  obtain ⟨n, run⟩ := returns
  have started : (s.evaluate e).Inside limit (.halt : Cont .value) s.SameFrames := .base (.refl s)
  have ended := started.state_of_isOver s.sameFrames_lasting n (by rw [run]; rfl)
  rwa [run] at ended

/--
If an index is no integer or the variable is not there once the indices are evaluated, an assignment
to an element is bound to fail. Still its right-hand side is evaluated first: the assignment fails
with the error of the right-hand side if there is one, else with its own, in the state that the
right-hand side has left; and it does not end if the right-hand side does not. Only a right-hand
side without calls leaves no trace but lists that nothing holds.
-/
theorem doomed_assignment_evaluates_right_side {limit : Nat} {s s₁ : State} {x : Name}
    {indices : List Expr} {vs : List Value} (evaluated : Expr.AllReturn limit indices s vs s₁)
    (doomed : (∃ v ∈ vs, v.kind ≠ .integer) ∨ s₁.lookup? x = none) (e : Expr) (ss : List Stmt)
    (k : Cont .done) :
    let m := Machine.run (.assignAt x indices e :: ss) k s
    ∃ err, s₁.obstacle? x vs = some err ∧
      (∀ f t, e.Fails limit s₁ f t → m.Reaches limit (.failed f (k.unwind t))) ∧
      (∀ v t, e.Returns limit s₁ v t → m.Reaches limit (.reject err k t)) ∧
      (¬e.Ends limit s₁ → ∀ n, ¬(m.advance limit n).isOver) ∧
      (e.Obeys .noCall → ∃ err' ls, m.Reaches limit (.reject err' k { s₁ with lists := ls }) ∧
        s₁.lists.GrowTo ls) := by
  intro m
  obtain ⟨err, obstacle⟩ := State.exists_obstacle?_iff.mpr doomed
  have start : m.Reaches limit (.eval e (.assignAt x vs (.rest ss k)) s₁) :=
    .step (evaluated.reaches (.positions x e) [] (.rest ss k))
  have fails : ∀ f t, e.Fails limit s₁ f t → m.Reaches limit (.failed f (k.unwind t)) :=
    fun f t fails => start.trans (fails.reaches _)
  have returns : ∀ v t, e.Returns limit s₁ v t → m.Reaches limit (.reject err k t) := by
    intro v t returns
    refine start.trans ((returns.reaches _).trans (.step (.of_eq ?_)))
    -- The right-hand side makes no variable known, so what was in the way still is.
    have place := State.place?_of_obstacle? (returns.sameFrames.obstacle?_eq.trans obstacle)
    show Machine.stepValue v (.assignAt x vs (.rest ss k)) t = _
    simp only [Machine.stepValue, place]
    rfl
  refine ⟨err, obstacle, fails, returns, fun endless n ended => ?_, fun callFree => ?_⟩
  · obtain ⟨j, ended⟩ := start.isOver ended
    exact endless (.of_first _ ended)
  · have comes := Expr.comesTo_outcome limit e callFree s₁
    have grow := Expr.growTo_outcome s₁.lookup e s₁.lists
    generalize e.outcome s₁.lookup s₁.lists = o at comes grow
    obtain ⟨err' | v, ls⟩ := o
    · exact ⟨err', ls, fails _ _ comes.fails, grow⟩
    · exact ⟨err, ls, returns _ _ comes.returns, grow⟩

namespace Program

/-- `fun f() = { print("f"); } 2; { x[0] = f(); }` -/
def doomed : Program where
  functions := [⟨"f", [], [.print (.literal (.str "f"))], .literal (.int 2)⟩]
  main := [.assignAt "x" [.literal (.int 0)] (.call "f" [])]

theorem doomed_assignment_evaluates_right_side_stringIndex :
    let s : State := { (State.fresh .unlimited).define doomed.functions with
      globals := .ofPairs [("x", .list ⟨0⟩)], lists := ⟨#[.singleton (.int 5)]⟩ }
    let m := Machine.run [.assignAt "x" [.literal (.str "a")] (.call "f" [])] .halt s
    Expr.AllReturn 9 [.literal (.str "a")] s [.str "a"] s ∧
    (∃ v ∈ [Value.str "a"], v.kind ≠ .integer) ∧
    ∃ t, m.Reaches 9 (.failed (.semantic (.typeMismatch "[]" [.string])) t) ∧
      t.output.bytes.size = s.output.bytes.size + 2 := by
  intro s m
  have evaluated : Expr.AllReturn 9 [.literal (.str "a")] s [.str "a"] s := .cons ⟨2, rfl⟩ .nil
  have refused : ∃ v ∈ [Value.str "a"], v.kind ≠ .integer := ⟨_, List.mem_cons_self, by decide⟩
  have returns : (Expr.call "f" []).Returns 9 s (.int 2)
      ((s.evaluate (.call "f" [])).advance 9 12).state := ⟨12, rfl⟩
  obtain ⟨err, obstacle, -, rejects, -⟩ := doomed_assignment_evaluates_right_side (x := "x")
    evaluated (.inl refused) (.call "f" []) [] .halt
  cases obstacle
  exact ⟨evaluated, refused, _, rejects _ _ returns, by decide⟩

theorem doomed_assignment_prints :
    let s := (State.fresh .unlimited).define doomed.functions
    let m := (Machine.run doomed.main .halt s).advance 9 20
    Expr.AllReturn 9 [.literal (.int 0)] s [.int 0] s ∧ s.lookup? "x" = none ∧
    m = .failed (.semantic (.unknownVariable "x")) m.state ∧
      m.state.output.bytes.size = s.output.bytes.size + 2 := by
  intro s m
  exact ⟨.cons ⟨2, rfl⟩ .nil, rfl, rfl, by decide⟩

end Program

end Scriptlet
