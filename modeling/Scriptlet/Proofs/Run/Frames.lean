import Scriptlet.Proofs.Run.Span

namespace Scriptlet

namespace State

def current (s : State) : Frame := s.calls.frames.headD s.globals

structure SameFrames (s t : State) : Prop where
  calls : t.calls = s.calls
  globals (x : Name) : t.globals.has x = s.globals.has x

/--
The variables of the outer calls are as they were, no variable is gone, and inside of a call no
global variable is new.
-/
structure KeepsFrames (s t : State) : Prop where
  depth : t.depth = s.depth
  outer : t.calls.frames.tail = s.calls.frames.tail
  current (x : Name) : s.current.has x → t.current.has x
  globals (x : Name) : s.globals.has x → t.globals.has x
  inside : 0 < s.depth → ∀ x, t.globals.has x → s.globals.has x

theorem sameFrames_lasting (s : State) : Lasting .value s.SameFrames where
  congr calls globals same :=
    ⟨calls.trans same.calls, fun x => by rw [globals, same.globals x]⟩
  put v known same :=
    ⟨same.calls, fun x => (Bindings.has_put_of_has v known x).trans (same.globals x)⟩
  assign _ _ impossible := by cases impossible

theorem current_of_depth_eq_zero {s : State} (outside : s.depth = 0) : s.current = s.globals := by
  have none := List.eq_nil_of_length_eq_zero (s.depth_eq_length.symm.trans outside)
  rw [current, none, List.headD_nil]

theorem current_of_frames {s : State} {frame : Frame} {callers : List Frame}
    (top : s.calls.frames = frame :: callers) : s.current = frame := by
  rw [current, top, List.headD_cons]

theorem KeepsFrames.put {s t : State} {x : Name} (v : Value) (known : t.globals.has x)
    (kept : s.KeepsFrames t) : s.KeepsFrames { t with globals := t.globals.put x v } where
  depth := kept.depth
  outer := kept.outer
  current y bound := by
    have before := kept.current y bound
    unfold State.current at before ⊢
    cases frames : t.calls.frames with
    | nil =>
      rw [frames] at before
      simp only [List.headD_nil] at before ⊢
      exact Bindings.has_put_mono x v before
    | cons frame callers =>
      rw [frames] at before
      exact before
  globals y bound := Bindings.has_put_mono x v (kept.globals y bound)
  inside pos y bound :=
    kept.inside pos y ((Bindings.has_put_of_has v known y).symm.trans bound)

theorem KeepsFrames.assign {s t : State} (x : Name) (v : Value) (kept : s.KeepsFrames t) :
    s.KeepsFrames (t.assign x v) := by
  rcases Nat.eq_zero_or_pos t.depth with outside | inside
  · rw [assign_of_depth_eq_zero outside]
    refine ⟨kept.depth, kept.outer, fun y bound => ?_, fun y bound => ?_, fun pos => ?_⟩
    · have before := kept.current y bound
      rw [current_of_depth_eq_zero outside] at before
      rw [current_of_depth_eq_zero (by exact outside)]
      exact Bindings.has_put_mono x v before
    · exact Bindings.has_put_mono x v (kept.globals y bound)
    · exact absurd (kept.depth.symm.trans outside) (Nat.ne_of_gt pos)
  · rcases assign_of_depth_pos inside x v with ⟨known, same⟩ | ⟨frame, callers, top, same⟩
    · rw [same]
      exact kept.put v known
    · have depth := kept.depth ▸ t.depth_assign x v
      rw [same] at depth ⊢
      refine ⟨depth, ?_, fun y bound => ?_, kept.globals, kept.inside⟩
      · exact kept.outer
      · have before := kept.current y bound
        rw [current_of_frames top] at before
        change (frame.put x v).has y = true
        exact Bindings.has_put_mono x v before

theorem keepsFrames_lasting (s : State) (w : Awaits) : Lasting w s.KeepsFrames where
  congr {t t'} calls globals kept := by
    have current : t'.current = t.current := by rw [State.current, calls, globals, State.current]
    refine ⟨(depth_congr calls).trans kept.depth, calls ▸ kept.outer, ?_, ?_, ?_⟩
    · intro x bound
      rw [current]
      exact kept.current x bound
    · intro x bound
      rw [globals]
      exact kept.globals x bound
    · intro pos x bound
      rw [globals] at bound
      exact kept.inside pos x bound
  put v known kept := kept.put v known
  assign x v _ kept := kept.assign x v

theorem SameFrames.refl (s : State) : s.SameFrames s := ⟨rfl, fun _ => rfl⟩

theorem KeepsFrames.refl (s : State) : s.KeepsFrames s :=
  ⟨rfl, rfl, fun _ => id, fun _ => id, fun _ _ => id⟩

theorem depth_le_lasting (limit : Nat) (w : Awaits) : Lasting w fun s => s.depth ≤ limit where
  congr calls _ bound := depth_congr calls ▸ bound
  put _ _ bound := bound
  assign x v _ bound := by
    rw [depth_assign]
    exact bound

end State

theorem Cont.Below.depth_le {limit : Nat} {w₀ w : Awaits} {k₀ : Cont w₀} {k : Cont w} {s : State}
    (h : k₀.Below limit (fun s => s.depth ≤ limit) k s) : s.depth ≤ limit := by
  induction h with
  | base bound => exact bound
  | leave _ bound _ _ => exact bound
  | result _ bound _ _ => exact bound
  | _ => assumption

namespace Machine

variable {limit : Nat}

theorem Inside.depth_le {w : Awaits} {m : Machine}
    (h : m.Inside limit (.halt : Cont w) fun s => s.depth ≤ limit) : m.state.depth ≤ limit := by
  cases m with
  | eval e k s => exact Cont.Below.depth_le h
  | gather p values es k s => exact Cont.Below.depth_le h.2
  | value v k s => exact Cont.Below.depth_le h
  | run ss k s => exact Cont.Below.depth_le h
  | failed f s =>
    obtain ⟨s', same, bound⟩ := h
    have unwound : (Cont.halt : Cont w).unwind s' = s' := by cases w <;> rfl
    exact (same.trans unwound) ▸ bound
  | returned v s => exact h.elim
  | finished s => exact h.elim

theorem Inside.depth_advance_le {w : Awaits} {m : Machine}
    (h : m.Inside limit (.halt : Cont w) fun s => s.depth ≤ limit) (n : Nat) :
    (m.advance limit n).state.depth ≤ limit := by
  rcases h.advance_halt (State.depth_le_lasting limit w) n with inside | ⟨_, bound⟩
  · exact inside.depth_le
  · exact bound

end Machine

/--
Frame discipline, whatever comes of the run. (a) An expression that is evaluated in front of any
continuation. (b) A statement that is executed in front of any continuation. (c) A program.
(d) Every moment of a run.
-/
theorem frame_discipline (limit : Nat) (s : State) :
    (∀ e k, (Machine.eval e k s).Ensures limit k s.SameFrames) ∧
    (∀ e n, ((s.evaluate e).advance limit n).isOver →
      s.SameFrames ((s.evaluate e).advance limit n).state) ∧
    (∀ st k, (Machine.stepStmt limit st k s).Ensures limit k s.KeepsFrames) ∧
    (∀ ss n, ((Machine.run ss .halt s).advance limit n).isOver →
      s.KeepsFrames ((Machine.run ss .halt s).advance limit n).state) ∧
    (∀ p n, s.depth = 0 → ((s.start p).advance limit n).isOver →
      ((s.start p).advance limit n).state.depth = 0) ∧
    (s.depth ≤ limit →
      (∀ e n, ((s.evaluate e).advance limit n).state.depth ≤ limit) ∧
      (∀ ss n, ((Machine.run ss .halt s).advance limit n).state.depth ≤ limit) ∧
      ∀ p n, ((s.start p).advance limit n).state.depth ≤ limit) := by
  have lasting := s.keepsFrames_lasting .done
  refine ⟨fun e k => ?_, fun e n ended => ?_, fun st k => ?_, fun ss n ended => ?_,
    fun p n outside ended => ?_, fun bound => ⟨?_, ?_, ?_⟩⟩
  · exact Machine.Inside.ensures s.sameFrames_lasting (.base (.refl s))
  · have started : (s.evaluate e).Inside limit (.halt : Cont .value) s.SameFrames :=
      .base (.refl s)
    exact started.state_of_isOver s.sameFrames_lasting n ended
  · exact (Machine.Inside.stepStmt st (.base (.refl s))).ensures lasting
  · have started : (Machine.run ss .halt s).Inside limit (.halt : Cont .done) s.KeepsFrames :=
      .base (.refl s)
    exact started.state_of_isOver lasting n ended
  · have started : (s.start p).Inside limit (.halt : Cont .done)
        (s.define p.functions).KeepsFrames := .base (.refl _)
    have kept := started.state_of_isOver (State.keepsFrames_lasting _ .done) n ended
    exact kept.depth.trans outside
  · exact fun e => Machine.Inside.depth_advance_le (w := .value) (.base bound)
  · exact fun ss => Machine.Inside.depth_advance_le (w := .done) (.base bound)
  · exact fun p => Machine.Inside.depth_advance_le (w := .done) (.base bound)

/-- `fun f(a) = { b = a + "x"; } b; { y = f(1); }`, which fails inside of the call. -/
def Program.failingCall : Program where
  functions := [⟨"f", ["a"], [.assign "b" (.binary (.arith .add) (.var "a") (.literal (.str "x")))],
    .var "b"⟩]
  main := [.assign "y" (.call "f" [.literal (.int 1)])]

theorem frame_discipline_failingCall :
    let s := State.fresh .unlimited
    let t := s.define Program.failingCall.functions
    let call := Expr.call "f" [.literal (.int 1)]
    (s.depth = 0 ∧ ((s.start Program.failingCall).advance 50 30).isOver ∧
      ((s.start Program.failingCall).advance 50 30).state.depth = 0) ∧
    (((t.evaluate call).advance 50 30).isOver ∧
      t.SameFrames ((t.evaluate call).advance 50 30).state) ∧
    (((Machine.run Program.failingCall.main .halt t).advance 50 30).isOver ∧
      t.KeepsFrames ((Machine.run Program.failingCall.main .halt t).advance 50 30).state) ∧
    t.depth ≤ 1 ∧ ∀ n, ((t.evaluate call).advance 1 n).state.depth ≤ 1 := by
  refine ⟨⟨rfl, by decide, ?_⟩, ⟨by decide, ?_⟩, ⟨by decide, ?_⟩, by decide, ?_⟩
  · exact (frame_discipline 50 _).2.2.2.2.1 _ 30 rfl (by decide)
  · exact (frame_discipline 50 _).2.1 _ 30 (by decide)
  · exact (frame_discipline 50 _).2.2.2.1 _ 30 (by decide)
  · exact ((frame_discipline 1 _).2.2.2.2.2 (by decide)).1 _

end Scriptlet
