import Mathlib
import Scriptlet.Run.State

namespace Scriptlet

theorem Bindings.has_put {α : Type} (b : Bindings α) (x y : Name) (a : α) :
    (b.put x a).has y = (decide (y = x) || b.has y) := by
  simp only [Bindings.has, Bindings.get?_put]
  by_cases same : y = x
  · simp only [same, ↓reduceIte, Option.isSome_some, decide_true, Bool.true_or]
  · simp only [same, ↓reduceIte, decide_false, Bool.false_or]

theorem Bindings.has_put_of_has {α : Type} {b : Bindings α} {x : Name} (a : α)
    (bound : b.has x) (y : Name) : (b.put x a).has y = b.has y := by
  rw [Bindings.has_put]
  by_cases same : y = x
  · rw [same, bound, Bool.or_true]
  · simp only [same, decide_false, Bool.false_or]

theorem Bindings.has_put_mono {α : Type} {b : Bindings α} (x : Name) (a : α) {y : Name}
    (bound : b.has y) : (b.put x a).has y := by
  rw [Bindings.has_put, bound, Bool.or_true]

namespace State

theorem depth_congr {s t : State} (calls : t.calls = s.calls) : t.depth = s.depth :=
  congrArg Calls.depth calls

theorem depth_eq_length (s : State) : s.depth = s.calls.frames.length := s.calls.depth_eq

@[simp] theorem depth_leave (s : State) : s.leave.depth = s.depth - 1 := rfl

@[simp] theorem leave_enter (s : State) (f : Function) (args : List Value) :
    (s.enter f args).leave = s :=
  congrArg (fun calls => { s with calls }) (Calls.leave_enter _ _)

@[simp] theorem calls_accept (s : State) (r : Result) : (s.accept r).2.calls = s.calls := rfl

@[simp] theorem globals_accept (s : State) (r : Result) : (s.accept r).2.globals = s.globals := rfl

@[simp] theorem calls_print (s : State) (line : String) : (s.print line).1.calls = s.calls := rfl

@[simp] theorem globals_print (s : State) (line : String) : (s.print line).1.globals = s.globals :=
  rfl

@[simp] theorem calls_write (s : State) (place : Option (ListId × Nat)) (v : Value) :
    (s.write place v).calls = s.calls := rfl

@[simp] theorem globals_write (s : State) (place : Option (ListId × Nat)) (v : Value) :
    (s.write place v).globals = s.globals := rfl

theorem assign_of_depth_eq_zero {s : State} (outside : s.depth = 0) (x : Name) (v : Value) :
    s.assign x v = { s with globals := s.globals.put x v } := by
  obtain ⟨functions, globals, ⟨frames, depth, same⟩, lists, output⟩ := s
  have none : frames = [] := List.eq_nil_of_length_eq_zero (same.symm.trans outside)
  subst none
  rfl

/-- Inside a call an assignment is to a global variable that exists, or to one of the call. -/
theorem assign_of_depth_pos {s : State} (inside : 0 < s.depth) (x : Name) (v : Value) :
    s.globals.has x ∧ s.assign x v = { s with globals := s.globals.put x v } ∨
    ∃ frame callers, s.calls.frames = frame :: callers ∧
      s.assign x v = { s with calls := s.calls.leave.enter (frame.put x v) } := by
  obtain ⟨functions, globals, ⟨frames, depth, same⟩, lists, output⟩ := s
  cases frames with
  | nil => exact absurd inside (by rw [depth_eq_length]; exact Nat.lt_irrefl 0)
  | cons frame callers =>
    simp only [assign]
    split
    · rename_i global
      exact .inl ⟨(Bool.and_eq_true_iff.mp global).2, rfl⟩
    · refine .inr ⟨frame, callers, rfl, ?_⟩
      have calls : (⟨frame.put x v :: callers, depth, same⟩ : Calls) =
          (Calls.leave ⟨frame :: callers, depth, same⟩).enter (frame.put x v) :=
        Calls.eq_of_frames_eq rfl
      rw [calls]

theorem depth_assign (s : State) (x : Name) (v : Value) : (s.assign x v).depth = s.depth := by
  rcases Nat.eq_zero_or_pos s.depth with outside | inside
  · rw [assign_of_depth_eq_zero outside]
    rfl
  · rcases assign_of_depth_pos inside x v with ⟨_, same⟩ | ⟨_, _, _, same⟩
    · rw [same]
      rfl
    · rw [same]
      exact Nat.succ_pred_eq_of_pos inside

end State

end Scriptlet
