import Scriptlet.Run.Bindings
import Scriptlet.Value

namespace Scriptlet

abbrev Frame := Bindings Value

structure Calls where
  frames : List Frame
  depth : Nat
  depth_eq : depth = frames.length

namespace Calls

def empty : Calls := ⟨[], 0, rfl⟩

instance : Inhabited Calls := ⟨empty⟩

def enter (c : Calls) (frame : Frame) : Calls :=
  ⟨frame :: c.frames, c.depth + 1, congrArg (· + 1) c.depth_eq⟩

def leave (c : Calls) : Calls :=
  ⟨c.frames.tail, c.depth - 1, by rw [c.depth_eq, List.length_tail]⟩

theorem eq_of_frames_eq {c d : Calls} (h : c.frames = d.frames) : c = d := by
  obtain ⟨frames, depth, hc⟩ := c
  obtain ⟨frames', depth', hd⟩ := d
  cases h
  cases hc
  cases hd
  rfl

theorem leave_enter (c : Calls) (frame : Frame) : (c.enter frame).leave = c :=
  eq_of_frames_eq rfl

end Calls

end Scriptlet
