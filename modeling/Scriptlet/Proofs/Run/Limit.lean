import Scriptlet.Proofs.Run.Faults
import Scriptlet.Proofs.Run.Refit

namespace Scriptlet

namespace Machine

def Exceeded (m : Machine) : Prop := ∃ limit s, m = failed (.semantic (.callDepthExceeded limit)) s

theorem not_exceeded_of_not_callFailed {m : Machine} (h : ¬ m.CallFailed) : ¬ m.Exceeded := by
  rintro ⟨limit, s, rfl⟩
  exact h rfl

variable {low high : Nat} {s : State}

theorem call_limits (le : low ≤ high) (f : Name) (args : List Expr) (k : Cont .value) :
    call high f args k s = call low f args k s ∧ ¬ (call low f args k s).Exceeded ∨
      call low f args k s = reject (.callDepthExceeded low) k s := by
  unfold call
  split
  · exact .inl ⟨rfl, nofun⟩
  split
  · exact .inl ⟨rfl, nofun⟩
  · by_cases full : low ≤ s.depth
    · rw [if_pos full]
      exact .inr rfl
    · rw [if_neg full, if_neg (by omega)]
      exact .inl ⟨rfl, nofun⟩

theorem step_limits (le : low ≤ high) {m : Machine} (running : ¬ m.Exceeded) :
    m.step high = m.step low ∧ ¬ (m.step low).Exceeded ∨
      ∃ s, m.step low = failed (.semantic (.callDepthExceeded low)) s ∧ s.output = m.state.output := by
  rcases m.step_cases with ended | ⟨f, args, k, -, calls⟩ | ⟨next, fine, same⟩
  · rw [step_of_isOver high ended, step_of_isOver low ended]
    exact .inl ⟨rfl, running⟩
  · rw [calls, calls]
    rcases call_limits le f args k with same | exceeded
    · exact .inl same
    · exact .inr ⟨_, exceeded, k.output_unwind _⟩
  · rw [same, same]
    exact .inl ⟨rfl, not_exceeded_of_not_callFailed fine⟩

/--
Up to a call too many for the lower limit, the runs are the same. What the one had written by then
the other had written at some point too.
-/
theorem advance_limits (le : low ≤ high) {m : Machine} (running : ¬ m.Exceeded) (n : Nat) :
    m.advance high n = m.advance low n ∧ ¬ (m.advance low n).Exceeded ∨
      ∃ s, m.advance low n = failed (.semantic (.callDepthExceeded low)) s ∧
        ∃ j ≤ n, s.output = (m.advance high j).state.output := by
  induction n with
  | zero => exact .inl ⟨rfl, running⟩
  | succ n ih =>
    rw [advance_succ, advance_succ]
    rcases ih with ⟨same, running⟩ | ⟨s, failed, j, earlier, output⟩
    · rw [same]
      rcases step_limits le running with next | ⟨s, failed, output⟩
      · exact .inl next
      · exact .inr ⟨s, failed, n, Nat.le_succ n, by rw [output, same]⟩
    · rw [failed]
      exact .inr ⟨s, rfl, j, Nat.le_succ_of_le earlier, output⟩

end Machine

/--
The limit on nested calls only cuts runs short. A run that ends otherwise than by a call too many
ends in the same way, in the same state, under every higher limit. A call too many is reported with
the limit, and what was written up to it is how the output of the run under the higher limit starts.
-/
theorem call_limit_only_cuts {low high : Nat} (le : low ≤ high) (s : State) (p : Program) (n : Nat) :
    (((s.start p).advance low n).isOver → ¬ ((s.start p).advance low n).Exceeded →
      (s.start p).advance high n = (s.start p).advance low n) ∧
    ∀ limit t, (s.start p).advance low n = .failed (.semantic (.callDepthExceeded limit)) t →
      limit = low ∧ ∃ printed j, t.output.bytes = s.output.bytes ++ printed ∧
        ∀ i ≥ j, ∃ more, ((s.start p).advance high i).state.output.bytes =
          s.output.bytes ++ printed ++ more := by
  have runs := Machine.advance_limits le (m := s.start p) nofun n
  constructor
  · intro _ other
    rcases runs with same | ⟨t, exceeded, _⟩
    · exact same.1
    · exact absurd ⟨low, t, exceeded⟩ other
  · intro limit t exceeded
    rcases runs with ⟨_, other⟩ | ⟨t', exceeded', j, _, output⟩
    · exact absurd ⟨limit, t, exceeded⟩ other
    · rw [exceeded] at exceeded'
      cases exceeded'
      obtain ⟨printed, start⟩ := (s.start p).bytes_advance high (Nat.zero_le j)
      have start : t.output.bytes = s.output.bytes ++ printed := by
        rw [output, start]
        rfl
      refine ⟨rfl, printed, j, start, fun i later => ?_⟩
      rw [← start, output]
      exact (s.start p).bytes_advance high later

namespace Program

/-- `fun f(n) = { print(n); } f(n + 1); fun g(n) = { print(n); } n; { h(1); }` -/
def counting (h : Name) : Program where
  functions := [
    ⟨"f", ["n"], [.print (.var "n")],
      .call "f" [.binary (.arith .add) (.var "n") (.literal (.int 1))]⟩,
    ⟨"g", ["n"], [.print (.var "n")], .var "n"⟩]
  main := [.call h [.literal (.int 1)]]

theorem call_limit_only_cuts_counting :
    2 ≤ 3 ∧ (let m := (State.fresh .unlimited).start (counting "g")
      (m.advance 2 40).isOver ∧ ¬ (m.advance 2 40).Exceeded ∧ m.advance 3 40 = m.advance 2 40) ∧
    let m := (State.fresh .unlimited).start (counting "f")
    ∃ t, m.advance 2 40 = .failed (.semantic (.callDepthExceeded 2)) t ∧
      ∃ printed j, t.output.bytes = (State.fresh .unlimited).output.bytes ++ printed ∧
        ∀ i ≥ j, ∃ more, (m.advance 3 i).state.output.bytes =
          (State.fresh .unlimited).output.bytes ++ printed ++ more := by
  have le : 2 ≤ 3 := by decide
  have ended : (((State.fresh .unlimited).start (counting "g")).advance 2 40).isOver := by decide
  have other : ¬ (((State.fresh .unlimited).start (counting "g")).advance 2 40).Exceeded := nofun
  refine ⟨le, ⟨ended, other, (call_limit_only_cuts le _ _ 40).1 ended other⟩, _, rfl, ?_⟩
  exact ((call_limit_only_cuts le _ _ 40).2 2 _ rfl).2

end Program

end Scriptlet
