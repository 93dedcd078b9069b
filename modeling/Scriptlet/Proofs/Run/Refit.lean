import Scriptlet.Proofs.Run.Span

namespace Scriptlet

namespace State

variable (F : Bindings Function → Bindings Function) (O : Output → Output)

def refit (s : State) : State := { s with functions := F s.functions, output := O s.output }

theorem assign_refit (s : State) (x : Name) (v : Value) :
    (s.refit F O).assign x v = (s.assign x v).refit F O := by
  obtain ⟨functions, globals, ⟨frames, depth, count⟩, lists, output⟩ := s
  cases frames with
  | nil => rfl
  | cons frame callers =>
    by_cases global : (!frame.has x && globals.has x) = true
    · have assigned (functions output) :
          assign ⟨functions, globals, ⟨frame :: callers, depth, count⟩, lists, output⟩ x v =
            ⟨functions, globals.put x v, ⟨frame :: callers, depth, count⟩, lists, output⟩ :=
        if_pos global
      rw [refit, assigned, assigned]
      rfl
    · have assigned (functions output) :
          assign ⟨functions, globals, ⟨frame :: callers, depth, count⟩, lists, output⟩ x v =
            ⟨functions, globals, ⟨frame.put x v :: callers, depth, count⟩, lists, output⟩ :=
        if_neg global
      rw [refit, assigned, assigned]
      rfl

theorem print_refit (s : State) (line : String) :
    (s.refit F id).print line = ((s.print line).1.refit F id, (s.print line).2) := rfl

end State

theorem Output.bytes_write (o : Output) (line : String) :
    ∃ more, (o.write line).1.bytes = o.bytes ++ more := by
  obtain ⟨bytes, room⟩ := o
  cases room with
  | none => exact ⟨_, rfl⟩
  | some n =>
    rw [Output.write]
    split <;> exact ⟨_, rfl⟩

theorem Cont.unwind_eq {w : Awaits} (k : Cont w) (s : State) :
    ∃ calls, k.unwind s = { s with calls } := by
  induction k generalizing s with
  | halt => exact ⟨s.calls, rfl⟩
  | leave k ih => exact ih s.leave
  | result e k ih => exact ih s.leave
  | _ => apply_assumption

theorem Cont.output_unwind {w : Awaits} (k : Cont w) (s : State) :
    (k.unwind s).output = s.output := by
  obtain ⟨calls, same⟩ := k.unwind_eq s
  rw [same]

namespace Machine

theorem state_mapState (g : State → State) (m : Machine) : (m.mapState g).state = g m.state := by
  cases m <;> rfl

theorem mapState_congr {g h : State → State} {m : Machine} (same : g m.state = h m.state) :
    m.mapState g = m.mapState h := by
  cases m <;> exact congrArg _ same

variable (F : Bindings Function → Bindings Function) (O : Output → Output) {limit : Nat} {s : State}

theorem unwind_refit {w : Awaits} (k : Cont w) (s : State) :
    k.unwind (s.refit F O) = (k.unwind s).refit F O := by
  induction k generalizing s with
  | halt => rfl
  | leave k ih => exact ih s.leave
  | result e k ih => exact ih s.leave
  | _ => apply_assumption

theorem reject_refit {w : Awaits} (e : SemanticError) (k : Cont w) :
    reject e k (s.refit F O) = (reject e k s).mapState (State.refit F O) :=
  congrArg (failed (.semantic e)) (unwind_refit F O k s)

theorem pass_refit (r : Except SemanticError Value) (k : Cont .value) :
    pass r k (s.refit F O) = (pass r k s).mapState (State.refit F O) := by
  cases r with
  | ok v => rfl
  | error e => exact reject_refit F O e k

theorem call_refit {f : Name} (same : (F s.functions).get? f = s.functions.get? f)
    (args : List Expr) (k : Cont .value) :
    call limit f args k (s.refit F O) = (call limit f args k s).mapState (State.refit F O) := by
  have found : (s.refit F O).functions.get? f = s.functions.get? f := same
  have depth : (s.refit F O).depth = s.depth := rfl
  simp only [call, found, depth]
  split
  · exact reject_refit F O _ k
  split
  · exact reject_refit F O _ k
  split
  · exact reject_refit F O _ k
  · rfl

theorem use_refit {p : Purpose} (values : List Value) (k : Cont p.awaits) :
    use p values k (s.refit F O) = (use p values k s).mapState (State.refit F O) := by
  cases p with
  | indices target => exact pass_refit F O _ k
  | _ => rfl

theorem onCondition_refit (v : Value) (k : Cont .done) {go go' : Bool → Machine}
    (goes : ∀ b, go' b = (go b).mapState (State.refit F O)) :
    onCondition v k (s.refit F O) go' = (onCondition v k s go).mapState (State.refit F O) := by
  unfold onCondition
  split
  · exact goes _
  · exact reject_refit F O _ k

theorem stepValue_refit (v : Value) {k : Cont .value} (quiet : ∀ k', k ≠ .print k') :
    stepValue v k (s.refit F O) = (stepValue v k s).mapState (State.refit F O) := by
  cases k with
  | unary op k => exact pass_refit F O _ k
  | binaryRight op l k =>
    have lists : (s.refit F O).lists = s.lists := rfl
    simp only [stepValue, lists]
    split
    · rfl
    · exact reject_refit F O _ k
  | field n k => exact pass_refit F O _ k
  | print k => exact absurd rfl (quiet k)
  | assign x k => exact congrArg (run [] k) (State.assign_refit F O s x v)
  | assignAt x indices k =>
    have place : (s.refit F O).place? x indices = s.place? x indices := rfl
    simp only [stepValue, place]
    split
    · rfl
    · exact reject_refit F O _ k
  | branch body other k => exact onCondition_refit F O v k fun _ => rfl
  | loop cond body k =>
    refine onCondition_refit F O v k fun b => ?_
    cases b <;> rfl
  | _ => rfl

/-- A step makes a call or prints, or it goes the same way whatever the functions and the output. -/
theorem step_refit (m : Machine) :
    (∃ f args k, ∀ limit, m.step limit = call limit f args k m.state ∧
      ∀ F O, (m.mapState (State.refit F O)).step limit =
        call limit f args k (m.state.refit F O)) ∨
    (∃ v k s, m = value v (.print k) s) ∨
    ∀ limit F O, (m.mapState (State.refit F O)).step limit =
      (m.step limit).mapState (State.refit F O) := by
  cases m with
  | eval e k s =>
    cases e with
    | call f args => exact .inl ⟨f, args, k, fun _ => ⟨rfl, fun _ _ => rfl⟩⟩
    | var x => exact .inr (.inr fun _ F O => pass_refit F O (s.lookup x) k)
    | _ => exact .inr (.inr fun _ _ _ => rfl)
  | gather p values es k s =>
    cases es with
    | nil => exact .inr (.inr fun _ F O => use_refit F O _ k)
    | cons e es => exact .inr (.inr fun _ _ _ => rfl)
  | value v k s =>
    by_cases prints : ∃ k', k = .print k'
    · obtain ⟨k', rfl⟩ := prints
      exact .inr (.inl ⟨v, k', s, rfl⟩)
    · exact .inr (.inr fun _ F O => stepValue_refit F O v fun k' same => prints ⟨k', same⟩)
  | run ss k s =>
    cases ss with
    | nil => exact .inr (.inr fun _ _ _ => by cases k <;> rfl)
    | cons st ss =>
      cases st with
      | call f args => exact .inl ⟨f, args, _, fun _ => ⟨rfl, fun _ _ => rfl⟩⟩
      | _ => exact .inr (.inr fun _ _ _ => rfl)
  | _ => exact .inr (.inr fun _ _ _ => rfl)

theorem step_print {s' : State} (v : Value) (k : Cont .done)
    (printed : s.print (v.display s.lists) = (s', true)) :
    (value v (.print k) s).step limit = run [] k s' := by
  simp only [step, stepValue, printed]

theorem step_print_cut {s' : State} (v : Value) (k : Cont .done)
    (printed : s.print (v.display s.lists) = (s', false)) :
    (value v (.print k) s).step limit = failed .output (k.unwind s') := by
  simp only [step, stepValue, printed]

theorem step_print_refit (v : Value) (k : Cont .done) :
    (value v (.print k) (s.refit F id)).step limit =
      ((value v (.print k) s).step limit).mapState (State.refit F id) := by
  have refitted := s.print_refit F (v.display s.lists)
  rcases printed : s.print (v.display s.lists) with ⟨s', all⟩
  rw [printed] at refitted
  cases all with
  | true =>
    rw [step_print v k printed, step_print v k refitted]
    rfl
  | false =>
    rw [step_print_cut v k printed, step_print_cut v k refitted, unwind_refit]
    rfl

theorem output_step (limit : Nat) (m : Machine) :
    (m.step limit).state.output = m.state.output ∨
      ∃ v k s, m = value v (.print k) s ∧
        (m.step limit).state.output = (s.output.write (v.display s.lists ++ "\n")).1 := by
  have own : m.mapState (State.refit id fun _ => m.state.output) = m := by cases m <;> rfl
  rcases m.step_refit with ⟨f, args, k, calls⟩ | ⟨v, k, s, rfl⟩ | commutes
  · left
    have same := (calls limit).2 id fun _ => m.state.output
    rw [own, call_refit id (fun _ => m.state.output) rfl] at same
    rw [same, state_mapState]
    rfl
  · refine .inr ⟨v, k, s, rfl, ?_⟩
    have written : (s.print (v.display s.lists)).1.output =
        (s.output.write (v.display s.lists ++ "\n")).1 := rfl
    rcases printed : s.print (v.display s.lists) with ⟨s', all⟩
    rw [printed] at written
    cases all with
    | true => rwa [step_print v k printed]
    | false =>
      rw [step_print_cut v k printed]
      exact (k.output_unwind s').trans written
  · left
    have same := commutes limit id fun _ => m.state.output
    rw [own] at same
    rw [same, state_mapState]
    rfl

theorem bytes_advance (limit : Nat) (m : Machine) {i j : Nat} (le : i ≤ j) :
    ∃ more, (m.advance limit j).state.output.bytes =
      (m.advance limit i).state.output.bytes ++ more := by
  induction j, le using Nat.le_induction with
  | base => exact ⟨.empty, ByteArray.append_empty.symm⟩
  | succ j _ ih =>
    obtain ⟨before, eq⟩ := ih
    rw [advance_succ]
    rcases (m.advance limit j).output_step limit with same | ⟨v, k, s, here, written⟩
    · exact ⟨before, by rw [same, eq]⟩
    · obtain ⟨more, eq'⟩ := s.output.bytes_write (v.display s.lists ++ "\n")
      rw [here] at eq
      change s.output.bytes = _ at eq
      exact ⟨before ++ more, by rw [written, eq', eq, ByteArray.append_assoc]⟩

end Machine

end Scriptlet
