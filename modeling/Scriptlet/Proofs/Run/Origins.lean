import Scriptlet.Proofs.Run.Elements

namespace Scriptlet

namespace Bindings

variable {α : Type} {b : Bindings α} {x : Name} {a c : α}

def values (b : Bindings α) : List α := b.entries.map (·.2)

theorem mem_values_of_get? (found : b.get? x = some a) : a ∈ b.values := by
  obtain ⟨before, after, same, _⟩ := List.lookup_eq_some_iff.mp found
  rw [values, same]
  simp

theorem mem_of_mem_replaceEntry {entries : List (Name × α)}
    (mem : c ∈ (replaceEntry x a entries).map (·.2)) : c = a ∨ c ∈ entries.map (·.2) := by
  induction entries with
  | nil => cases mem
  | cons e entries ih =>
    rw [replaceEntry] at mem
    split at mem
    · rcases List.mem_cons.mp mem with same | mem
      · exact .inl same
      · exact .inr (List.mem_cons_of_mem _ mem)
    · rcases List.mem_cons.mp mem with same | mem
      · exact .inr (same ▸ List.mem_cons_self)
      · exact (ih mem).imp_right (List.mem_cons_of_mem _)

theorem mem_values_put (mem : c ∈ (b.put x a).values) : c = a ∨ c ∈ b.values := by
  unfold put at mem
  split at mem
  · exact mem_of_mem_replaceEntry mem
  · exact List.mem_cons.mp mem

theorem mem_values_ofPairs {ps : List (Name × α)} (mem : c ∈ (ofPairs ps).values) :
    c ∈ ps.map (·.2) := by
  induction ps using List.reverseRecOn with
  | nil => cases mem
  | append_singleton ps p ih =>
    rw [ofPairs, List.foldl_concat, ← ofPairs] at mem
    rw [List.map_append, List.mem_append]
    rcases mem_values_put mem with same | mem
    · exact .inr (same ▸ List.mem_cons_self)
    · exact .inl (ih mem)

end Bindings

namespace State

variable {s : State} {u v : Value}

def values (s : State) : List Value :=
  s.globals.values ++ s.calls.frames.flatMap Bindings.values

theorem mem_values : u ∈ s.values ↔ u ∈ s.globals.values ∨ ∃ f ∈ s.calls.frames, u ∈ f.values := by
  rw [values, List.mem_append, List.mem_flatMap]

theorem mem_values_of_lookup {x : Name} (found : s.lookup x = .ok v) : v ∈ s.values := by
  have bound : s.lookup? x = some v := by
    unfold lookup at found
    split at found
    · cases found
      assumption
    · cases found
  rw [mem_values]
  unfold lookup? at bound
  split at bound
  · exact .inl (Bindings.mem_values_of_get? bound)
  · rename_i frame callers frames
    cases here : frame.get? x with
    | none =>
      rw [here] at bound
      exact .inl (Bindings.mem_values_of_get? bound)
    | some w =>
      rw [here] at bound
      cases bound
      exact .inr ⟨frame, frames ▸ List.mem_cons_self, Bindings.mem_values_of_get? here⟩

theorem mem_values_assign {x : Name} (mem : u ∈ (s.assign x v).values) : u = v ∨ u ∈ s.values := by
  have globals (mem : u ∈ { s with globals := s.globals.put x v }.values) :
      u = v ∨ u ∈ s.values := by
    rw [mem_values] at mem ⊢
    rcases mem with mem | mem
    · exact (Bindings.mem_values_put mem).imp_right .inl
    · exact .inr (.inr mem)
  rcases Nat.eq_zero_or_pos s.depth with outside | inside
  · rw [assign_of_depth_eq_zero outside] at mem
    exact globals mem
  rcases assign_of_depth_pos inside x v with ⟨_, same⟩ | ⟨frame, callers, frames, same⟩
  · rw [same] at mem
    exact globals mem
  · rw [same] at mem
    rw [mem_values, frames]
    rcases mem_values.mp mem with mem | ⟨f, listed, mem⟩
    · exact .inr (.inl mem)
    have listed : f ∈ frame.put x v :: s.calls.frames.tail := listed
    rw [frames] at listed
    rcases List.mem_cons.mp listed with rfl | listed
    · exact (Bindings.mem_values_put mem).imp_right fun mem => .inr ⟨_, List.mem_cons_self, mem⟩
    · exact .inr (.inr ⟨f, List.mem_cons_of_mem _ listed, mem⟩)

theorem mem_values_enter {f : Function} {args : List Value} (mem : u ∈ (s.enter f args).values) :
    u ∈ args ∨ u ∈ s.values := by
  rw [mem_values] at mem ⊢
  rcases mem with mem | ⟨g, listed, mem⟩
  · exact .inr (.inl mem)
  rcases List.mem_cons.mp listed with rfl | listed
  · obtain ⟨p, paired, rfl⟩ := List.mem_map.mp (Bindings.mem_values_ofPairs mem)
    exact .inl (List.of_mem_zip paired).2
  · exact .inr (.inr ⟨g, listed, mem⟩)

theorem mem_values_leave (mem : u ∈ s.leave.values) : u ∈ s.values := by
  rw [mem_values] at mem ⊢
  exact mem.imp_right fun ⟨f, listed, mem⟩ => ⟨f, List.mem_of_mem_tail listed, mem⟩

end State

theorem Cont.mem_values_unwind {w : Awaits} {k : Cont w} {s : State} {u : Value}
    (mem : u ∈ (k.unwind s).values) : u ∈ s.values := by
  induction k generalizing s with
  | halt => exact mem
  | leave k ih => exact State.mem_values_leave (ih mem)
  | result e k ih => exact State.mem_values_leave (ih mem)
  | _ => apply_assumption; exact mem

def Purpose.values : Purpose → List Value
  | indices target => [target]
  | _ => []

def Cont.values : {w : Awaits} → Cont w → List Value
  | _, halt => []
  | _, binaryRight _ l k => l :: k.values
  | _, next p values _ k => p.values ++ values ++ k.values
  | _, assignAt _ indices k => indices ++ k.values
  | _, unary _ k | _, binaryLeft _ _ k | _, index _ k | _, field _ k | _, leave k => k.values
  | _, print k | _, assign _ k | _, branch _ _ k | _, loop _ _ k | _, discard k => k.values
  | _, rest _ k | _, again _ _ k | _, result _ k => k.values

namespace Machine

def values : Machine → List Value
  | eval _ k s | run _ k s => k.values ++ s.values
  | gather p values _ k s => p.values ++ values ++ (k.values ++ s.values)
  | value v k s => v :: (k.values ++ s.values)
  | returned v s => v :: s.values
  | finished s | failed _ s => s.values

end Machine

theorem Number.exists_literal (n : Number) : ∃ l : Literal, n.toValue = l.value := by
  cases n with
  | int n => exact ⟨.int n, rfl⟩
  | real x => exact ⟨.real x, rfl⟩

theorem exists_literal_of_map {r : Except SemanticError Number} {u : Value}
    (result : r.map Number.toValue = .ok u) : ∃ l : Literal, u = l.value := by
  cases r with
  | error e => cases result
  | ok n =>
    cases result
    exact n.exists_literal

theorem UnaryOp.exists_literal {op : UnaryOp} {v u : Value} (applied : op.apply v = .ok u) :
    ∃ l : Literal, u = l.value := by
  unfold apply at applied
  split at applied
  · cases applied
    exact ⟨.bool _, rfl⟩
  · exact exists_literal_of_map applied
  · exact exists_literal_of_map applied
  · cases applied

def Result.Stems (ls : Lists) (a b : Value) : Result → Prop
  | value u => ∃ l : Literal, u = l.value
  | list items => ∀ u ∈ items.toList, a.Within ls u ∨ b.Within ls u

theorem Arithmetic.stems_apply {ls : Lists} {op : Arithmetic} {a b : Value} {r : Result}
    (applied : op.apply ls a b = .ok r) : r.Stems ls a b := by
  unfold apply at applied
  split at applied
  · cases applied
    exact ⟨.str _, rfl⟩
  · cases applied
    intro u mem
    rw [Sequence.toList_append, List.mem_append] at mem
    exact mem.imp .single .single
  · dsimp only at applied
    split at applied
    · split at applied
      · rename_i result _
        cases result with
        | error e => cases applied
        | ok n =>
          cases applied
          exact n.exists_literal
      · cases applied
    · cases applied

theorem BinaryOp.stems_apply {ls : Lists} {op : BinaryOp} {a b : Value} {r : Result}
    (applied : op.apply ls a b = .ok r) : r.Stems ls a b := by
  have truth {q : Except SemanticError Bool}
      (result : (q.map fun t => Result.value (.bool t)) = .ok r) : r.Stems ls a b := by
    cases q with
    | error e => cases result
    | ok t =>
      cases result
      exact ⟨.bool t, rfl⟩
  cases op with
  | orElse | andAlso =>
    simp only [apply] at applied
    split at applied
    · cases applied
      exact ⟨.bool _, rfl⟩
    · cases applied
  | compare c => exact truth applied
  | member => exact truth applied
  | cons =>
    simp only [apply] at applied
    split at applied
    · cases applied
      intro u mem
      rw [Sequence.toList_cons] at mem
      rcases List.mem_cons.mp mem with rfl | mem
      · exact .inl .refl
      · exact .inr (.single mem)
    · cases applied
  | arith op => exact op.stems_apply applied

namespace Value

variable {ls : Lists} {target u : Value}

theorem not_holds_literal (l : Literal) : ¬ l.value.Holds ls u := by
  cases l <;> exact List.not_mem_nil

theorem eq_of_within_literal {l : Literal} (within : l.value.Within ls u) : u = l.value := by
  rcases Relation.ReflTransGen.cases_head within with same | ⟨w, holds, _⟩
  · exact same.symm
  · exact absurd holds (not_holds_literal l)

theorem holds_of_step {index : Value} (found : target.step ls index = .ok u) :
    target.Holds ls u ∨ ∃ l : Literal, u = l.value := by
  obtain ⟨i, rfl, ⟨a, rfl, element⟩ | ⟨s, s', rfl, rfl⟩⟩ := step_eq_ok found
  · exact .inl (List.mem_of_getElem? (Lists.elementAt_eq_ok_iff.mp element).2)
  · exact .inr ⟨.str s', rfl⟩

theorem within_of_at {indices : List Value} (found : target.at ls indices = .ok u) :
    target.Within ls u ∨ ∃ l : Literal, u = l.value := by
  induction indices generalizing target with
  | nil =>
    cases found
    exact .inl .refl
  | cons i is ih =>
    obtain ⟨v, first, rest⟩ := at_cons_eq_ok_iff.mp found
    rcases holds_of_step first with holds | ⟨l, rfl⟩
    · exact (ih rest).imp_left (.head holds)
    · refine .inr ((ih rest).elim (fun within => ⟨l, eq_of_within_literal within⟩) id)

theorem holds_of_field {n : Int64} (found : target.field n = .ok u) : target.Holds ls u := by
  unfold field at found
  split at found
  · split at found
    · cases found
    · split at found
      · rename_i at_
        cases found
        exact List.mem_of_getElem? at_
      · cases found
  · cases found

end Value

namespace Machine

/-- Where a value comes from that the one machine has and the other had not. -/
inductive Origin (m m' : Machine) : Value → Prop
  | within {v u : Value} : v ∈ m.values → v.Within m.state.lists u → Origin m m' u
  | literal (l : Literal) : Origin m m' l.value
  | tuple {values : List Value} {k : Cont .value} {s : State} :
      m = gather .tuple values [] k s → Origin m m' (.tuple values.reverse)
  | list {items : Sequence Value} : m.Collects items →
      m'.state.lists = (m.state.lists.add items).2 →
      Origin m m' (.list (m.state.lists.add items).1)

variable {limit : Nat} {m m' : Machine} {s : State} {u : Value}

theorem Origin.kept (mem : u ∈ m.values) : m.Origin m' u := .within mem .refl

theorem Origin.of_within {v : Value} (mem : v ∈ m.values)
    (found : v.Within m.state.lists u ∨ ∃ l : Literal, u = l.value) : m.Origin m' u := by
  rcases found with within | ⟨l, rfl⟩
  · exact .within mem within
  · exact .literal l

theorem Collects.within {items : Sequence Value} (collects : m.Collects items)
    (mem : u ∈ items.toList) : ∃ v ∈ m.values, v.Within m.state.lists u := by
  cases collects with
  | values values k s =>
    rw [Sequence.toList_ofList, List.mem_reverse] at mem
    exact ⟨u, by simp [Machine.values, mem], .refl⟩
  | operands k applied =>
    rcases BinaryOp.stems_apply applied u mem with within | within
    · exact ⟨_, by simp [Machine.values, Cont.values], within⟩
    · exact ⟨_, by simp [Machine.values], within⟩

theorem mem_values_reject {w : Awaits} {e : SemanticError} {k : Cont w}
    (mem : u ∈ (reject e k s).values) : u ∈ s.values := Cont.mem_values_unwind mem

theorem mem_values_pass {r : Except SemanticError Value} {k : Cont .value}
    (mem : u ∈ (pass r k s).values) : r = .ok u ∨ u ∈ k.values ++ s.values := by
  cases r with
  | ok v =>
    rcases List.mem_cons.mp mem with rfl | mem
    · exact .inl rfl
    · exact .inr mem
  | error e => exact .inr (List.mem_append_right _ (mem_values_reject mem))

theorem mem_values_call {f : Name} {args : List Expr} {k : Cont .value}
    (mem : u ∈ (call limit f args k s).values) : u ∈ k.values ++ s.values := by
  unfold call at mem
  split at mem
  · exact List.mem_append_right _ (mem_values_reject mem)
  split at mem
  · exact List.mem_append_right _ (mem_values_reject mem)
  split at mem
  · exact List.mem_append_right _ (mem_values_reject mem)
  · exact mem

theorem mem_values_onCondition {v : Value} {k : Cont .done} {go : Bool → Machine}
    (goes : ∀ b, (go b).values = k.values ++ s.values) (mem : u ∈ (onCondition v k s go).values) :
    u ∈ k.values ++ s.values := by
  unfold onCondition at mem
  split at mem
  · rwa [goes] at mem
  · exact List.mem_append_right _ (mem_values_reject mem)

theorem origin_use {p : Purpose} {values : List Value} {k : Cont p.awaits}
    (mem : u ∈ (use p values.reverse k s).values) :
    (gather p values [] k s).Origin (use p values.reverse k s) u := by
  have rest (mem : u ∈ k.values ++ s.values) : u ∈ (gather p values [] k s).values :=
    List.mem_append_right _ mem
  cases p with
  | list =>
    rcases List.mem_cons.mp mem with rfl | mem
    · exact .list (.values values k s) rfl
    · exact .kept (rest mem)
  | tuple =>
    rcases List.mem_cons.mp mem with rfl | mem
    · exact .tuple rfl
    · exact .kept (rest mem)
  | indices target =>
    rcases mem_values_pass mem with found | mem
    · exact .of_within (v := target) (by simp [Machine.values, Purpose.values])
        (Value.within_of_at found)
    · exact .kept (rest mem)
  | arguments f =>
    refine .kept ?_
    rcases List.mem_append.mp mem with mem | mem
    · exact rest (List.mem_append_left _ mem)
    · rcases State.mem_values_enter mem with mem | mem
      · simp only [Machine.values, List.mem_append]
        exact .inl (.inr (List.mem_reverse.mp mem))
      · exact rest (List.mem_append_right _ mem)
  | positions x e =>
    refine .kept ?_
    simp only [use, Machine.values, Cont.values, List.mem_append, List.mem_reverse] at mem ⊢
    tauto

theorem origin_stepValue {v : Value} {k : Cont .value} (mem : u ∈ (stepValue v k s).values) :
    (value v k s).Origin (stepValue v k s) u := by
  have rest (mem : u ∈ k.values ++ s.values) : u ∈ (value v k s).values :=
    List.mem_cons_of_mem _ mem
  cases k with
  | halt => exact .kept mem
  | unary op k =>
    rcases mem_values_pass mem with applied | mem
    · obtain ⟨l, rfl⟩ := UnaryOp.exists_literal applied
      exact .literal l
    · exact .kept (rest mem)
  | binaryLeft op r k => exact .kept mem
  | binaryRight op l k =>
    have back (mem : u ∈ k.values ++ s.values) : u ∈ (value v (.binaryRight op l k) s).values :=
      rest (List.mem_cons_of_mem _ mem)
    simp only [stepValue] at mem ⊢
    split at mem
    · rename_i r applied
      have stems := BinaryOp.stems_apply applied
      cases r with
      | value w =>
        obtain ⟨literal, rfl⟩ := stems
        rcases List.mem_cons.mp mem with rfl | mem
        · exact .literal literal
        · exact .kept (back mem)
      | list items =>
        rcases List.mem_cons.mp mem with rfl | mem
        · exact .list (.operands k applied) rfl
        · exact .kept (back mem)
    · exact .kept (back (List.mem_append_right _ (mem_values_reject mem)))
  | index indices k => exact .kept mem
  | field n k =>
    rcases mem_values_pass mem with found | mem
    · exact .within List.mem_cons_self (.single (Value.holds_of_field found))
    · exact .kept (rest mem)
  | next p values es k =>
    refine .kept ?_
    simp only [stepValue, Machine.values, Cont.values, List.mem_append, List.mem_cons] at mem ⊢
    tauto
  | leave k =>
    refine .kept ?_
    rcases List.mem_cons.mp mem with rfl | mem
    · exact List.mem_cons_self
    · rcases List.mem_append.mp mem with mem | mem
      · exact rest (List.mem_append_left _ mem)
      · exact rest (List.mem_append_right _ (State.mem_values_leave mem))
  | print k =>
    have kept : (s.print (v.display s.lists)).1.values = s.values := rfl
    refine .kept (rest ?_)
    simp only [stepValue] at mem
    split at mem
    · rename_i printed
      rw [printed] at kept
      rwa [Machine.values, kept] at mem
    · rename_i printed
      rw [printed] at kept
      exact List.mem_append_right _ (kept ▸ Cont.mem_values_unwind mem)
  | assign x k =>
    refine .kept ?_
    rcases List.mem_append.mp mem with mem | mem
    · exact rest (List.mem_append_left _ mem)
    · rcases State.mem_values_assign mem with rfl | mem
      · exact List.mem_cons_self
      · exact rest (List.mem_append_right _ mem)
  | assignAt x indices k =>
    refine .kept (rest ?_)
    simp only [stepValue] at mem
    split at mem
    · rw [Cont.values, List.append_assoc]
      exact List.mem_append_right _ mem
    · exact List.mem_append_right _ (mem_values_reject mem)
  | branch body other k => exact .kept (rest (mem_values_onCondition (fun _ => rfl) mem))
  | loop cond body k =>
    refine .kept (rest (mem_values_onCondition (fun b => ?_) mem))
    cases b <;> rfl
  | discard k => exact .kept (rest mem)

theorem origin_step (mem : u ∈ (m.step limit).values) : m.Origin (m.step limit) u := by
  cases m with
  | eval e k s =>
    cases e with
    | literal l =>
      rcases List.mem_cons.mp mem with rfl | mem
      · exact .literal l
      · exact .kept mem
    | var x =>
      rcases mem_values_pass mem with found | mem
      · exact .kept (List.mem_append_right _ (State.mem_values_of_lookup found))
      · exact .kept mem
    | call f args => exact .kept (mem_values_call mem)
    | _ => exact .kept mem
  | gather p values es k s =>
    cases es with
    | nil => exact origin_use mem
    | cons e es =>
      refine .kept ?_
      simp only [step, Machine.values, Cont.values, List.mem_append] at mem ⊢
      tauto
  | value v k s => exact origin_stepValue mem
  | run ss k s =>
    cases ss with
    | nil => cases k <;> exact .kept mem
    | cons st ss =>
      cases st with
      | call f args => exact .kept (mem_values_call mem)
      | _ => exact .kept mem
  | returned v s => exact .kept mem
  | finished s => exact .kept mem
  | failed f s => exact .kept mem

theorem mem_values_of_state (mem : u ∈ m.state.values) : u ∈ m.values := by
  cases m with
  | eval e k s | run ss k s => exact List.mem_append_right _ mem
  | gather p values es k s => exact List.mem_append_right _ (List.mem_append_right _ mem)
  | value v k s => exact List.mem_cons_of_mem _ (List.mem_append_right _ mem)
  | returned v s => exact List.mem_cons_of_mem _ mem
  | finished s => exact mem
  | failed f s => exact mem

theorem Replaces.mem_values {x : Name} {a : ListId} {i : Nat} {v : Value}
    (replaces : m.Replaces x a i v m') : v ∈ m.values := by
  cases replaces with
  | intro k found => exact List.mem_cons_self

variable {among : Program → Prop}

theorem Move.origin (move : m.Move limit among m') (mem : u ∈ m'.values) : m.Origin m' u := by
  cases move with
  | step => exact origin_step mem
  | start => exact .kept (mem_values_of_state mem)

theorem Move.rewrites (move : m.Move limit among m') : m.Rewrites m' := by
  cases move with
  | step => exact m.step_rewrites limit
  | start => exact .kept rfl

end Machine

end Scriptlet
