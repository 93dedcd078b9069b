import Scriptlet.Proofs.Run.Origins
import Scriptlet.Proofs.Values.Pieces

namespace Scriptlet

namespace Value

variable {ls ls' : Lists} {v u : Value}

def Listed (ls : Lists) (v : Value) : Prop := ∀ a, v.Within ls (.list a) → a.index < ls.size

namespace Listed

theorem within (listed : v.Listed ls) (within : v.Within ls u) : u.Listed ls :=
  fun a inside => listed a (within.trans inside)

theorem holds_of_growTo (listed : v.Listed ls) (grow : ls.GrowTo ls') (holds : v.Holds ls' u) :
    v.Holds ls u := by
  cases v with
  | list a => rwa [Holds, elements, (grow a (listed a .refl)).2] at holds
  | _ => exact holds

theorem within_of_growTo (listed : v.Listed ls) (grow : ls.GrowTo ls') (within : v.Within ls' u) :
    v.Within ls u := by
  revert listed
  induction within using Relation.ReflTransGen.head_induction_on with
  | refl => exact fun _ => .refl
  | head holds _ ih =>
    intro listed
    have first := listed.holds_of_growTo grow holds
    exact .head first (ih (listed.within (.single first)))

theorem growTo (listed : v.Listed ls) (grow : ls.GrowTo ls') : v.Listed ls' := fun a inside =>
  (grow a (listed a (listed.within_of_growTo grow inside))).1

theorem literal (l : Literal) : l.value.Listed ls := fun a within =>
  absurd (eq_of_within_literal within).symm (l.value_ne_list a)

theorem tuple {vs : List Value} (each : ∀ v ∈ vs, v.Listed ls) : (Value.tuple vs).Listed ls := by
  intro a within
  rcases Relation.ReflTransGen.cases_head within with same | ⟨w, holds, inside⟩
  · cases same
  · exact each w holds a inside

theorem set {a : ListId} (listed : v.Listed ls) (inside : a.index < ls.size) (new : u.Listed ls)
    (n : Nat) : v.Listed (ls.set a n u) := by
  intro b within
  rw [Lists.size_set]
  revert listed
  induction within using Relation.ReflTransGen.head_induction_on with
  | refl => exact fun listed => listed b .refl
  | @head v w holds _ ih =>
    intro listed
    refine ih ?_
    cases v with
    | list c =>
      rw [Holds, elements, Lists.toList_get_set inside] at holds
      split at holds
      · rename_i same
        rcases List.mem_or_eq_of_mem_set holds with old | rfl
        · exact listed.within (.single (same ▸ old))
        · exact new
      · exact listed.within (.single holds)
    | tuple vs => exact listed.within (.single holds)
    | _ => cases holds

end Listed

def HoldsUnlisted (ls : Lists) (v u : Value) : Prop := v.Holds ls u ∧ ∀ a, v ≠ .list a

theorem HoldsUnlisted.sizeOf_lt (holds : v.HoldsUnlisted ls u) : sizeOf u < sizeOf v := by
  obtain ⟨holds, unlisted⟩ := holds
  cases v with
  | list a => exact absurd rfl (unlisted a)
  | tuple vs =>
    have smaller : sizeOf u < sizeOf vs := List.sizeOf_lt_of_mem holds
    simp only [tuple.sizeOf_spec]
    omega
  | _ => cases holds

theorem acyclic_unlisted (v : Value) : ¬ Relation.TransGen (HoldsUnlisted ls) v v := by
  have smaller {v u : Value} (path : Relation.TransGen (HoldsUnlisted ls) v u) :
      sizeOf u < sizeOf v := by
    induction path with
    | single holds => exact holds.sizeOf_lt
    | tail _ holds ih => exact holds.sizeOf_lt.trans ih
  exact fun cycle => lt_irrefl _ (smaller cycle)

/-- On the way from a value down to another there is a list, or there are tuples alone. -/
theorem list_or_unlisted (path : Relation.TransGen (Holds ls) v u) :
    (∃ a, v.Within ls (.list a) ∧ Relation.TransGen (Holds ls) (.list a) u) ∨
      Relation.TransGen (HoldsUnlisted ls) v u := by
  have step {v u : Value} (holds : v.Holds ls u) : (∃ a, v = .list a) ∨ v.HoldsUnlisted ls u := by
    by_cases list : ∃ a, v = .list a
    · exact .inl list
    · exact .inr ⟨holds, not_exists.mp list⟩
  induction path with
  | single holds =>
    rcases step holds with ⟨a, rfl⟩ | unlisted
    · exact .inl ⟨a, .refl, .single holds⟩
    · exact .inr (.single unlisted)
  | tail path holds ih =>
    rcases ih with ⟨a, before, after⟩ | unlisted
    · exact .inl ⟨a, before, after.tail holds⟩
    rcases step holds with ⟨a, rfl⟩ | unlisted'
    · exact .inl ⟨a, path.to_reflTransGen, .single holds⟩
    · exact .inr (unlisted.tail unlisted')

end Value

namespace Lists

variable {ls : Lists} {a : ListId}

/-- Every list holds only lists that were made before it, directly or inside others. -/
def Ordered (ls : Lists) : Prop :=
  ∀ a b, Relation.TransGen (Value.Holds ls) (.list a) (.list b) → b.index < a.index

theorem Ordered.listed (ordered : ls.Ordered) (listed : a.index < ls.size) :
    (Value.list a).Listed ls := by
  intro b within
  rcases Relation.reflTransGen_iff_eq_or_transGen.mp within with same | path
  · cases same
    exact listed
  · exact (ordered a b path).trans listed

theorem Ordered.acyclic (ordered : ls.Ordered) {v : Value} (listed : v.Listed ls) :
    v.Acyclic ls := by
  refine ⟨listed, fun u _ cycle => ?_⟩
  rcases Value.list_or_unlisted cycle with ⟨a, before, after⟩ | unlisted
  · exact lt_irrefl _ (ordered a a (after.trans_left before))
  · exact Value.acyclic_unlisted _ unlisted

theorem Ordered.add (ordered : ls.Ordered) {items : Sequence Value}
    (listed : ∀ u ∈ items.toList, u.Listed ls) : (ls.add items).2.Ordered := by
  have grow := ls.growTo_add items
  intro a b path
  obtain ⟨w, holds, within⟩ := Relation.TransGen.head'_iff.mp path
  rcases mem_get_add holds with ⟨old, before⟩ | ⟨rfl, new⟩
  · have whole := (ordered.listed old).within (.single before)
    exact ordered a b (.head' before (whole.within_of_growTo grow within))
  · exact listed w new b ((listed w new).within_of_growTo grow within)

end Lists

def Rule.noIndexAssignment : Rule where
  expr _ := True
  stmt st := ∀ x indices e, st ≠ .assignAt x indices e

namespace Machine

def Listed (m : Machine) : Prop := ∀ v ∈ m.values, v.Listed m.state.lists

structure Untied (m : Machine) : Prop where
  ordered : m.state.lists.Ordered
  listed : m.Listed

variable {limit : Nat} {among : Program → Prop} {m m' : Machine} {u : Value}

namespace Listed

theorem collects (listed : m.Listed) {items : Sequence Value} (collects : m.Collects items)
    (mem : u ∈ items.toList) : u.Listed m.state.lists := by
  obtain ⟨v, mem', within⟩ := collects.within mem
  exact (listed v mem').within within

theorem origin (listed : m.Listed)
    (keeps : ∀ v : Value, v.Listed m.state.lists → v.Listed m'.state.lists)
    (origin : m.Origin m' u) : u.Listed m'.state.lists := by
  cases origin with
  | within mem within => exact keeps _ ((listed _ mem).within within)
  | literal l => exact .literal l
  | @tuple values k s here =>
    refine .tuple fun v mem => keeps v (listed v ?_)
    rw [here]
    simpa [Machine.values, Purpose.values] using .inl (List.mem_reverse.mp mem)
  | @list items collects table =>
    intro a within
    rcases Relation.ReflTransGen.cases_head within with same | ⟨w, holds, inside⟩
    · cases same
      rw [table, Lists.size_add]
      exact Nat.lt_succ_self _
    · rw [table, Value.Holds, Value.elements, Lists.get_add] at holds
      exact keeps w (listed.collects collects holds) a inside

theorem move (listed : m.Listed) (move : m.Move limit among m') : m'.Listed := by
  refine fun u mem => listed.origin (fun v whole => ?_) (move.origin mem)
  cases move.rewrites with
  | kept same => rwa [same]
  | added _ same =>
    rw [same]
    exact whole.growTo (Lists.growTo_add _ _)
  | replaced replaces =>
    rw [replaces.lists]
    exact whole.set replaces.listed.1 (listed _ replaces.mem_values) _

theorem later (listed : m.Listed) (later : m.Later limit among m') : m'.Listed := by
  induction later with
  | refl => exact listed
  | tail _ last ih => exact ih.move last

end Listed

namespace Untied

theorem move (untied : m.Untied) (code : m.Obeys .noIndexAssignment)
    (move : m.Move limit among m') : m.state.lists.GrowTo m'.state.lists ∧ m'.Untied := by
  have listed := untied.listed.move move
  cases move.rewrites with
  | kept same => exact ⟨.of_eq same, same ▸ untied.ordered, listed⟩
  | added collects same =>
    refine ⟨same ▸ Lists.growTo_add _ _, ?_, listed⟩
    rw [same]
    exact untied.ordered.add fun u mem => untied.listed.collects collects mem
  | replaced replaces =>
    obtain ⟨indices, e, allowed⟩ := replaces.stmt code
    exact absurd rfl (allowed _ indices e)

end Untied

variable {output : Output}

theorem untied_fresh : (finished (.fresh output)).Untied where
  ordered a b path := by
    obtain ⟨w, holds, _⟩ := Relation.TransGen.head'_iff.mp path
    exact absurd (Lists.lt_size_of_mem _ a w holds) (Nat.not_lt_zero _)
  listed v mem := by cases mem

theorem untied_later (programs : ∀ p, among p → p.Obeys .noIndexAssignment)
    (later : Later limit among (finished (.fresh output)) m) : m.Untied := by
  induction later with
  | refl => exact untied_fresh
  | tail before last ih =>
    exact (ih.move (Obeys.later programs before .empty trivial).2 last).2

end Machine

/--
However many programs are run one after another, so long as none has an index assignment, lists hold
only lists that were made before them and keep what they hold, and a tuple or a list that is made
now can hold only lists of the table. So no list is inside itself, and nothing that is printed shows
dots. In every run, with index assignments or without, what is inside itself is so through a list:
tuples alone never lead back to where they started.
-/
theorem only_index_assignment_ties_knots {limit : Nat} {among : Program → Prop} {output : Output}
    {m : Machine} (later : Machine.Later limit among (.finished (.fresh output)) m) :
    ((∀ p, among p → p.Obeys .noIndexAssignment) →
      m.state.lists.Ordered ∧
      (∀ next, m.Move limit among next → m.state.lists.GrowTo next.state.lists) ∧
      (∀ v ∈ m.values, v.Listed m.state.lists) ∧
      (∀ a, ¬ Relation.TransGen (Value.Holds m.state.lists) (.list a) (.list a)) ∧
      ∀ v k s, m = .value v (.print k) s → ¬ v.ShowsDots s.lists) ∧
    (∀ u, Relation.TransGen (Value.Holds m.state.lists) u u →
      ∃ a, u.Within m.state.lists (.list a) ∧ (Value.list a).Within m.state.lists u) ∧
    ∀ u, ¬ Relation.TransGen (Value.HoldsUnlisted m.state.lists) u u := by
  refine ⟨fun programs => ?_, fun u cycle => ?_, Value.acyclic_unlisted⟩
  · have untied := Machine.untied_later programs later
    have code := (Machine.Obeys.later programs later .empty trivial).2
    refine ⟨untied.ordered, fun next move => (untied.move code move).1, untied.listed,
      fun a cycle => lt_irrefl _ (untied.ordered a a cycle), ?_⟩
    rintro v k s rfl
    exact (untied.ordered.acyclic (untied.listed v List.mem_cons_self)).not_showsDots
  · rcases Value.list_or_unlisted cycle with ⟨a, before, after⟩ | unlisted
    · exact ⟨a, before, after.to_reflTransGen⟩
    · exact absurd unlisted (Value.acyclic_unlisted u)

namespace Program

/-- `{ a = [1]; b = (a, [a]); print(b); }` -/
def sharing : Program where
  functions := []
  main := [.assign "a" (.list [.literal (.int 1)]),
    .assign "b" (.tuple [.var "a", .list [.var "a"]]), .print (.var "b")]

theorem only_index_assignment_ties_knots_sharing :
    let m := ((State.fresh .unlimited).start sharing).advance 9 25
    let b : Value := .tuple [.list ⟨0⟩, .list ⟨1⟩]
    Machine.Later 9 (· = sharing) (.finished (.fresh .unlimited)) m ∧
    (∀ p, p = sharing → p.Obeys .noIndexAssignment) ∧
    m.state.lists.Ordered ∧ (∃ k s, m = .value b (.print k) s) ∧ ¬ b.ShowsDots m.state.lists := by
  intro m b
  have later : Machine.Later 9 (· = sharing) (.finished (.fresh .unlimited)) m :=
    .head (.start rfl rfl) (Machine.later_advance _ 25)
  have code : ∀ p, p = sharing → p.Obeys .noIndexAssignment := by
    rintro p rfl
    refine ⟨nofun, fun st inside => ?_⟩
    have here : ∀ x indices e, st ≠ .assignAt x indices e := by
      rintro x indices e rfl
      simp [sharing] at inside
    have alone : st.parts = [] := by
      simp only [sharing, List.mem_cons, List.not_mem_nil, or_false] at inside
      rcases inside with rfl | rfl | rfl <;> rfl
    exact Stmt.obeys_of_parts_eq_nil here
      (fun e _ => Expr.obeys_of_forall (fun _ => trivial) e) alone
  obtain ⟨ordered, _, _, _, dots⟩ := (only_index_assignment_ties_knots later).1 code
  have printing : m = .value b (.print _) m.state := rfl
  exact ⟨later, code, ordered, ⟨_, _, printing⟩, dots b _ _ printing⟩

end Program

end Scriptlet
