import Scriptlet.Proofs.Run.Code
import Scriptlet.Proofs.Values.Indexing
import Scriptlet.Proofs.Values.Unfolding

namespace Scriptlet

def Lists.GrowTo (ls ls' : Lists) : Prop :=
  ∀ a : ListId, a.index < ls.size → a.index < ls'.size ∧ ls'.get a = ls.get a

namespace Lists

variable {ls ls' ls'' : Lists} {a b : ListId}

theorem size_set (n : Nat) (v : Value) : (ls.set a n v).size = ls.size := Array.size_modify

theorem get_set_self (listed : a.index < ls.size) (n : Nat) (v : Value) :
    (ls.set a n v).get a = (ls.get a).set n v := by
  have there : ls.contents[a.index]? = some ls.contents[a.index] := Array.getElem?_eq_getElem listed
  simp only [get, set, Array.getElem?_modify, there, if_true, Option.map_some, Option.getD_some]

theorem get_set_of_ne (other : b ≠ a) (n : Nat) (v : Value) : (ls.set a n v).get b = ls.get b := by
  have apart : a.index ≠ b.index := fun same => other (congrArg ListId.mk same.symm)
  simp only [get, set, Array.getElem?_modify, if_neg apart]

theorem toList_get_set (listed : a.index < ls.size) (n : Nat) (v : Value) :
    ((ls.set a n v).get b).toList =
      if b = a then (ls.get a).toList.set n v else (ls.get b).toList := by
  split
  · rename_i same
    rw [same, get_set_self listed, Sequence.toList_set]
  · rename_i other
    rw [get_set_of_ne other]

def KeepLength (ls ls' : Lists) : Prop :=
  ∀ a : ListId, a.index < ls.size → a.index < ls'.size ∧ (ls'.get a).size = (ls.get a).size

theorem KeepLength.trans (first : ls.KeepLength ls') (second : ls'.KeepLength ls'') :
    ls.KeepLength ls'' := by
  intro a listed
  obtain ⟨listed', same⟩ := first a listed
  obtain ⟨listed'', same'⟩ := second a listed'
  exact ⟨listed'', same'.trans same⟩

theorem GrowTo.refl (ls : Lists) : ls.GrowTo ls := fun _ listed => ⟨listed, rfl⟩

theorem GrowTo.trans (first : ls.GrowTo ls') (second : ls'.GrowTo ls'') : ls.GrowTo ls'' := by
  intro a listed
  obtain ⟨listed', same⟩ := first a listed
  obtain ⟨listed'', same'⟩ := second a listed'
  exact ⟨listed'', same'.trans same⟩

theorem GrowTo.size_le (grow : ls.GrowTo ls') : ls.size ≤ ls'.size := by
  by_contra fewer
  exact lt_irrefl _ (grow ⟨ls'.size⟩ (not_le.mp fewer)).1

theorem size_add (ls : Lists) (items : Sequence Value) : (ls.add items).2.size = ls.size + 1 :=
  Array.size_push _

theorem get_add (ls : Lists) (items : Sequence Value) :
    (ls.add items).2.get (ls.add items).1 = items := by
  simp only [add, get, size, Array.getElem?_push_size, Option.getD_some]

theorem growTo_add (ls : Lists) (items : Sequence Value) : ls.GrowTo (ls.add items).2 := by
  intro a listed
  refine ⟨(size_add ls items).symm ▸ Nat.lt_succ_of_lt listed, ?_⟩
  have old : a.index ≠ ls.contents.size := Nat.ne_of_lt listed
  simp only [add, get, Array.getElem?_push, old, if_false]

theorem mem_get_add {items : Sequence Value} {u : Value}
    (mem : u ∈ ((ls.add items).2.get a).toList) :
    (a.index < ls.size ∧ u ∈ (ls.get a).toList) ∨ (a = (ls.add items).1 ∧ u ∈ items.toList) := by
  by_cases old : a.index < ls.size
  · rw [(growTo_add ls items a old).2] at mem
    exact .inl ⟨old, mem⟩
  · have inside := lt_size_of_mem _ a u mem
    rw [size_add] at inside
    have new : a = (ls.add items).1 := congrArg ListId.mk (by omega : a.index = ls.size)
    rw [new, get_add] at mem
    exact .inr ⟨new, mem⟩

theorem GrowTo.of_eq (same : ls' = ls) : ls.GrowTo ls' := by
  rw [same]
  exact .refl ls

theorem GrowTo.keepLength (grow : ls.GrowTo ls') : ls.KeepLength ls' := by
  intro a listed
  obtain ⟨listed', same⟩ := grow a listed
  exact ⟨listed', congrArg Sequence.size same⟩

theorem keepLength_set (listed : a.index < ls.size) (n : Nat) (v : Value) :
    ls.KeepLength (ls.set a n v) := by
  intro b listed'
  refine ⟨(size_set n v).symm ▸ listed', ?_⟩
  by_cases same : b = a
  · rw [same, get_set_self listed, Sequence.size_set]
  · rw [get_set_of_ne same]

end Lists

namespace Value

variable {ls : Lists} {a : ListId} {n : Nat}

theorem listed_of_place? {target : Value} {indices : List Value}
    (found : target.place? ls indices = .ok (some (a, n))) :
    a.index < ls.size ∧ n < (ls.get a).size := by
  obtain ⟨path, i, -, -, ⟨v, element⟩, rfl⟩ := place?_eq_some_iff.mp found
  exact Lists.listed_of_get?_eq_some (Lists.elementAt_eq_ok_iff.mp element).2

end Value

namespace State

variable {s : State}

theorem listed_of_place? {x : Name} {indices : List Value} {a : ListId} {n : Nat}
    (found : s.place? x indices = .ok (some (a, n))) :
    a.index < s.lists.size ∧ n < (s.lists.get a).size := by
  unfold place? at found
  split at found
  · cases found
  · exact Value.listed_of_place? found

theorem lists_assign (s : State) (x : Name) (v : Value) : (s.assign x v).lists = s.lists := by
  unfold assign
  split
  · rfl
  · split <;> rfl

end State

theorem Cont.lists_unwind {w : Awaits} (k : Cont w) (s : State) :
    (k.unwind s).lists = s.lists := by
  obtain ⟨calls, same⟩ := k.unwind_eq s
  rw [same]

namespace Machine

variable {limit : Nat} {s : State}

theorem lists_reject {w : Awaits} (e : SemanticError) (k : Cont w) :
    (reject e k s).state.lists = s.lists := k.lists_unwind s

theorem lists_pass (r : Except SemanticError Value) (k : Cont .value) :
    (pass r k s).state.lists = s.lists := by
  cases r with
  | ok v => rfl
  | error e => exact lists_reject e k

theorem lists_call (f : Name) (args : List Expr) (k : Cont .value) :
    (call limit f args k s).state.lists = s.lists := by
  unfold call
  split
  · exact lists_reject _ k
  split
  · exact lists_reject _ k
  split
  · exact lists_reject _ k
  · rfl

theorem lists_onCondition (v : Value) (k : Cont .done) {go : Bool → Machine}
    (goes : ∀ b, (go b).state.lists = s.lists) : (onCondition v k s go).state.lists = s.lists := by
  unfold onCondition
  split
  · exact goes _
  · exact lists_reject _ k

/--
An index assignment to `x` comes to its end: the machine has the new value at hand and puts it where
the indices lead to.
-/
inductive Replaces (x : Name) (a : ListId) (i : Nat) (v : Value) : Machine → Machine → Prop
  | intro {s : State} {indices : List Value} (k : Cont .done) :
      s.place? x indices = .ok (some (a, i)) →
      Replaces x a i v (value v (.assignAt x indices k) s) (run [] k (s.write (some (a, i)) v))

/--
The machine has all elements of a new list at hand: the values of a list expression, or what an
operator makes of its operands.
-/
inductive Collects : Sequence Value → Machine → Prop
  | values (values : List Value) (k : Cont .value) (s : State) :
      Collects (.ofList values.reverse) (gather .list values [] k s)
  | operands {s : State} {op : BinaryOp} {l r : Value} {items : Sequence Value} (k : Cont .value) :
      op.apply s.lists l r = .ok (.list items) → Collects items (value r (.binaryRight op l k) s)

inductive Rewrites (m m' : Machine) : Prop
  | kept : m'.state.lists = m.state.lists → Rewrites m m'
  | added {items : Sequence Value} : m.Collects items →
      m'.state.lists = (m.state.lists.add items).2 → Rewrites m m'
  | replaced {x : Name} {a : ListId} {i : Nat} {v : Value} : m.Replaces x a i v m' → Rewrites m m'

theorem use_rewrites (p : Purpose) (values : List Value) (k : Cont p.awaits) :
    (gather p values [] k s).Rewrites (use p values.reverse k s) := by
  cases p with
  | list => exact .added (.values values k s) rfl
  | indices target => exact .kept (lists_pass _ k)
  | _ => exact .kept rfl

theorem stepValue_rewrites (v : Value) (k : Cont .value) :
    (value v k s).Rewrites (stepValue v k s) := by
  cases k with
  | unary op k => exact .kept (lists_pass _ k)
  | binaryRight op l k =>
    simp only [stepValue]
    split
    · rename_i r applied
      cases r with
      | value u => exact .kept rfl
      | list items => exact .added (.operands k applied) rfl
    · exact .kept (lists_reject _ k)
  | field n k => exact .kept (lists_pass _ k)
  | print k =>
    have kept : (s.print (v.display s.lists)).1.lists = s.lists := rfl
    simp only [stepValue]
    split
    · rename_i printed
      rw [printed] at kept
      exact .kept kept
    · rename_i printed
      rw [printed] at kept
      exact .kept ((k.lists_unwind _).trans kept)
  | assign x k => exact .kept (s.lists_assign x v)
  | assignAt x indices k =>
    simp only [stepValue]
    split
    · rename_i place found
      cases place with
      | none => exact .kept rfl
      | some place => exact .replaced (.intro k found)
    · exact .kept (lists_reject _ k)
  | branch body other k => exact .kept (lists_onCondition v k fun _ => rfl)
  | loop cond body k =>
    refine .kept (lists_onCondition v k fun b => ?_)
    cases b <;> rfl
  | _ => exact .kept rfl

theorem step_rewrites (limit : Nat) (m : Machine) : m.Rewrites (m.step limit) := by
  cases m with
  | eval e k s =>
    cases e with
    | var x => exact .kept (lists_pass _ k)
    | call f args => exact .kept (lists_call f args k)
    | _ => exact .kept rfl
  | gather p values es k s =>
    cases es with
    | nil => exact use_rewrites p values k
    | cons e es => exact .kept rfl
  | value v k s => exact stepValue_rewrites v k
  | run ss k s =>
    cases ss with
    | nil => cases k <;> exact .kept rfl
    | cons st ss =>
      cases st with
      | call f args => exact .kept (lists_call f args _)
      | _ => exact .kept rfl
  | _ => exact .kept rfl

theorem step_lists (limit : Nat) (m : Machine) :
    m.state.lists.GrowTo (m.step limit).state.lists ∨
      ∃ x a i v, m.Replaces x a i v (m.step limit) := by
  cases m.step_rewrites limit with
  | kept same => exact .inl (.of_eq same)
  | added _ same =>
    rw [same]
    exact .inl (Lists.growTo_add _ _)
  | replaced replaces => exact .inr ⟨_, _, _, _, replaces⟩

variable {among : Program → Prop} {m m' : Machine} {x : Name} {a : ListId} {i : Nat} {v : Value}

theorem replaces_step (limit : Nat) {indices : List Value} (k : Cont .done)
    (found : s.place? x indices = .ok (some (a, i))) :
    (value v (.assignAt x indices k) s).Replaces x a i v
      ((value v (.assignAt x indices k) s).step limit) := by
  have next : (value v (.assignAt x indices k) s).step limit =
      run [] k (s.write (some (a, i)) v) := by
    simp only [step, stepValue, found]
  rw [next]
  exact .intro k found

theorem Move.lists (move : m.Move limit among m') :
    m.state.lists.GrowTo m'.state.lists ∨ ∃ x a i v, m.Replaces x a i v m' := by
  cases move with
  | step => exact m.step_lists limit
  | start => exact .inl (.refl _)

namespace Replaces

theorem listed (replaces : m.Replaces x a i v m') :
    a.index < m.state.lists.size ∧ i < (m.state.lists.get a).size := by
  cases replaces with
  | intro k found => exact State.listed_of_place? found

theorem lists (replaces : m.Replaces x a i v m') : m'.state.lists = m.state.lists.set a i v := by
  cases replaces with
  | intro k found => rfl

theorem stmt {rule : Rule} (replaces : m.Replaces x a i v m') (code : m.Obeys rule) :
    ∃ indices e, rule.stmt (.assignAt x indices e) := by
  cases replaces with
  | intro k found => exact code.1

end Replaces

theorem Move.keepLength (move : m.Move limit among m') :
    m.state.lists.KeepLength m'.state.lists := by
  rcases move.lists with grow | ⟨x, a, i, v, replaces⟩
  · exact grow.keepLength
  · rw [replaces.lists]
    exact Lists.keepLength_set replaces.listed.1 i v

theorem keepLength_later (later : m.Later limit among m') :
    m.state.lists.KeepLength m'.state.lists := by
  induction later with
  | refl => exact (Lists.GrowTo.refl _).keepLength
  | tail _ last ih => exact ih.trans last.keepLength

end Machine

theorem Value.unlisted_fixed {w : Value} (unlisted : ∀ a, w ≠ .list a) (ls ls' : Lists) :
    w.elements ls' = w.elements ls ∧ (∀ index, w.step ls' index = w.step ls index) ∧
      ∀ i is, ∃ e, w.place ls' i is = .error e := by
  cases w with
  | list a => exact absurd rfl (unlisted a)
  | _ =>
    refine ⟨rfl, fun index => ?_, fun i is => ?_⟩
    · cases index <;> rfl
    · cases is <;> exact ⟨_, rfl⟩

namespace Program

/-- `{ a = [1, 2]; }` -/
def making : Program where
  functions := []
  main := [.assign "a" (.list [.literal (.int 1), .literal (.int 2)])]

/-- `{ a[1] = a; }` -/
def replacing : Program where
  functions := []
  main := [.assignAt "a" [.literal (.int 1)] (.var "a")]

end Program

end Scriptlet
