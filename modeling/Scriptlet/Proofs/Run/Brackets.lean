import Scriptlet.Proofs.Run.Aliases
import Scriptlet.Proofs.Run.CallFree
import Scriptlet.Proofs.Run.Knots

namespace Scriptlet

namespace Value.Listed

variable {ls ls' : Lists} {v u : Value}

theorem at_growTo (listed : v.Listed ls) (grow : ls.GrowTo ls') (is : List Value) :
    v.at ls' is = v.at ls is := by
  refine at_congr ?_
  rintro a i ⟨path, rest, -, leads⟩
  rcases within_of_at leads with within | ⟨l, same⟩
  · rw [Lists.elementAt, Lists.elementAt, (grow a (listed a within)).2]
  · exact absurd same.symm (l.value_ne_list a)

end Value.Listed

def State.Listed (s : State) : Prop := ∀ v ∈ s.values, v.Listed s.lists

/-- What became of `s` in two ways differs in nothing but lists that have been made since. -/
structure State.SameSince (s t t' : State) : Prop where
  others : t' = { t with lists := t'.lists }
  lists (a : ListId) : a.index < s.lists.size →
    a.index < t.lists.size ∧ a.index < t'.lists.size ∧ t'.lists.get a = t.lists.get a

namespace Machine

variable {limit : Nat} {among : Program → Prop} {output : Output} {m : Machine}

theorem listed_fresh : (finished (.fresh output)).Listed := by
  intro v mem
  cases mem

theorem listed_later (later : Later limit among (finished (.fresh output)) m) : m.state.Listed :=
  fun v mem => listed_fresh.later later v (mem_values_of_state mem)

end Machine

namespace Expr

variable {look : Name → Except SemanticError Value} {limit : Nat} {e : Expr} {is js : List Expr}
  {s t t' : State} {u v : Value} {f : Fault} {ls ls' : Lists}

def indexed (look : Name → Except SemanticError Value) (is : List Expr) (v : Value) (ls : Lists) :
    Outcome Value :=
  (outcomes look is ls).andThen fun is ls => ⟨v.at ls is, ls⟩

theorem indexed_eq_ok_iff : indexed look is v ls = ⟨.ok u, ls'⟩ ↔
    ∃ vs, outcomes look is ls = ⟨.ok vs, ls'⟩ ∧ v.at ls' vs = .ok u := by
  rw [indexed, Outcome.andThen_eq_ok_iff]
  constructor
  · rintro ⟨vs, ls₁, indices, found⟩
    obtain ⟨leads, rfl⟩ := Outcome.mk.inj found
    exact ⟨vs, indices, leads⟩
  · rintro ⟨vs, indices, found⟩
    exact ⟨vs, ls', indices, congrArg (Outcome.mk · ls') found⟩

theorem outcomes_append_eq_ok_iff {vs : List Value} :
    outcomes look (is ++ js) ls = ⟨.ok vs, ls'⟩ ↔ ∃ us ws ls₁, vs = us ++ ws ∧
      outcomes look is ls = ⟨.ok us, ls₁⟩ ∧ outcomes look js ls₁ = ⟨.ok ws, ls'⟩ := by
  induction is generalizing vs ls ls' with
  | nil =>
    constructor
    · exact fun rest => ⟨[], vs, ls, rfl, rfl, rest⟩
    · rintro ⟨us, ws, ls₁, rfl, first, rest⟩
      cases first
      exact rest
  | cons i is ih =>
    simp only [List.cons_append, outcomes, Outcome.andThen_eq_ok_iff, ih]
    constructor
    · rintro ⟨v, ls₁, first, _, ls₂, ⟨us, ws, ls₃, rfl, middle, rest⟩, last⟩
      cases last
      exact ⟨v :: us, ws, ls₃, rfl, ⟨v, ls₁, first, us, ls₃, middle, rfl⟩, rest⟩
    · rintro ⟨_, ws, ls₁, rfl, ⟨v, ls₂, first, us, ls₃, middle, last⟩, rest⟩
      cases last
      exact ⟨v, ls₂, first, us ++ ws, ls', ⟨us, ws, ls₁, rfl, middle, rest⟩, rfl⟩

theorem indexed_append_eq_ok_iff (listed : v.Listed ls) :
    indexed look (is ++ js) v ls = ⟨.ok u, ls'⟩ ↔
      (indexed look is v ls).andThen (indexed look js) = ⟨.ok u, ls'⟩ := by
  have before {us ws : List Value} {ls₁ : Lists} (first : outcomes look is ls = ⟨.ok us, ls₁⟩)
      (second : outcomes look js ls₁ = ⟨.ok ws, ls'⟩) : v.at ls' us = v.at ls₁ us := by
    have grow := growTo_outcomes look is ls
    have grow' := growTo_outcomes look js ls₁
    rw [first] at grow
    rw [second] at grow'
    exact (listed.growTo grow).at_growTo grow' us
  simp only [Outcome.andThen_eq_ok_iff, indexed_eq_ok_iff, outcomes_append_eq_ok_iff]
  constructor
  · rintro ⟨_, ⟨us, ws, ls₁, rfl, first, second⟩, leads⟩
    obtain ⟨w, here, further⟩ := Value.at_append_eq_ok_iff.mp leads
    exact ⟨w, ls₁, ⟨us, first, (before first second).symm.trans here⟩, ws, second, further⟩
  · rintro ⟨w, ls₁, ⟨us, first, here⟩, ws, second, further⟩
    refine ⟨us ++ ws, ⟨us, ws, ls₁, rfl, first, second⟩, ?_⟩
    exact Value.at_append_eq_ok_iff.mpr ⟨w, (before first second).trans here, further⟩

theorem growTo_indexed (look : Name → Except SemanticError Value) (is : List Expr) (v : Value)
    (ls : Lists) : ls.GrowTo (indexed look is v ls).lists :=
  Outcome.growTo_andThen (growTo_outcomes look is ls) fun _ => .refl

theorem reaches_indexed (callFree : ∀ i ∈ is, i.Obeys .noCall) (v : Value) (k : Cont .value)
    (t : State) : (Machine.gather (.indices v) [] is k t).Reaches limit
      ((indexed t.lookup is v t.lists).resume k t (Machine.value · k)) := by
  have indices := reaches_outcomes limit is callFree (.indices v) [] k t
  refine Outcome.reaches_andThen indices (fun _ => rfl) fun vs ls => .of_eq ?_
  exact (Outcome.resume_value ⟨v.at ls vs, ls⟩ k t).symm

theorem Returns.index (returns : e.Returns limit s v t) (callFree : ∀ i ∈ is, i.Obeys .noCall) :
    (Expr.index e is).ComesTo limit s (indexed t.lookup is v t.lists) t := fun k =>
  .step ((returns.reaches (.index is k)).trans (.step (reaches_indexed callFree v k t)))

theorem Fails.index (fails : e.Fails limit s f t) (is : List Expr) :
    (Expr.index e is).Fails limit s f t := .step (fails.reaches (.index is .halt))

namespace ComesTo

variable {o : Outcome Value}

theorem index (comes : e.ComesTo limit s o t) (callFree : ∀ i ∈ is, i.Obeys .noCall) :
    (Expr.index e is).ComesTo limit s (o.andThen (indexed t.lookup is)) t := by
  intro k
  refine .step (Outcome.reaches_andThen (comes (.index is k)) (fun _ => rfl) fun v ls => .step ?_)
  exact reaches_indexed callFree v k { t with lists := ls }

end ComesTo

theorem Ends.target (ends : (index e is).Ends limit s) : e.Ends limit s := by
  obtain ⟨n, ended⟩ := ends
  have first : (s.evaluate (.index e is)).Reaches limit (.eval e (.index is .halt) s) :=
    .step (.refl _)
  obtain ⟨j, ended⟩ := first.isOver ended
  exact .of_first _ ended

theorem Returns.listed (returns : e.Returns limit s v t) (listed : s.Listed) :
    v.Listed t.lists := by
  have start : (s.evaluate e).Listed := listed
  exact start.later (returns.later fun _ => True) v List.mem_cons_self

theorem Returns.sameSince (returns : e.Returns limit s v t) (grow : t.lists.GrowTo ls)
    (grow' : t.lists.GrowTo ls') : s.SameSince { t with lists := ls } { t with lists := ls' } where
  others := rfl
  lists a inside := by
    have inside := (Machine.keepLength_later (returns.later fun _ => True) a inside).1
    obtain ⟨left, same⟩ := grow a inside
    obtain ⟨right, same'⟩ := grow' a inside
    exact ⟨left, right, same'.trans same.symm⟩

theorem Fails.sameSince (fails : e.Fails limit s f t) : s.SameSince t t where
  others := rfl
  lists a inside := by
    have inside := (Machine.keepLength_later (fails.later fun _ => True) a inside).1
    exact ⟨inside, inside, rfl⟩

/-- Two expressions of which one comes to a value just if the other does, and fails likewise. -/
structure Interchangeable (limit : Nat) (s : State) (one two : Expr) : Prop where
  returns (v : Value) (t : State) : one.Returns limit s v t ↔ two.Returns limit s v t
  fails : (∃ f t, one.Fails limit s f t) ↔ ∃ f t, two.Fails limit s f t
  effects (f : Fault) (t : State) (f' : Fault) (t' : State) :
    one.Fails limit s f t → two.Fails limit s f' t' → s.SameSince t t'

namespace Interchangeable

variable {one two : Expr}

theorem of_returns (first : one.Returns limit s v t) (second : two.Returns limit s v t) :
    Interchangeable limit s one two where
  returns w u := by
    constructor
    · intro returns
      obtain ⟨rfl, rfl⟩ := first.unique returns
      exact second
    · intro returns
      obtain ⟨rfl, rfl⟩ := second.unique returns
      exact first
  fails := iff_of_false (fun ⟨_, _, fails⟩ => first.not_fails fails)
    fun ⟨_, _, fails⟩ => second.not_fails fails
  effects _ _ _ _ fails := absurd fails first.not_fails

theorem of_fails {f' : Fault} (first : one.Fails limit s f t) (second : two.Fails limit s f' t')
    (same : s.SameSince t t') : Interchangeable limit s one two where
  returns _ _ := iff_of_false (fun returns => returns.not_fails first)
    fun returns => returns.not_fails second
  fails := iff_of_true ⟨f, t, first⟩ ⟨f', t', second⟩
  effects _ _ _ _ fails fails' := by
    obtain ⟨rfl, rfl⟩ := first.unique fails
    obtain ⟨rfl, rfl⟩ := second.unique fails'
    exact same

theorem of_endless (first : ¬one.Ends limit s) (second : ¬two.Ends limit s) :
    Interchangeable limit s one two where
  returns _ _ := iff_of_false (fun returns => first returns.ends) fun returns => second returns.ends
  fails := iff_of_false (fun ⟨_, _, fails⟩ => first fails.ends)
    fun ⟨_, _, fails⟩ => second fails.ends
  effects _ _ _ _ fails := absurd fails.ends first

end Interchangeable

theorem Returns.index_append (returns : e.Returns limit s v t) (listed : s.Listed)
    (callFree : ∀ i ∈ is ++ js, i.Obeys .noCall) :
    Interchangeable limit s (.index e (is ++ js)) (.index (.index e is) js) := by
  obtain ⟨here, there⟩ := List.forall_mem_append.mp callFree
  have one := returns.index callFree
  have two := (returns.index here).index there
  have same (u : Value) (ls : Lists) : indexed t.lookup (is ++ js) v t.lists = ⟨.ok u, ls⟩ ↔
      (indexed t.lookup is v t.lists).andThen (indexed t.lookup js) = ⟨.ok u, ls⟩ :=
    indexed_append_eq_ok_iff (returns.listed listed)
  have grow := growTo_indexed t.lookup (is ++ js) v t.lists
  have grow' : t.lists.GrowTo
      ((indexed t.lookup is v t.lists).andThen (indexed t.lookup js)).lists :=
    Outcome.growTo_andThen (growTo_indexed _ is v _) fun w => growTo_indexed _ js w
  generalize indexed t.lookup (is ++ js) v t.lists = o at one same grow
  generalize (indexed t.lookup is v t.lists).andThen (indexed t.lookup js) = o' at two same grow'
  obtain ⟨err | u, ls⟩ := o
  · obtain ⟨err' | u', ls'⟩ := o'
    · exact .of_fails one.fails two.fails (returns.sameSince grow grow')
    · cases (same u' ls').mpr rfl
  · rw [(same u ls).mp rfl] at two
    exact .of_returns one.returns two.returns

end Expr

/--
Brackets that follow each other may be one index node or two, whatever the target does, in all
states that runs come to: the evaluation has the same value, which is the same list if it is one,
and the same effects. If it fails as one node it fails as two, perhaps with another error.
-/
theorem brackets_collapse (limit : Nat) {s : State} (listed : s.Listed) (e : Expr)
    {is js : List Expr} (callFree : ∀ i ∈ is ++ js, i.Obeys .noCall) :
    Expr.Interchangeable limit s (.index e (is ++ js)) (.index (.index e is) js) := by
  by_cases ends : e.Ends limit s
  · rcases ends.returns_or_fails with ⟨v, t, returns⟩ | ⟨f, t, fails⟩
    · exact returns.index_append listed callFree
    · exact .of_fails (fails.index _) ((fails.index is).index js) fails.sameSince
  · exact .of_endless (fun one => ends one.target) fun two => ends two.target.target

namespace Program

/-- `fun f() = { print("f"); } [["a", "b"]]; { }` -/
def listing : Program where
  functions := [⟨"f", [], [.print (.literal (.str "f"))],
    .list [.list [.literal (.str "a"), .literal (.str "b")]]⟩]
  main := []

/-- `f()[0][1]` and `(f()[0])[1]` -/
theorem brackets_collapse_listing :
    let s := (((State.fresh .unlimited).start listing).advance 9 2).state
    let one : Expr := .index (.call "f" []) ([.literal (.int 0)] ++ [.literal (.int 1)])
    let two : Expr := .index (.index (.call "f" []) [.literal (.int 0)]) [.literal (.int 1)]
    s.Listed ∧
    (∀ i ∈ [Expr.literal (.int 0)] ++ [.literal (.int 1)], i.Obeys .noCall) ∧
    ∃ t, one.Returns 9 s (.str "b") t ∧ two.Returns 9 s (.str "b") t ∧ t.output.bytes.size = 2 := by
  intro s one two
  have later : Machine.Later 9 (· = listing) (.finished (.fresh .unlimited))
      (((State.fresh .unlimited).start listing).advance 9 2) :=
    .head (.start rfl rfl) (Machine.later_advance _ 2)
  have listed : s.Listed := Machine.listed_later later
  have callFree : ∀ i ∈ [Expr.literal (.int 0)] ++ [.literal (.int 1)], i.Obeys .noCall := by
    intro i mem
    obtain ⟨l, rfl⟩ : ∃ l, i = .literal l := by
      rcases List.mem_pair.mp mem with rfl | rfl
      · exact ⟨_, rfl⟩
      · exact ⟨_, rfl⟩
    exact Expr.obeys_of_parts_eq_nil (fun _ _ => Expr.noConfusion) rfl
  have returns : one.Returns 9 s (.str "b") ((s.evaluate one).advance 9 30).state := ⟨30, rfl⟩
  have alike := brackets_collapse 9 listed (.call "f" []) callFree
  exact ⟨listed, callFree, _, returns, (alike.returns _ _).mp returns, by decide⟩

end Program

end Scriptlet
