import Scriptlet.Proofs.Run.CallFree
import Scriptlet.Proofs.Values.Twins

namespace Scriptlet

namespace Expr

inductive Mentions (x : Name) : Expr → Prop
  | here : Mentions x (.var x)
  | part {e p : Expr} : p ∈ e.parts → Mentions x p → Mentions x e

def TwinVariables (r : ListId → ListId → Prop) (look look' : Name → Except SemanticError Value)
    (e : Expr) : Prop :=
  ∀ x, e.Mentions x → Likewise (Value.Twins r) (look x) (look' x)

/--
The variables of the expression have the same values in both states, and the lists inside these are
in both tables, with the same elements.
-/
structure SameInputs (e : Expr) (s t : State) : Prop where
  values : ∀ x, e.Mentions x → t.lookup x = s.lookup x
  lists : ∀ x v a, e.Mentions x → s.lookup x = .ok v → v.Within s.lists (.list a) →
    a.index < s.lists.size ∧ a.index < t.lists.size ∧ t.lists.get a = s.lists.get a

namespace TwinVariables

variable {r r' : ListId → ListId → Prop} {look look' : Name → Except SemanticError Value}
  {e p : Expr}

theorem part (twins : e.TwinVariables r look look') (part : p ∈ e.parts) :
    p.TwinVariables r look look' := fun x mentions => twins x (.part part mentions)

theorem mono (twins : e.TwinVariables r look look') (more : ∀ a b, r a b → r' a b) :
    e.TwinVariables r' look look' := fun x mentions =>
  (twins x mentions).mono fun _ _ => .mono more

end TwinVariables

end Expr

namespace Outcome

variable {α β : Type} {ls ls' : Lists} {p : Pairing ls ls'}

/-- The new lists can be paired as well, so that the results are twins or the same error. -/
def Twin (p : Pairing ls ls') (r : (ListId → ListId → Prop) → α → α → Prop) (o o' : Outcome α) :
    Prop :=
  ∃ q : Pairing o.lists o'.lists, p.Extends q ∧ Likewise (r q.rel) o.result o'.result

variable {r : (ListId → ListId → Prop) → α → α → Prop}
  {r' : (ListId → ListId → Prop) → β → β → Prop}

theorem Twin.of_likewise {a a' : Except SemanticError α} (alike : Likewise (r p.rel) a a') :
    Twin p r ⟨a, ls⟩ ⟨a', ls'⟩ := ⟨p, .refl p, alike⟩

theorem Twin.stored {a a' : Except SemanticError Result}
    (alike : Likewise (Result.Twins p.rel) a a') :
    Twin p Value.Twins (stored a ls) (stored a' ls') := by
  cases alike with
  | error e => exact .of_likewise (.error e)
  | ok twins =>
    cases twins with
    | value twins => exact .of_likewise (.ok twins)
    | list all => exact ⟨p.add all, p.extends_add all, .ok (.list (.inr ⟨rfl, rfl⟩))⟩

theorem Twin.andThen {o o' : Outcome α} {next next' : α → Lists → Outcome β}
    (first : Twin p r o o')
    (rest : ∀ a a' ls ls' (q : Pairing ls ls'), p.Extends q → r q.rel a a' →
      Twin q r' (next a ls) (next' a' ls')) :
    Twin p r' (o.andThen next) (o'.andThen next') := by
  obtain ⟨q, further, alike⟩ := first
  obtain ⟨a, ls⟩ := o
  obtain ⟨a', ls'⟩ := o'
  cases alike with
  | ok related =>
    obtain ⟨u, further', alike⟩ := rest _ _ _ _ q further related
    exact ⟨u, further.trans further', alike⟩
  | error e => exact ⟨q, further, .error e⟩

end Outcome

namespace Expr

variable {look look' : Name → Except SemanticError Value}

mutual

theorem outcome_twin : (e : Expr) → {ls ls' : Lists} → (p : Pairing ls ls') →
    e.TwinVariables p.rel look look' →
    Outcome.Twin p Value.Twins (outcome look e ls) (outcome look' e ls')
  | literal l, _, _, _, _ => .of_likewise (.ok (.literal l))
  | list items, _, _, p, twins =>
    .andThen (outcomes_twin items p fun _ => twins.part) fun _ _ _ _ q _ all => by
      refine .stored (.ok (.list ?_))
      rw [Sequence.toList_ofList, Sequence.toList_ofList]
      exact all
  | tuple items, _, _, p, twins =>
    .andThen (outcomes_twin items p fun _ => twins.part) fun _ _ _ _ _ _ all =>
      .of_likewise (.ok (.of_forall₂ all))
  | var x, _, _, _, twins => .of_likewise (twins x .here)
  | unary op e, _, _, p, twins =>
    .andThen (outcome_twin e p (twins.part List.mem_cons_self)) fun _ _ _ _ _ _ operand =>
      .of_likewise (.unary op operand)
  | binary op l r, _, _, p, twins =>
    .andThen (outcome_twin l p (twins.part List.mem_cons_self)) fun _ _ _ _ q further left =>
      have twins := (twins.part (List.mem_cons_of_mem _ List.mem_cons_self)).mono further.kept
      .andThen (outcome_twin r q twins) fun _ _ _ _ _ further right =>
        .stored (.binary op (left.mono further.kept) right)
  | index target indices, _, _, p, twins =>
    .andThen (outcome_twin target p (twins.part List.mem_cons_self)) fun _ _ _ _ q further target =>
      have twins := fun e mem => (twins.part (List.mem_cons_of_mem _ mem)).mono further.kept
      .andThen (outcomes_twin indices q twins) fun _ _ _ _ _ further all =>
        .of_likewise (.indexed (target.mono further.kept) all)
  | field n target, _, _, p, twins =>
    .andThen (outcome_twin target p (twins.part List.mem_cons_self)) fun _ _ _ _ _ _ operand =>
      .of_likewise (.field n operand)
  | call f args, _, _, _, _ => .of_likewise (.error _)

theorem outcomes_twin : (es : List Expr) → {ls ls' : Lists} → (p : Pairing ls ls') →
    (∀ e ∈ es, e.TwinVariables p.rel look look') →
    Outcome.Twin p (fun r => List.Forall₂ (Value.Twins r)) (outcomes look es ls)
      (outcomes look' es ls')
  | [], _, _, _, _ => .of_likewise (.ok .nil)
  | e :: es, _, _, p, twins =>
    .andThen (outcome_twin e p (twins e List.mem_cons_self)) fun _ _ _ _ q further first =>
      have twins := fun e mem => (twins e (List.mem_cons_of_mem _ mem)).mono further.kept
      .andThen (outcomes_twin es q twins) fun _ _ _ _ _ further all =>
        .of_likewise (.ok (.cons (first.mono further.kept) all))

end

variable {e : Expr} {s t : State}

theorem SameInputs.of_growTo {ls : Lists}
    (listed : ∀ x v, e.Mentions x → s.lookup x = .ok v → v.Listed s.lists)
    (grow : s.lists.GrowTo ls) : e.SameInputs s { s with lists := ls } where
  values _ _ := rfl
  lists x v a mentions bound within :=
    have inside := listed x v mentions bound a within
    ⟨inside, grow a inside⟩

theorem SameInputs.outcome_twin (same : e.SameInputs s t) :
    ∃ q : Pairing (outcome s.lookup e s.lists).lists (outcome t.lookup e t.lists).lists,
      Likewise (Value.Twins q.rel) (outcome s.lookup e s.lists).result
        (outcome t.lookup e t.lists).result ∧
      ∀ a b, q.rel a b → a = b ∨ s.lists.size ≤ a.index ∧ t.lists.size ≤ b.index := by
  have lists : ∀ v a, (∃ x, e.Mentions x ∧ s.lookup x = .ok v) → v.Within s.lists (.list a) →
      a.index < s.lists.size ∧ a.index < t.lists.size ∧ t.lists.get a = s.lists.get a := by
    rintro v a ⟨x, mentions, bound⟩
    exact same.lists x v a mentions bound
  have twins : e.TwinVariables (Pairing.ofSame _ lists).rel s.lookup t.lookup := by
    intro x mentions
    rw [same.values x mentions]
    cases bound : s.lookup x with
    | error e => exact .error e
    | ok v => exact .ok (Pairing.twins_ofSame lists ⟨x, mentions, bound⟩)
  obtain ⟨q, further, alike⟩ := Expr.outcome_twin e (Pairing.ofSame _ lists) twins
  exact ⟨q, alike, fun a b related => (further.new a b related).imp_left And.left⟩

end Expr

/--
An expression without calls comes to a value or an error, the same in front of every continuation,
and leaves all as it is but for new lists. A list that its root makes is new: it is inside no value
that was there. The value, up to the identities of new lists, or the error depends only on the
variables that occur in the expression and on the lists inside their values. So a second evaluation
right after the first gives a value that is printed alike, or the same error.
-/
theorem pure_without_calls {e : Expr} (callFree : e.Obeys .noCall) (limit : Nat) (s : State) :
    ∃ r ls,
      (∀ k, (Machine.eval e k s).Reaches limit (.pass r k { s with lists := ls })) ∧
      s.lists.GrowTo ls ∧
      (e.Builds → ∀ a, r = .ok (.list a) → s.lists.size ≤ a.index ∧ ls.size = a.index + 1 ∧
        ∀ v : Value, v.Listed s.lists → ¬v.Within ls (.list a)) ∧
      (∀ limit' t, e.SameInputs s t → ∃ r' ls', ∃ q : Pairing ls ls',
        (∀ k, (Machine.eval e k t).Reaches limit' (.pass r' k { t with lists := ls' })) ∧
        Likewise (Value.Twins q.rel) r r' ∧
        ∀ a b, q.rel a b → a = b ∨ s.lists.size ≤ a.index ∧ t.lists.size ≤ b.index) ∧
      ((∀ x v, e.Mentions x → s.lookup x = .ok v → v.Listed s.lists) → ∃ r' ls',
        (∀ k, (Machine.eval e k { s with lists := ls }).Reaches limit
          (.pass r' k { s with lists := ls' })) ∧
        Likewise (fun v w => v.display ls = w.display ls' ∧ v.display ls' = w.display ls')
          r r') := by
  have grow := Expr.growTo_outcome s.lookup e s.lists
  refine ⟨_, _, (Expr.comesTo_outcome limit e callFree s).pass, grow, fun builds a made => ?_,
    fun limit' t same => ?_, fun listed => ?_⟩
  · obtain ⟨new, last⟩ := Expr.new_of_builds builds (congrArg (Outcome.mk · _) made)
    refine ⟨new, last, fun v listed within => ?_⟩
    have old := listed a (listed.within_of_growTo grow within)
    omega
  · obtain ⟨q, alike, pairs⟩ := same.outcome_twin
    exact ⟨_, _, q, (Expr.comesTo_outcome limit' e callFree t).pass, alike, pairs⟩
  · have same := Expr.SameInputs.of_growTo listed grow
    obtain ⟨q, alike, -⟩ := same.outcome_twin
    refine ⟨_, _, (Expr.comesTo_outcome limit e callFree _).pass, alike.mono fun v w twins => ?_⟩
    have text := twins.display_eq
    exact ⟨text, (twins.listed.display_eq (Expr.growTo_outcome _ e _)).trans text⟩

/-- `a + a`, where `a` is a list: the sum is another list, and so is the same sum again. -/
theorem pure_without_calls_joinedToItself :
    let s : State := { State.fresh .unlimited with
      globals := .ofPairs [("a", .list ⟨0⟩)], lists := ⟨#[.singleton (.str "b")]⟩ }
    let e : Expr := .binary (.arith .add) (.var "a") (.var "a")
    e.Obeys .noCall ∧ ∃ ls,
      (∀ k, (Machine.eval e k s).Reaches 9 (.value (.list ⟨1⟩) k { s with lists := ls })) ∧
      s.lists.GrowTo ls ∧ ¬(Value.list ⟨0⟩).Within ls (.list ⟨1⟩) ∧ ∃ w ls',
        (∀ k, (Machine.eval e k { s with lists := ls }).Reaches 9
          (.value w k { s with lists := ls' })) ∧
        (Value.list ⟨1⟩).display ls' = w.display ls' := by
  intro s e
  have callFree : e.Obeys .noCall :=
    Expr.obeys_of (P := fun e => e = .binary (.arith .add) (.var "a") (.var "a") ∨ e = .var "a")
      (by rintro _ (rfl | rfl) f args <;> exact Expr.noConfusion)
      (by rintro _ p (rfl | rfl) part <;> simp_all [Expr.parts]) (.inl rfl)
  have listed : (Value.list ⟨0⟩).Listed s.lists := by
    intro b within
    rcases Relation.ReflTransGen.cases_head within with same | ⟨w, holds, inside⟩
    · cases same
      decide
    · cases List.mem_singleton.mp holds
      exact absurd (Value.eq_of_within_literal (l := .str "b") inside) Value.noConfusion
  obtain ⟨r, ls, runs, grow, new, -, twice⟩ := pure_without_calls callFree 9 s
  have value : r = .ok (.list ⟨1⟩) := by
    have returns : e.Returns 9 s (.list ⟨1⟩) ((s.evaluate e).advance 9 8).state := ⟨8, rfl⟩
    cases r with
    | error err => exact absurd (runs .halt) returns.not_fails
    | ok v => rw [(returns.unique (.of_reaches (runs .halt))).1]
  subst value
  refine ⟨callFree, ls, runs, grow, (new (.binary ..) ⟨1⟩ rfl).2.2 _ listed, ?_⟩
  obtain ⟨r', ls', runs', alike⟩ := twice fun x v _ bound => by
    cases List.mem_singleton.mp (State.mem_values_of_lookup bound)
    exact listed
  cases alike with
  | ok texts => exact ⟨_, ls', runs', texts.2⟩

end Scriptlet
