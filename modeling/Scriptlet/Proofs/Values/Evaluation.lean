import Scriptlet.Proofs.Run.Elements
import Scriptlet.Proofs.Run.Results
import Scriptlet.Proofs.Printing.ValuePhrase

namespace Scriptlet

theorem Value.Unfolds.grow {ls ls' : Lists} {v : Value} {t : Tree} (unfolds : v.Unfolds ls t)
    (grow : ls.GrowTo ls') : v.Unfolds ls' t := by
  refine unfolds.induct (motive := fun v t => v.Unfolds ls' t) ?_ ?_ ?_
  · exact fun l => .leaf l rfl
  · intro a ts listed _ ih
    obtain ⟨listed', same⟩ := grow a listed
    exact unfolds_list_iff.mpr ⟨listed', ts, rfl, same ▸ ih⟩
  · exact fun vs ts _ ih => unfolds_tuple_iff.mpr ⟨ts, rfl, ih⟩

namespace Expr

/-- In every state the expression has a value with the given tree, and no other effect. -/
def Yields (limit : Nat) (e : Expr) (t : Tree) : Prop :=
  ∀ s : State, ∃ w ls, e.Returns limit s w { s with lists := ls } ∧ s.lists.GrowTo ls ∧
    w.Unfolds ls t

namespace Yields

open Machine

variable {limit : Nat} {es : List Expr} {ts : List Tree}

theorem literal (l : Literal) : (literal l).Yields limit (.leaf l) := fun s =>
  ⟨l.value, s.lists, .of_reaches (.step (.refl _)), .refl _, .leaf l rfl⟩

theorem allReturn (yield : List.Forall₂ (Yields limit) es ts) (s : State) : ∃ ws ls,
    AllReturn limit es s ws { s with lists := ls } ∧ s.lists.GrowTo ls ∧
      List.Forall₂ (Value.Unfolds ls) ws ts := by
  induction yield generalizing s with
  | nil => exact ⟨[], s.lists, .nil, .refl _, .nil⟩
  | cons first _ ih =>
    obtain ⟨w, ls, returns, grow, unfolds⟩ := first s
    obtain ⟨ws, ls', rest, grow', unfold⟩ := ih { s with lists := ls }
    exact ⟨w :: ws, ls', .cons returns rest, grow.trans grow', .cons (unfolds.grow grow') unfold⟩

theorem list (yield : List.Forall₂ (Yields limit) es ts) :
    (Expr.list es).Yields limit (.list ts) := by
  intro s
  obtain ⟨ws, ls, all, grow, unfold⟩ := allReturn yield s
  have new := ls.growTo_add (.ofList ws)
  refine ⟨.list (ls.add (.ofList ws)).1, (ls.add (.ofList ws)).2,
    .of_reaches (.step (all.reaches .list [] .halt)), grow.trans new, ?_⟩
  refine Value.unfolds_list_iff.mpr ⟨?_, ts, rfl, ?_⟩
  · rw [Lists.size_add]
    exact Nat.lt_succ_self _
  · rw [Lists.get_add, Sequence.toList_ofList]
    exact unfold.imp fun _ _ unfolds => unfolds.grow new

theorem tuple (yield : List.Forall₂ (Yields limit) es ts) :
    (Expr.tuple es).Yields limit (.tuple ts) := by
  intro s
  obtain ⟨ws, ls, all, grow, unfold⟩ := allReturn yield s
  exact ⟨.tuple ws, ls, .of_reaches (.step (all.reaches .tuple [] .halt)), grow,
    Value.unfolds_tuple_iff.mpr ⟨ts, rfl, unfold⟩⟩

theorem negative {l l' : Literal} (result : UnaryOp.neg.apply l.value = .ok l'.value) :
    (Expr.unary .neg (.literal l)).Yields limit (.leaf l') := by
  intro s
  have negated : Machine.pass (UnaryOp.neg.apply l.value) .halt s = .value l'.value .halt s := by
    rw [result]
    rfl
  exact ⟨l'.value, s.lists, .of_reaches (.step (.step (.step (.of_eq negated)))), .refl _,
    .leaf l' rfl⟩

end Yields

end Expr

theorem neg_apply_int {n : Int64} (ne : n ≠ Int64.minValue) :
    UnaryOp.neg.apply (.int (-n)) = .ok (.int n) := by
  have low := n.le_toInt
  have high := n.toInt_lt
  have range : -(intBound : Int) ≤ n.toInt ∧ n.toInt < intBound := by
    have bound : (intBound : Int) = 2 ^ 63 := rfl
    omega
  have exact : int64? (- -n.toInt) = some n := by
    rw [Int.neg_neg, int64?, if_pos range, Int64.ofInt_toInt]
  rw [UnaryOp.apply, Number.negate, toInt_neg_of_ne ne, exactInt, exact]
  rfl

theorem neg_apply_real {x : Float} (number : x.isNaN = false) :
    UnaryOp.neg.apply (.real (-x)) = .ok (.real x) := by
  rw [UnaryOp.apply, Number.negate, Decimal.neg_neg number]
  rfl

theorem Literal.PrintsBack.yields {l : Literal} (back : l.PrintsBack) (limit : Nat) :
    l.phrase.tree.Yields limit (.leaf l) := by
  cases l with
  | bool b => exact .literal _
  | int n =>
    rw [Literal.phrase]
    split
    · exact .negative (neg_apply_int back)
    · exact .literal _
  | real x =>
    rw [Literal.phrase]
    split
    · exact .negative (neg_apply_real back.1)
    · exact .literal _
  | str s => exact .literal _

namespace Tree

theorem forall₂_yields {limit : Nat} {ts : List Tree}
    (each : ∀ t ∈ ts, t.phrase.tree.Yields limit t) :
    List.Forall₂ (Expr.Yields limit) (Phrase.treesOf (phrasesOf ts)) ts := by
  rw [phrasesOf_eq, Phrase.treesOf_eq, List.map_map, List.forall₂_map_left_iff,
    List.forall₂_same]
  exact each

theorem PrintsBack.yields {t : Tree} (back : t.PrintsBack) (limit : Nat) :
    t.phrase.tree.Yields limit t := by
  induction back with
  | leaf back => exact back.yields limit
  | list _ ih => exact .list (forall₂_yields ih)
  | tuple _ _ ih => exact .tuple (forall₂_yields ih)

end Tree

theorem Value.Unfolds.display_eq {ls ls' : Lists} {v w : Value} {t : Tree}
    (left : v.Unfolds ls t) (right : w.Unfolds ls' t) : v.display ls = w.display ls' := by
  have same : v.repr ls = w.repr ls' :=
    String.toList_injective (left.repr_eq.trans right.repr_eq.symm)
  cases left with
  | leaf l eq =>
    cases right with
    | leaf _ eq' =>
      subst eq eq'
      cases l with
      | str s => rfl
      | _ => exact same
  | list =>
    obtain ⟨b, rfl, _⟩ := right.of_list
    exact same
  | tuple =>
    obtain ⟨ws, rfl, _⟩ := right.of_tuple
    exact same

end Scriptlet
