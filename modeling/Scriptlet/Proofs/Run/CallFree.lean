import Scriptlet.Proofs.Run.Origins
import Scriptlet.Proofs.Run.Results

namespace Scriptlet

def Rule.noCall : Rule where
  expr e := ∀ f args, e ≠ .call f args
  stmt _ := True

structure Outcome (α : Type) where
  result : Except SemanticError α
  lists : Lists

namespace Outcome

variable {α β : Type}

def andThen (o : Outcome α) (next : α → Lists → Outcome β) : Outcome β :=
  match o with
  | ⟨.ok a, ls⟩ => next a ls
  | ⟨.error e, ls⟩ => ⟨.error e, ls⟩

def stored (r : Except SemanticError Result) (ls : Lists) : Outcome Value :=
  match r with
  | .ok r => ⟨.ok (r.store ls).1, (r.store ls).2⟩
  | .error e => ⟨.error e, ls⟩

def resume {w : Awaits} (o : Outcome α) (k : Cont w) (s : State) (go : α → State → Machine) :
    Machine :=
  match o with
  | ⟨.ok a, ls⟩ => go a { s with lists := ls }
  | ⟨.error e, ls⟩ => .reject e k { s with lists := ls }

theorem resume_value (o : Outcome Value) (k : Cont .value) (s : State) :
    o.resume k s (Machine.value · k) = .pass o.result k { s with lists := o.lists } := by
  obtain ⟨_ | _, _⟩ := o <;> rfl

variable {limit : Nat} {w w' : Awaits} {k : Cont w} {k' : Cont w'} {s : State} {m : Machine}
  {o : Outcome α} {next : α → Lists → Outcome β} {b : β} {ls ls' : Lists}

theorem andThen_eq_ok_iff : o.andThen next = ⟨.ok b, ls⟩ ↔
    ∃ a ls', o = ⟨.ok a, ls'⟩ ∧ next a ls' = ⟨.ok b, ls⟩ := by
  obtain ⟨e | a, ls'⟩ := o
  · exact ⟨nofun, fun ⟨_, _, failed, _⟩ => nomatch failed⟩
  · refine ⟨fun same => ⟨a, ls', rfl, same⟩, ?_⟩
    rintro ⟨_, _, same, rest⟩
    cases same
    exact rest

theorem growTo_andThen (first : ls.GrowTo o.lists)
    (rest : ∀ a (ls : Lists), ls.GrowTo (next a ls).lists) :
    ls.GrowTo (o.andThen next).lists := by
  obtain ⟨e | a, ls'⟩ := o
  · exact first
  · exact first.trans (rest a ls')

theorem growTo_stored (r : Except SemanticError Result) (ls : Lists) :
    ls.GrowTo (stored r ls).lists := by
  cases r with
  | error e => exact .refl ls
  | ok r =>
    cases r with
    | value v => exact .refl ls
    | list items => exact ls.growTo_add items

theorem new_of_stored {r : Except SemanticError Result} {a : ListId}
    (unlisted : r ≠ .ok (.value (.list a)))
    (made : stored r ls = ⟨.ok (.list a), ls'⟩) : a.index = ls.size ∧ ls'.size = ls.size + 1 := by
  rcases r with e | v | items
  · cases made
  · cases made
    exact absurd rfl unlisted
  · cases made
    exact ⟨rfl, ls.size_add items⟩

theorem reaches_andThen {go : α → State → Machine} {go' : β → State → Machine}
    (first : m.Reaches limit (o.resume k s go)) (same : ∀ t, k.unwind t = k'.unwind t)
    (rest : ∀ a ls, (go a { s with lists := ls }).Reaches limit ((next a ls).resume k' s go')) :
    m.Reaches limit ((o.andThen next).resume k' s go') := by
  refine first.trans ?_
  obtain ⟨e | a, ls⟩ := o
  · have failed : (resume ⟨.error e, ls⟩ k s go : Machine) = .reject e k' { s with lists := ls } :=
      congrArg (Machine.failed _) (same _)
    rw [failed]
    exact .refl _
  · exact rest a ls

end Outcome

namespace Expr

mutual

/-- What an expression without calls comes to. A call is refused, as if there were no functions. -/
def outcome (look : Name → Except SemanticError Value) : Expr → Lists → Outcome Value
  | literal l, ls => ⟨.ok l.value, ls⟩
  | list items, ls => (outcomes look items ls).andThen fun vs => .stored (.ok (.list (.ofList vs)))
  | tuple items, ls => (outcomes look items ls).andThen fun vs => .mk (.ok (.tuple vs))
  | var x, ls => ⟨look x, ls⟩
  | unary op e, ls => (outcome look e ls).andThen fun v => .mk (op.apply v)
  | binary op l r, ls =>
    (outcome look l ls).andThen fun a ls =>
      (outcome look r ls).andThen fun b ls => .stored (op.apply ls a b) ls
  | index target indices, ls =>
    (outcome look target ls).andThen fun v ls =>
      (outcomes look indices ls).andThen fun is ls => ⟨v.at ls is, ls⟩
  | field n target, ls => (outcome look target ls).andThen fun v => .mk (v.field n)
  | call f _, ls => ⟨.error (.unknownFunction f), ls⟩

def outcomes (look : Name → Except SemanticError Value) : List Expr → Lists → Outcome (List Value)
  | [], ls => ⟨.ok [], ls⟩
  | e :: es, ls =>
    (outcome look e ls).andThen fun v ls =>
      (outcomes look es ls).andThen fun vs => .mk (.ok (v :: vs))

end

variable {look : Name → Except SemanticError Value} {limit : Nat}

mutual

theorem growTo_outcome (look : Name → Except SemanticError Value) :
    (e : Expr) → (ls : Lists) → ls.GrowTo (outcome look e ls).lists
  | literal _, ls | var _, ls | call _ _, ls => .refl ls
  | list items, ls =>
    Outcome.growTo_andThen (growTo_outcomes look items ls) fun _ => Outcome.growTo_stored _
  | tuple items, ls => Outcome.growTo_andThen (growTo_outcomes look items ls) fun _ => .refl
  | unary _ e, ls | field _ e, ls =>
    Outcome.growTo_andThen (growTo_outcome look e ls) fun _ => .refl
  | binary _ l r, ls =>
    Outcome.growTo_andThen (growTo_outcome look l ls) fun _ ls =>
      Outcome.growTo_andThen (growTo_outcome look r ls) fun _ _ => Outcome.growTo_stored _ _
  | index target indices, ls =>
    Outcome.growTo_andThen (growTo_outcome look target ls) fun _ ls =>
      Outcome.growTo_andThen (growTo_outcomes look indices ls) fun _ => .refl

theorem growTo_outcomes (look : Name → Except SemanticError Value) :
    (es : List Expr) → (ls : Lists) → ls.GrowTo (outcomes look es ls).lists
  | [], ls => .refl ls
  | e :: es, ls =>
    Outcome.growTo_andThen (growTo_outcome look e ls) fun _ ls =>
      Outcome.growTo_andThen (growTo_outcomes look es ls) fun _ => .refl

end

open Machine

/-- In front of every continuation, all that is left of the evaluation is the outcome, in `t`. -/
def ComesTo (limit : Nat) (e : Expr) (s : State) (o : Outcome Value) (t : State) : Prop :=
  ∀ k, (eval e k s).Reaches limit (o.resume k t (value · k))

namespace ComesTo

variable {e : Expr} {s t : State} {ls : Lists}

theorem returns {v : Value} (comes : e.ComesTo limit s ⟨.ok v, ls⟩ t) :
    e.Returns limit s v { t with lists := ls } := .of_reaches (comes .halt)

theorem fails {err : SemanticError} (comes : e.ComesTo limit s ⟨.error err, ls⟩ t) :
    e.Fails limit s (.semantic err) { t with lists := ls } := comes .halt

theorem pass {o : Outcome Value} (comes : e.ComesTo limit s o t) (k : Cont .value) :
    (eval e k s).Reaches limit (.pass o.result k { t with lists := o.lists }) := by
  rw [← o.resume_value]
  exact comes k

end ComesTo

mutual

theorem comesTo_outcome (limit : Nat) : (e : Expr) → e.Obeys .noCall → (s : State) →
    e.ComesTo limit s (outcome s.lookup e s.lists) s
  | literal l, _, s, k => .step (.refl _)
  | list items, callFree, s, k => by
    have elements := reaches_outcomes limit items (fun _ => callFree.part) .list [] k s
    exact .step (Outcome.reaches_andThen elements (fun _ => rfl) fun vs ls => .refl _)
  | tuple items, callFree, s, k => by
    have elements := reaches_outcomes limit items (fun _ => callFree.part) .tuple [] k s
    exact .step (Outcome.reaches_andThen elements (fun _ => rfl) fun vs ls => .refl _)
  | var x, _, s, k => .step (.of_eq (Outcome.resume_value ⟨s.lookup x, s.lists⟩ k s).symm)
  | unary op e, callFree, s, k => by
    have operand := comesTo_outcome limit e (callFree.part List.mem_cons_self) s (.unary op k)
    refine .step (Outcome.reaches_andThen operand (fun _ => rfl) fun v ls => .step (.of_eq ?_))
    exact (Outcome.resume_value ⟨op.apply v, ls⟩ k s).symm
  | binary op l r, callFree, s, k => by
    have left := comesTo_outcome limit l (callFree.part List.mem_cons_self) s (.binaryLeft op r k)
    refine .step (Outcome.reaches_andThen left (fun _ => rfl) fun a ls => .step ?_)
    have right := comesTo_outcome limit r
      (callFree.part (List.mem_cons_of_mem _ List.mem_cons_self)) { s with lists := ls }
      (.binaryRight op a k)
    refine Outcome.reaches_andThen right (fun _ => rfl) fun b ls => .step (.of_eq ?_)
    show stepValue b (.binaryRight op a k) { s with lists := ls } = _
    rw [stepValue]
    cases op.apply ls a b <;> rfl
  | index target indices, callFree, s, k => by
    have first := comesTo_outcome limit target (callFree.part List.mem_cons_self) s
      (.index indices k)
    refine .step (Outcome.reaches_andThen first (fun _ => rfl) fun v ls => .step ?_)
    have rest := reaches_outcomes limit indices
      (fun _ mem => callFree.part (List.mem_cons_of_mem _ mem)) (.indices v) [] k
      { s with lists := ls }
    refine Outcome.reaches_andThen rest (fun _ => rfl) fun is ls => .of_eq ?_
    exact (Outcome.resume_value ⟨v.at ls is, ls⟩ k s).symm
  | field n target, callFree, s, k => by
    have operand := comesTo_outcome limit target (callFree.part List.mem_cons_self) s (.field n k)
    refine .step (Outcome.reaches_andThen operand (fun _ => rfl) fun v ls => .step (.of_eq ?_))
    exact (Outcome.resume_value ⟨v.field n, ls⟩ k s).symm
  | call f args, callFree, s, k => absurd rfl (callFree.here f args)

theorem reaches_outcomes (limit : Nat) : (es : List Expr) → (∀ e ∈ es, e.Obeys .noCall) →
    (p : Purpose) → (values : List Value) → (k : Cont p.awaits) → (s : State) →
    (gather p values es k s).Reaches limit
      ((outcomes s.lookup es s.lists).resume k s fun vs => use p (values.reverse ++ vs) k)
  | [], _, p, values, k, s => by
    refine .step (.of_eq ?_)
    show use p values.reverse k s = use p (values.reverse ++ []) k s
    rw [List.append_nil]
  | e :: es, callFree, p, values, k, s => by
    have first := comesTo_outcome limit e (callFree e List.mem_cons_self) s (.next p values es k)
    refine .step (Outcome.reaches_andThen first (fun _ => rfl) fun v ls => .step ?_)
    have rest := reaches_outcomes limit es (fun e mem => callFree e (List.mem_cons_of_mem _ mem)) p
      (v :: values) k { s with lists := ls }
    refine Outcome.reaches_andThen rest (fun _ => rfl) fun vs ls => .of_eq ?_
    rw [List.reverse_cons, List.append_assoc]
    rfl

end

/-- A list literal, or an operator with two operands: of these, `+` and `::` yield lists. -/
inductive Builds : Expr → Prop
  | list (items : List Expr) : Builds (.list items)
  | binary (op : BinaryOp) (l r : Expr) : Builds (.binary op l r)

theorem new_of_builds {e : Expr} (builds : e.Builds) {ls ls' : Lists} {a : ListId}
    (made : outcome look e ls = ⟨.ok (.list a), ls'⟩) :
    ls.size ≤ a.index ∧ ls'.size = a.index + 1 := by
  cases builds with
  | list items =>
    obtain ⟨vs, ls₁, elements, stored⟩ := Outcome.andThen_eq_ok_iff.mp made
    obtain ⟨new, last⟩ := Outcome.new_of_stored (by simp) stored
    have grow := (growTo_outcomes look items ls).size_le
    rw [elements] at grow
    rw [new]
    exact ⟨grow, last⟩
  | binary op l r =>
    obtain ⟨v, ls₁, left, rest⟩ := Outcome.andThen_eq_ok_iff.mp made
    obtain ⟨w, ls₂, right, stored⟩ := Outcome.andThen_eq_ok_iff.mp rest
    have unlisted : op.apply ls₂ v w ≠ .ok (.value (.list a)) := by
      intro applied
      obtain ⟨l, same⟩ := BinaryOp.stems_apply applied
      exact l.value_ne_list a same.symm
    obtain ⟨new, last⟩ := Outcome.new_of_stored unlisted stored
    have grow := (growTo_outcome look l ls).size_le
    have grow' := (growTo_outcome look r ls₁).size_le
    rw [left] at grow
    rw [right] at grow'
    rw [new]
    exact ⟨grow.trans grow', last⟩

end Expr

end Scriptlet
