import Scriptlet.Proofs.Run.Context

namespace Scriptlet

namespace Expr

open Machine

def Returns (limit : Nat) (e : Expr) (s : State) (v : Value) (t : State) : Prop :=
  (s.evaluate e).Reaches limit (.returned v t)

def Fails (limit : Nat) (e : Expr) (s : State) (f : Fault) (t : State) : Prop :=
  (s.evaluate e).Reaches limit (.failed f t)

variable {limit : Nat} {e : Expr} {s t t' : State} {v w : Value} {f f' : Fault}

theorem Returns.of_reaches (reaches : (s.evaluate e).Reaches limit (.value v .halt t)) :
    e.Returns limit s v t := reaches.trans ⟨1, advance_succ limit 0 _⟩

theorem Returns.unique (first : e.Returns limit s v t) (second : e.Returns limit s w t') :
    v = w ∧ t = t' := by
  cases Reaches.unique first second rfl rfl
  exact ⟨rfl, rfl⟩

theorem Fails.unique (first : e.Fails limit s f t) (second : e.Fails limit s f' t') :
    f = f' ∧ t = t' := by
  cases Reaches.unique first second rfl rfl
  exact ⟨rfl, rfl⟩

theorem Returns.not_fails (returns : e.Returns limit s v t) : ¬e.Fails limit s f t' := by
  intro fails
  cases Reaches.unique returns fails rfl rfl

/-- Alone and in front of `k` the same happens, up to the value of the expression. -/
theorem returns_or_alike (limit : Nat) (e : Expr) (s : State) (k : Cont .value) (n : Nat) :
    (∃ v t, e.Returns limit s v t ∧ (eval e k s).Reaches limit (.value v k t)) ∨
      Machine.Over .halt k ((s.evaluate e).advance limit n) ((eval e k s).advance limit n) := by
  have alike : Machine.Over .halt k (s.evaluate e) (eval e k s) := .eval e s .base
  refine (alike.advance limit n).imp_left ?_
  rintro ⟨j, _, back⟩
  generalize alone : (s.evaluate e).advance limit j = m at back
  generalize inFront : (eval e k s).advance limit j = m' at back
  cases back with
  | value v t => exact ⟨v, t, .of_reaches ⟨j, alone⟩, j, inFront⟩

theorem Returns.reaches (returns : e.Returns limit s v t) (k : Cont .value) :
    (eval e k s).Reaches limit (.value v k t) := by
  obtain ⟨n, run⟩ := id returns
  rcases returns_or_alike limit e s k n with ⟨w, u, returns', reaches⟩ | alike
  · obtain ⟨rfl, rfl⟩ := returns.unique returns'
    exact reaches
  · rw [run] at alike
    cases alike

theorem Fails.reaches (fails : e.Fails limit s f t) (k : Cont .value) :
    (eval e k s).Reaches limit (.failed f (k.unwind t)) := by
  obtain ⟨n, run⟩ := id fails
  rcases returns_or_alike limit e s k n with ⟨w, u, returns, _⟩ | alike
  · exact absurd fails returns.not_fails
  · rw [run] at alike
    generalize inFront : (eval e k s).advance limit n = m at alike
    cases alike with
    | failed f u => exact ⟨n, inFront⟩

def Ends (limit : Nat) (e : Expr) (s : State) : Prop :=
  ∃ n, ((s.evaluate e).advance limit n).isOver

theorem returns_or_fails (k : Cont .value) {n : Nat}
    (ended : ((eval e k s).advance limit n).isOver) :
    (∃ v t, e.Returns limit s v t) ∨ ∃ f t, e.Fails limit s f t := by
  rcases returns_or_alike limit e s k n with ⟨v, t, returns, _⟩ | alike
  · exact .inl ⟨v, t, returns⟩
  · generalize alone : (s.evaluate e).advance limit n = m at alike
    generalize (eval e k s).advance limit n = m' at alike ended
    cases alike with
    | failed f t => exact .inr ⟨f, t, n, alone⟩
    | _ => cases ended

theorem Returns.ends (returns : e.Returns limit s v t) : e.Ends limit s :=
  Reaches.ends returns rfl

theorem Fails.ends (fails : e.Fails limit s f t) : e.Ends limit s := Reaches.ends fails rfl

theorem Ends.returns_or_fails (ends : e.Ends limit s) :
    (∃ v t, e.Returns limit s v t) ∨ ∃ f t, e.Fails limit s f t := by
  obtain ⟨n, ended⟩ := ends
  exact Expr.returns_or_fails .halt ended

theorem Ends.of_first (k : Cont .value) {n : Nat}
    (ended : ((eval e k s).advance limit n).isOver) : e.Ends limit s := by
  rcases Expr.returns_or_fails k ended with ⟨v, t, returns⟩ | ⟨f, t, fails⟩
  · exact returns.ends
  · exact fails.ends

inductive AllReturn (limit : Nat) : List Expr → State → List Value → State → Prop
  | nil {s : State} : AllReturn limit [] s [] s
  | cons {e : Expr} {es : List Expr} {s t u : State} {v : Value} {vs : List Value} :
      e.Returns limit s v t → AllReturn limit es t vs u → AllReturn limit (e :: es) s (v :: vs) u

theorem AllReturn.reaches {es : List Expr} {vs : List Value} (all : AllReturn limit es s vs t)
    (p : Purpose) (values : List Value) (k : Cont p.awaits) :
    (gather p values es k s).Reaches limit (use p (values.reverse ++ vs) k t) := by
  induction all generalizing values with
  | nil =>
    rw [List.append_nil]
    exact .step (.refl _)
  | @cons e es s t u v vs first _ ih =>
    have rest := ih (v :: values)
    rw [List.reverse_cons, List.append_assoc] at rest
    exact .step ((first.reaches _).trans (.step rest))

end Expr

end Scriptlet
