import Scriptlet.Parser.State

namespace Scriptlet

def Fixed.closes : Fixed → Bool
  | rparen | rbracket | comma | semicolon => true
  | _ => false

namespace Parser

def State.steps (s : State) : List Token → Option State
  | [] => some s
  | t :: ts => (s.step t).bind fun s => s.steps ts

@[simp] theorem steps_nil (s : State) : s.steps [] = some s := rfl

theorem steps_cons (s : State) (t : Token) (ts : List Token) :
    s.steps (t :: ts) = (s.step t).bind fun s => s.steps ts := rfl

theorem steps_append (s : State) (ts us : List Token) :
    s.steps (ts ++ us) = (s.steps ts).bind fun s => s.steps us := by
  induction ts generalizing s with
  | nil => rfl
  | cons t ts ih =>
    rw [List.cons_append, steps_cons, steps_cons]
    cases s.step t with
    | none => rfl
    | some s => exact ih s

theorem read_eq_ok_iff (s : State) (ts : List Located) (p : Program) :
    s.read ts = .ok p ↔ s.steps (ts.map Located.token) = some (.finished p) := by
  induction ts generalizing s with
  | nil =>
    cases s <;> simp [State.read]
  | cons t ts ih =>
    simp only [State.read, List.map_cons, steps_cons]
    cases s.step t.token with
    | none => simp
    | some s => exact ih s

theorem step_operator_fixed (focus : Focus) (ps : List Pending) (c : ExprContext) {f : Fixed}
    (noCall : f ≠ .lparen) (noIndex : f ≠ .lbracket) :
    (State.operator focus ps c).step (.fixed f) = stepInfix focus.expr ps c (.fixed f) := by
  cases f <;> first | exact absurd rfl noCall | exact absurd rfl noIndex | (cases focus <;> rfl)

theorem step_closing (focus : Focus) (ps : List Pending) (c : ExprContext) {f : Fixed}
    (closes : f.closes) :
    (State.operator focus ps c).step (.fixed f) = stepClosing (close ps focus.expr) c (.fixed f) := by
  have noCall : f ≠ .lparen := by rintro rfl; cases closes
  have noIndex : f ≠ .lbracket := by rintro rfl; cases closes
  rw [step_operator_fixed focus ps c noCall noIndex]
  cases f <;> first | rfl | cases closes

theorem step_operator_infix (focus : Focus) (ps : List Pending) (c : ExprContext) {f : Fixed}
    {op : BinaryOp} (operator : f.binaryOp? = some op) :
    (State.operator focus ps c).step (.fixed f) =
      some (.operand (.binary (reduce op.level ps focus.expr).2 op ::
        (reduce op.level ps focus.expr).1) c) := by
  have noCall : f ≠ .lparen := by rintro rfl; cases operator
  have noIndex : f ≠ .lbracket := by rintro rfl; cases operator
  rw [step_operator_fixed focus ps c noCall noIndex]
  simp only [stepInfix, operator]

theorem step_operator_lbracket (focus : Focus) (ps : List Pending) (c : ExprContext) :
    (State.operator focus ps c).step (.fixed .lbracket) =
      some (.operand [] (.index focus.target.1 focus.target.2 ps c)) := by
  cases focus <;> rfl

end Parser

theorem Program.ofTokens_eq_ok_iff (ts : List Located) (p : Program) :
    ofTokens ts = .ok p ↔
      (Parser.State.top []).steps (ts.map Located.token) = some (.finished p) :=
  Parser.read_eq_ok_iff _ ts p

end Scriptlet
