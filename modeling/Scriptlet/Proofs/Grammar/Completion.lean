import Scriptlet.Proofs.Grammar.Reads

namespace Scriptlet

namespace Parser

/-- Some tokens lead on to the end of a program. -/
def State.CanFinish (s : State) : Prop := ∃ ts p, s.steps ts = some (.finished p)

namespace State.CanFinish

theorem of_steps {s s' : State} (ts : List Token) (run : s.steps ts = some s')
    (h : s'.CanFinish) : s.CanFinish := by
  obtain ⟨us, p, finish⟩ := h
  exact ⟨ts ++ us, p, steps_trans run finish⟩

theorem finished (p : Program) : (State.finished p).CanFinish := ⟨[], p, rfl⟩

theorem top (fs : List Function) : (State.top fs).CanFinish :=
  of_steps [.fixed .lbrace, .fixed .rbrace] rfl (finished _)

theorem statement (outer : BlockContext) (read : List Stmt) :
    (State.statement ⟨read, outer⟩).CanFinish := by
  induction outer generalizing read with
  | main fs => exact of_steps [.fixed .rbrace] rfl (finished _)
  | body h => exact of_steps [.fixed .rbrace, .fixed .trueWord, .fixed .semicolon] rfl (top _)
  | nested _ _ ih => exact of_steps [.fixed .rbrace] rfl (ih _)
  -- After a branch stands an empty block, since an `else` could follow there.
  | then_ _ _ _ ih =>
    exact of_steps [.fixed .rbrace, .fixed .lbrace, .fixed .rbrace] rfl (ih _)
  | else_ _ _ _ _ ih => exact of_steps [.fixed .rbrace] rfl (ih _)
  | loop _ _ _ ih => exact of_steps [.fixed .rbrace] rfl (ih _)

theorem semicolon (st : Stmt) (b : OpenBlock) : (State.semicolon st b).CanFinish :=
  of_steps [.fixed .semicolon] rfl (statement b.outer _)

theorem blockOpen (outer : BlockContext) : (State.blockOpen outer).CanFinish :=
  of_steps [.fixed .lbrace] rfl (statement outer [])

theorem of_closing {focus : Focus} {ps : List Pending} {c : ExprContext} {f : Fixed} {s : State}
    (closes : f.closes) (next : stepClosing (close ps focus.expr) c (.fixed f) = some s)
    (h : s.CanFinish) : (State.operator focus ps c).CanFinish := by
  refine of_steps [.fixed f] ?_ h
  rw [steps_cons, step_closing focus ps c closes, next]
  rfl

theorem operator (c : ExprContext) (focus : Focus) (ps : List Pending) :
    (State.operator focus ps c).CanFinish := by
  have assignAt (x : Name) (indices : List Expr) (b : OpenBlock) (focus : Focus)
      (ps : List Pending) : (State.operator focus ps (.assignAt x indices b)).CanFinish :=
    of_closing (f := .semicolon) rfl rfl (statement b.outer _)
  induction c generalizing focus ps with
  | print b => exact of_closing (f := .rparen) rfl rfl (semicolon _ b)
  | assign x b => exact of_closing (f := .semicolon) rfl rfl (statement b.outer _)
  | place x indices b =>
    refine of_closing (f := .rbracket) rfl rfl ?_
    exact of_steps [.fixed .assign, .fixed .trueWord] rfl (assignAt x _ b _ _)
  | assignAt x indices b => exact assignAt x indices b focus ps
  | callStmt f args b => exact of_closing (f := .rparen) rfl rfl (semicolon _ b)
  | ifCond b => exact of_closing (f := .rparen) rfl rfl (blockOpen _)
  | loopCond b => exact of_closing (f := .rparen) rfl rfl (blockOpen _)
  | result h body => exact of_closing (f := .semicolon) rfl rfl (top _)
  | group _ _ _ ih => exact of_closing (f := .rparen) rfl rfl (ih _ _)
  | tuple _ _ _ _ ih => exact of_closing (f := .rparen) rfl rfl (ih _ _)
  | list _ _ _ ih => exact of_closing (f := .rbracket) rfl rfl (ih _ _)
  | callExpr _ _ _ _ ih => exact of_closing (f := .rparen) rfl rfl (ih _ _)
  | index _ _ _ _ ih => exact of_closing (f := .rbracket) rfl rfl (ih _ _)

theorem operand (ps : List Pending) (c : ExprContext) : (State.operand ps c).CanFinish :=
  of_steps [.fixed .trueWord] rfl (operator c _ ps)

theorem functionAssign (h : Header) : (State.functionAssign h).CanFinish :=
  of_steps [.fixed .assign] rfl (blockOpen _)

theorem fieldTarget (n : Int64) (ps : List Pending) (c : ExprContext) :
    (State.fieldTarget n ps c).CanFinish := of_steps [.name "x"] rfl (operator c _ ps)

end State.CanFinish

theorem State.canFinish (s : State) : s.CanFinish := by
  cases s with
  | top fs => exact .top fs
  | functionName fs =>
    exact .of_steps [.name "f", .fixed .lparen, .fixed .rparen] rfl (.functionAssign _)
  | paramsOpen fs f => exact .of_steps [.fixed .lparen, .fixed .rparen] rfl (.functionAssign _)
  | firstParam fs f => exact .of_steps [.fixed .rparen] rfl (.functionAssign _)
  | param h => exact .of_steps [.name "x", .fixed .rparen] rfl (.functionAssign _)
  | afterParam h => exact .of_steps [.fixed .rparen] rfl (.functionAssign h)
  | functionAssign h => exact .functionAssign h
  | finished p => exact .finished p
  | blockOpen outer => exact .blockOpen outer
  | statement b => exact .statement b.outer b.read
  | afterThen cond body b =>
    exact .of_steps [.fixed .lbrace, .fixed .rbrace] rfl (.statement b.outer _)
  | printOpen b => exact .of_steps [.fixed .lparen] rfl (.operand [] (.print b))
  | ifOpen b => exact .of_steps [.fixed .lparen] rfl (.operand [] (.ifCond b))
  | loopOpen b => exact .of_steps [.fixed .lparen] rfl (.operand [] (.loopCond b))
  | afterName x b => exact .of_steps [.fixed .semicolon] rfl (.statement b.outer _)
  | afterPlace x indices b =>
    exact .of_steps [.fixed .assign] rfl (.operand [] (.assignAt x indices b))
  | firstCallArg f b => exact .of_steps [.fixed .rparen] rfl (.semicolon _ b)
  | semicolon st b => exact .semicolon st b
  | operand ps c => exact .operand ps c
  | firstItem ps c => exact .of_steps [.fixed .rbracket] rfl (.operator c _ ps)
  | firstArg f ps c => exact .of_steps [.fixed .rparen] rfl (.operator c _ ps)
  | secondItem field e ps c => exact .of_steps [.fixed .rparen] rfl (.operator c _ ps)
  | fieldNumber ps c => exact .of_steps [.int 1] rfl (.fieldTarget 1 ps c)
  | fieldTarget n ps c => exact .fieldTarget n ps c
  | operator focus ps c => exact .operator c focus ps

theorem exists_read_eq_ok (s : State) : ∃ us p, s.read us = .ok p := by
  obtain ⟨ts, p, run⟩ := s.canFinish
  refine ⟨ts.map (⟨·, 1⟩), p, (read_eq_ok_iff _ _ _).mpr ?_⟩
  rwa [List.map_map, show Located.token ∘ (⟨·, 1⟩) = id from rfl, List.map_id]

theorem read_append {s s' : State} {ts : List Located}
    (run : s.steps (ts.map Located.token) = some s') (us : List Located) :
    s.read (ts ++ us) = s'.read us := by
  induction ts generalizing s with
  | nil =>
    cases run
    rfl
  | cons t ts ih =>
    rw [List.map_cons, steps_cons] at run
    cases next : s.step t.token with
    | none => rw [next] at run; cases run
    | some r =>
      rw [next] at run
      simp only [List.cons_append, State.read, next]
      exact ih run

theorem read_eq_error {s : State} {ts : List Located} {e : SyntaxError}
    (failed : s.read ts = .error e) :
    (∃ s', s.steps (ts.map Located.token) = some s' ∧ e = .unexpectedEnd s'.expected) ∨
    ∃ before t after s', ts = before ++ t :: after ∧
      s.steps (before.map Located.token) = some s' ∧ s'.step t.token = none ∧
      e = .unexpectedToken t.token t.line s'.expected := by
  induction ts generalizing s with
  | nil =>
    refine .inl ⟨s, rfl, ?_⟩
    cases s <;> cases failed <;> rfl
  | cons t ts ih =>
    cases next : s.step t.token with
    | none =>
      simp only [State.read, next] at failed
      cases failed
      exact .inr ⟨[], t, ts, s, rfl, rfl, next, rfl⟩
    | some r =>
      simp only [State.read, next] at failed
      have first (us : List Token) : s.steps (t.token :: us) = r.steps us := by
        rw [steps_cons, next, Option.bind_some]
      rcases ih failed with ⟨s', run, same⟩ | ⟨before, u, after, s', split, run, none, same⟩
      · exact .inl ⟨s', (first _).trans run, same⟩
      · exact .inr ⟨t :: before, u, after, s', by rw [split]; rfl, (first _).trans run, none, same⟩

theorem read_eq_error_of_step {s : State} {t : Located} (none : s.step t.token = none)
    (us : List Located) :
    s.read (t :: us) = .error (.unexpectedToken t.token t.line s.expected) := by
  simp only [State.read, none]

end Parser

open Scriptlet.Parser

/--
A syntax error is found at the first token that cannot be there. Either the text breaks off, where
more tokens would make a program of it; or the tokens before the one reported could begin a program,
and no text that begins with those and that one is read: all of them have the same error. So every
proper beginning of a program breaks off.
-/
theorem syntax_error_at_first_impossible_token (ts : List Located) :
    (∀ e, Program.ofTokens ts = .error e →
      (∃ expected, e = .unexpectedEnd expected) ∧ (∃ us p, Program.ofTokens (ts ++ us) = .ok p) ∨
      ∃ before t after expected, ts = before ++ t :: after ∧
        e = .unexpectedToken t.token t.line expected ∧
        (∃ us p, Program.ofTokens (before ++ us) = .ok p) ∧
        ∀ us, Program.ofTokens (before ++ t :: us) = .error e) ∧
    ∀ p, Program.ofTokens ts = .ok p → ∀ before t after, ts = before ++ t :: after →
      ∃ expected, Program.ofTokens before = .error (.unexpectedEnd expected) := by
  constructor
  · intro e failed
    rcases read_eq_error failed with ⟨s, run, rfl⟩ | ⟨before, t, after, s, split, run, none, rfl⟩
    · obtain ⟨us, p, finish⟩ := exists_read_eq_ok s
      exact .inl ⟨⟨_, rfl⟩, us, p, (read_append run us).trans finish⟩
    · obtain ⟨us, p, finish⟩ := exists_read_eq_ok s
      refine .inr ⟨before, t, after, _, split, rfl, ⟨us, p, (read_append run us).trans finish⟩, ?_⟩
      intro us
      exact (read_append run (t :: us)).trans (read_eq_error_of_step none us)
  · rintro p read before t after rfl
    cases short : Program.ofTokens before with
    | ok q =>
      have run := (Program.ofTokens_eq_ok_iff before q).mp short
      have whole := (read_append run (t :: after)).symm.trans read
      rw [read_eq_error_of_step (s := .finished q) rfl] at whole
      cases whole
    | error e =>
      rcases read_eq_error short with ⟨s, run, rfl⟩ | ⟨front, u, rest, s, rfl, run, none, rfl⟩
      · exact ⟨_, rfl⟩
      · rw [List.append_assoc] at read
        have whole := (read_append run (u :: (rest ++ t :: after))).symm.trans read
        rw [read_eq_error_of_step none] at whole
        cases whole

/-- `{ x = ; }`, with the semicolon on a second line. -/
def Program.withoutValue : List Located :=
  [⟨.fixed .lbrace, 1⟩, ⟨.name "x", 1⟩, ⟨.fixed .assign, 1⟩, ⟨.fixed .semicolon, 2⟩,
    ⟨.fixed .rbrace, 2⟩]

theorem Program.syntax_error_at_first_impossible_token_withoutValue :
    let e : SyntaxError := .unexpectedToken (.fixed .semicolon) 2 .expression
    let first : List Located := [⟨.fixed .lbrace, 1⟩, ⟨.name "x", 1⟩]
    let last : List Located := [⟨.fixed .rbrace, 1⟩]
    (ofTokens withoutValue = .error e ∧
      ((∃ expected, e = .unexpectedEnd expected) ∧
          (∃ us p, ofTokens (withoutValue ++ us) = .ok p) ∨
        ∃ before t after expected, withoutValue = before ++ t :: after ∧
          e = .unexpectedToken t.token t.line expected ∧
          (∃ us p, ofTokens (before ++ us) = .ok p) ∧
          ∀ us, ofTokens (before ++ t :: us) = .error e)) ∧
    ofTokens (first ++ ⟨.fixed .semicolon, 1⟩ :: last) = .ok ⟨[], [.assign "x" (.var "x")]⟩ ∧
      ∃ expected, ofTokens first = .error (.unexpectedEnd expected) := by
  intro e first last
  have read : ofTokens (first ++ ⟨.fixed .semicolon, 1⟩ :: last) =
      .ok ⟨[], [.assign "x" (.var "x")]⟩ := rfl
  refine ⟨⟨rfl, (syntax_error_at_first_impossible_token _).1 e rfl⟩, read, ?_⟩
  exact (syntax_error_at_first_impossible_token _).2 _ read first _ last rfl

end Scriptlet
