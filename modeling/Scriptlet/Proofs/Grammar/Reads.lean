import Scriptlet.Proofs.Grammar.Derivation
import Scriptlet.Proofs.Grammar.Steps

namespace Scriptlet.Parser

def ReadsExpr (ts : List Token) (e : Expr) : Prop :=
  ∀ c {f : Fixed}, f.closes →
    (State.operand [] c).steps (ts ++ [.fixed f]) = stepClosing e c (.fixed f)

def ReadsPrimary (ts : List Token) (e : Expr) : Prop :=
  ∃ focus : Focus, focus.expr = e ∧
    ∀ ps c, (State.operand ps c).steps ts = some (.operator focus ps c)

def ReadsAtom (ts : List Token) (e : Expr) : Prop :=
  ∃ focus : Focus, focus.expr = e ∧ focus.target = (e, []) ∧
    ∀ ps c, (State.operand ps c).steps ts = some (.operator focus ps c)

def ReadsOpened (ts : List Token) (e : Expr) : Prop :=
  ∀ field ps c, (State.operand [] (.group field ps c)).steps ts =
    some (.operator (.atom (withField field e)) ps c)

/-- A place for the next statement of the block. -/
inductive Ready : OpenBlock → State → Prop
  | statement (b : OpenBlock) : Ready b (.statement b)
  | afterThen (cond : Expr) (body : List Stmt) (b : OpenBlock) :
      Ready (b.add (.ifThen cond body)) (.afterThen cond body b)

def ReadsStmt (ts : List Token) (st : Stmt) : Prop :=
  ∀ b s, Ready b s → ∃ s', Ready (b.add st) s' ∧ s.steps ts = some s'

def ReadsBlock (ts : List Token) (body : List Stmt) : Prop :=
  ∃ us, ts = .fixed .lbrace :: us ∧
    ∀ outer, (State.statement ⟨[], outer⟩).steps us = some (endBlock body outer)

def ReadsFunction (ts : List Token) (f : Function) : Prop :=
  ∀ fs, (State.top fs).steps ts = some (.top (f :: fs))

def ReadsProgram (ts : List Token) (p : Program) : Prop :=
  (State.top []).steps ts = some (.finished p)

theorem steps_trans {s s' : State} {r : Option State} {ts us : List Token} (h : s.steps ts = some s')
    (h' : s'.steps us = r) : s.steps (ts ++ us) = r := by
  rw [steps_append, h, Option.bind_some, h']

theorem readsExpr_of_steps {ts : List Token} {focus : Focus} {ps : List Pending}
    (run : ∀ c, (State.operand [] c).steps ts = some (.operator focus ps c)) :
    ReadsExpr ts (close ps focus.expr) := by
  intro c f closes
  rw [steps_append, run c, Option.bind_some, steps_cons, step_closing focus ps c closes]
  cases stepClosing (close ps focus.expr) c (.fixed f) <;> rfl

def ItemPlace (place : List Expr → ExprContext) : Prop :=
  ∀ e items, stepClosing e (place items) (.fixed .comma) = some (.operand [] (place (e :: items)))

def EndsItems (f : Fixed) (place : List Expr → ExprContext) (done : List Expr → State) : Prop :=
  ∀ e items, stepClosing e (place items) (.fixed f) = some (done (e :: items))

theorem reads_separated (place : List Expr → ExprContext) (done : List Expr → State) {f : Fixed}
    (comma : ItemPlace place) (last : EndsItems f place done) (closes : f.closes)
    {ts : List Token} {e : Expr} {parts : List (List Token)} {es : List Expr}
    (first : ReadsExpr ts e) (rest : List.Forall₂ ReadsExpr parts es) (items : List Expr) :
    (State.operand [] (place items)).steps (separated (ts :: parts) ++ [Token.fixed f]) =
      some (done ((e :: es).reverse ++ items)) := by
  induction rest generalizing ts e items with
  | nil => exact (first _ closes).trans (last e items)
  | @cons us e' parts es next rest ih =>
    have split : separated (ts :: us :: parts) ++ [Token.fixed f] =
        (ts ++ [Token.fixed .comma]) ++ (separated (us :: parts) ++ [Token.fixed f]) := by
      simp only [separated, List.append_assoc, List.cons_append, List.nil_append]
    rw [split, steps_trans ((first _ rfl).trans (comma e items)) (ih next (e :: items))]
    simp only [List.reverse_cons, List.append_assoc, List.cons_append, List.nil_append]

def Covers (s s' : State) : Prop := ∀ t r, s'.step t = some r → s.step t = some r

theorem Covers.steps {s s' r : State} {ts : List Token} (covers : Covers s s') (ne : ts ≠ [])
    (h : s'.steps ts = some r) : s.steps ts = some r := by
  cases ts with
  | nil => exact absurd rfl ne
  | cons t ts =>
    rw [steps_cons] at h ⊢
    cases next : s'.step t with
    | none => rw [next] at h; cases h
    | some u => rw [next] at h; rw [covers t u next]; exact h

/-- An item may come next, read in the given context, or a token that ends the list. -/
inductive BeforeItem : State → ExprContext → Prop
  | list (ps : List Pending) (c : ExprContext) : BeforeItem (.firstItem ps c) (.list [] ps c)
  | callExpr (f : Name) (ps : List Pending) (c : ExprContext) :
      BeforeItem (.firstArg f ps c) (.callExpr f [] ps c)
  | callStmt (f : Name) (b : OpenBlock) : BeforeItem (.firstCallArg f b) (.callStmt f [] b)
  | tuple (field : Option Int64) (e : Expr) (ps : List Pending) (c : ExprContext) :
      BeforeItem (.secondItem field e ps c) (.tuple field [e] ps c)

theorem BeforeItem.covers {s : State} {c : ExprContext} (before : BeforeItem s c) :
    Covers s (.operand [] c) := by
  intro t r h
  cases before with
  | _ =>
    cases t with
    | fixed f => cases f <;> first | exact h | cases h
    | _ => exact h

theorem reads_items (place : List Expr → ExprContext) (done : List Expr → State) {s : State}
    {f : Fixed} (comma : ItemPlace place) (before : BeforeItem s (place []))
    (empty : s.step (.fixed f) = some (done [])) (last : EndsItems f place done)
    (closes : f.closes) {parts : List (List Token)} {es : List Expr}
    (reads : List.Forall₂ ReadsExpr parts es) :
    s.steps (separated parts ++ [Token.fixed f]) = some (done es.reverse) := by
  cases reads with
  | nil => rw [separated, List.nil_append, steps_cons, empty]; rfl
  | cons first rest =>
    refine before.covers.steps (by simp) ?_
    rw [reads_separated place done comma last closes first rest [], List.append_nil]

theorem reads_index {ts : List Token} {e : Expr} (index : ReadsExpr ts e) (focus : Focus)
    (ps : List Pending) (c : ExprContext) :
    (State.operator focus ps c).steps (bracketed ts) =
      some (.operator (.indexed focus.target.1 (e :: focus.target.2)) ps c) := by
  rw [bracketed, List.cons_append, steps_cons, step_operator_lbracket]
  exact index _ rfl

theorem reads_indices {ts : List Token} {e : Expr} {parts : List (List Token)} {es : List Expr}
    (first : ReadsExpr ts e) (rest : List.Forall₂ ReadsExpr parts es) (focus : Focus)
    (ps : List Pending) (c : ExprContext) :
    (State.operator focus ps c).steps ((ts :: parts).flatMap bracketed) =
      some (.operator (.indexed focus.target.1 ((e :: es).reverse ++ focus.target.2)) ps c) := by
  induction rest generalizing ts e focus with
  | nil =>
    rw [List.flatMap_cons, List.flatMap_nil, List.append_nil, reads_index first]
    rfl
  | @cons us e' parts es next rest ih =>
    rw [List.flatMap_cons, steps_trans (reads_index first focus ps c) (ih next _)]
    simp only [Focus.target, List.reverse_cons, List.append_assoc, List.cons_append, List.nil_append]

theorem readsPrimary_index {ts : List Token} {target : Expr} {parts : List (List Token)}
    {es : List Expr} (atom : ReadsAtom ts target) (indices : List.Forall₂ ReadsExpr parts es)
    (ne : parts ≠ []) : ReadsPrimary (ts ++ parts.flatMap bracketed) (.index target es) := by
  obtain ⟨focus, _, alone, run⟩ := atom
  cases indices with
  | nil => exact absurd rfl ne
  | cons first rest =>
    refine ⟨_, ?_, fun ps c => steps_trans (run ps c) (reads_indices first rest focus ps c)⟩
    rw [alone, List.append_nil, Focus.expr, List.reverse_reverse]

theorem ReadsAtom.primary {ts : List Token} {e : Expr} (atom : ReadsAtom ts e) :
    ReadsPrimary ts e := by
  obtain ⟨focus, expr, _, run⟩ := atom
  exact ⟨focus, expr, run⟩

theorem readsAtom_literal (l : Literal) : ReadsAtom [l.token] (.literal l) := by
  refine ⟨.atom (.literal l), rfl, rfl, fun ps c => ?_⟩
  cases l with
  | bool b => cases b <;> rfl
  | _ => rfl

theorem readsAtom_name (x : Name) : ReadsAtom [.name x] (.var x) :=
  ⟨.name x, rfl, rfl, fun _ _ => rfl⟩

theorem readsAtom_call (f : Name) {parts : List (List Token)} {es : List Expr}
    (args : List.Forall₂ ReadsExpr parts es) :
    ReadsAtom ([Token.name f, .fixed .lparen] ++ separated parts ++ [Token.fixed .rparen])
      (.call f es) := by
  refine ⟨.atom (.call f es), rfl, rfl, fun ps c => ?_⟩
  have run := reads_items (fun args => .callExpr f args ps c)
    (fun args => .operator (.atom (.call f args.reverse)) ps c) (f := .rparen) (fun _ _ => rfl)
    (.callExpr f ps c) rfl (fun _ _ => rfl) rfl args
  rw [List.reverse_reverse] at run
  exact run

theorem readsAtom_list {parts : List (List Token)} {es : List Expr}
    (items : List.Forall₂ ReadsExpr parts es) :
    ReadsAtom ([Token.fixed .lbracket] ++ separated parts ++ [Token.fixed .rbracket])
      (.list es) := by
  refine ⟨.atom (.list es), rfl, rfl, fun ps c => ?_⟩
  have run := reads_items (fun items => .list items ps c)
    (fun items => .operator (.atom (.list items.reverse)) ps c) (f := .rbracket) (fun _ _ => rfl)
    (.list ps c) rfl (fun _ _ => rfl) rfl items
  rw [List.reverse_reverse] at run
  exact run

theorem readsOpened_group {ts : List Token} {e : Expr} (reads : ReadsExpr ts e) :
    ReadsOpened (ts ++ [Token.fixed .rparen]) e :=
  fun field ps c => reads (.group field ps c) rfl

theorem readsOpened_single {ts : List Token} {e : Expr} (reads : ReadsExpr ts e) :
    ReadsOpened (ts ++ [Token.fixed .comma, .fixed .rparen]) (.tuple [e]) := by
  intro field ps c
  have last : (State.secondItem field e ps c).steps [.fixed .rparen] =
      some (.operator (.atom (withField field (.tuple [e]))) ps c) := rfl
  have run := steps_trans (reads (.group field ps c) (f := .comma) rfl) last
  rwa [List.append_assoc] at run

theorem readsOpened_several {ts us : List Token} {e e' : Expr} {parts : List (List Token)}
    {es : List Expr} (first : ReadsExpr ts e) (second : ReadsExpr us e')
    (rest : List.Forall₂ ReadsExpr parts es) :
    ReadsOpened (separated (ts :: us :: parts) ++ [Token.fixed .rparen])
      (.tuple (e :: e' :: es)) := by
  intro field ps c
  have split : separated (ts :: us :: parts) ++ [Token.fixed .rparen] =
      (ts ++ [Token.fixed .comma]) ++ (separated (us :: parts) ++ [Token.fixed .rparen]) := by
    simp only [separated, List.append_assoc, List.cons_append, List.nil_append]
  have tail := reads_separated (fun items => .tuple field items ps c)
    (fun items => .operator (.atom (withField field (.tuple items.reverse))) ps c)
    (fun _ _ => rfl) (fun _ _ => rfl) (f := .rparen) rfl second rest [e]
  have tail := (BeforeItem.tuple field e ps c).covers.steps (by simp) tail
  rw [split, steps_trans (first (.group field ps c) (f := .comma) rfl) tail]
  simp only [List.reverse_append, List.reverse_reverse, List.reverse_cons, List.reverse_nil,
    List.nil_append, List.cons_append]

theorem ReadsOpened.atom {ts : List Token} {e : Expr} (reads : ReadsOpened ts e) :
    ReadsAtom (.fixed .lparen :: ts) e :=
  ⟨.atom e, rfl, rfl, fun ps c => reads none ps c⟩

theorem ReadsOpened.field {ts : List Token} {e : Expr} (reads : ReadsOpened ts e) (n : Int64) :
    ReadsAtom ([Token.fixed .hash, .int n, .fixed .lparen] ++ ts) (.field n e) :=
  ⟨.atom (.field n e), rfl, rfl, fun ps c => reads (some n) ps c⟩

theorem readsAtom_fieldName (n : Int64) (x : Name) :
    ReadsAtom [.fixed .hash, .int n, .name x] (.field n (.var x)) :=
  ⟨.atom (.field n (.var x)), rfl, rfl, fun _ _ => rfl⟩

theorem readsStmt_of_statement {t : Token} {ts : List Token} {st : Stmt}
    (noElse : t ≠ .fixed .elseWord)
    (run : ∀ b, ∃ s, Ready (b.add st) s ∧ (State.statement b).steps (t :: ts) = some s) :
    ReadsStmt (t :: ts) st := by
  intro b s ready
  cases ready with
  | statement b => exact run b
  | afterThen cond body b =>
    obtain ⟨r, next, run⟩ := run (b.add (.ifThen cond body))
    have same : (State.afterThen cond body b).step t =
        (State.statement (b.add (.ifThen cond body))).step t := by
      cases t with
      | fixed f => cases f <;> first | rfl | exact absurd rfl noElse
      | _ => rfl
    exact ⟨r, next, by rw [steps_cons, same]; exact run⟩

theorem readsStmt_print {ts : List Token} {e : Expr} (value : ReadsExpr ts e) :
    ReadsStmt ([Token.fixed .print, .fixed .lparen] ++ ts ++
      [Token.fixed .rparen, .fixed .semicolon])
      (.print e) := by
  refine readsStmt_of_statement (by simp) fun b => ⟨_, .statement _, ?_⟩
  have last : (State.semicolon (.print e) b).steps [.fixed .semicolon] =
      some (.statement (b.add (.print e))) := rfl
  have run := steps_trans (value (.print b) (f := .rparen) rfl) last
  rw [List.append_assoc] at run
  exact run

theorem readsStmt_restate (x : Name) :
    ReadsStmt [.name x, .fixed .semicolon] (.assign x (.var x)) :=
  readsStmt_of_statement (by simp) fun _ => ⟨_, .statement _, rfl⟩

theorem readsStmt_assign (x : Name) {ts : List Token} {e : Expr} (value : ReadsExpr ts e) :
    ReadsStmt ([Token.name x, .fixed .assign] ++ ts ++ [Token.fixed .semicolon]) (.assign x e) :=
  readsStmt_of_statement (by simp) fun b => ⟨_, .statement _, value (.assign x b) rfl⟩

theorem reads_place {ts : List Token} {e : Expr} (index : ReadsExpr ts e) {x : Name}
    {read : List Expr} {b : OpenBlock} {s : State}
    (lbracket : s.step (.fixed .lbracket) = some (.operand [] (.place x read b))) :
    s.steps (bracketed ts) = some (.afterPlace x (e :: read) b) := by
  rw [bracketed, List.cons_append, steps_cons, lbracket]
  exact index (.place x read b) rfl

theorem reads_places {ts : List Token} {e : Expr} {parts : List (List Token)} {es : List Expr}
    (first : ReadsExpr ts e) (rest : List.Forall₂ ReadsExpr parts es) {x : Name} {b : OpenBlock}
    {s : State} (read : List Expr)
    (lbracket : s.step (.fixed .lbracket) = some (.operand [] (.place x read b))) :
    s.steps ((ts :: parts).flatMap bracketed) =
      some (.afterPlace x ((e :: es).reverse ++ read) b) := by
  induction rest generalizing ts e s read with
  | nil =>
    rw [List.flatMap_cons, List.flatMap_nil, List.append_nil, reads_place first lbracket]
    rfl
  | @cons us e' parts es next rest ih =>
    rw [List.flatMap_cons, steps_trans (reads_place first lbracket) (ih next (e :: read) rfl)]
    simp only [List.reverse_cons, List.append_assoc, List.cons_append, List.nil_append]

theorem readsStmt_assignAt (x : Name) {parts : List (List Token)} {es : List Expr}
    (indices : List.Forall₂ ReadsExpr parts es) (ne : parts ≠ []) {ts : List Token} {e : Expr}
    (value : ReadsExpr ts e) :
    ReadsStmt ([Token.name x] ++ parts.flatMap bracketed ++ [Token.fixed .assign] ++ ts ++
      [Token.fixed .semicolon]) (.assignAt x es e) := by
  have split : [Token.name x] ++ parts.flatMap bracketed ++ [Token.fixed .assign] ++ ts ++
      [Token.fixed .semicolon] = .name x ::
        (parts.flatMap bracketed ++ (.fixed .assign :: (ts ++ [Token.fixed .semicolon]))) := by simp
  rw [split]
  refine readsStmt_of_statement (by simp) fun b => ⟨_, .statement _, ?_⟩
  cases indices with
  | nil => exact absurd rfl ne
  | @cons _ i _ is first rest =>
    have last : (State.afterPlace x ((i :: is).reverse ++ []) b).steps
        (.fixed .assign :: (ts ++ [Token.fixed .semicolon])) =
          some (.statement (b.add (.assignAt x (i :: is) e))) := by
      have run := value (.assignAt x ((i :: is).reverse ++ []) b) (f := .semicolon) rfl
      rw [stepClosing, List.append_nil, List.reverse_reverse] at run
      rw [List.append_nil]
      exact run
    exact steps_trans (reads_places first rest (s := .afterName x b) [] rfl) last

theorem readsStmt_call (f : Name) {parts : List (List Token)} {es : List Expr}
    (args : List.Forall₂ ReadsExpr parts es) :
    ReadsStmt ([Token.name f, .fixed .lparen] ++ separated parts ++
      [Token.fixed .rparen, .fixed .semicolon])
      (.call f es) := by
  refine readsStmt_of_statement (by simp) fun b => ⟨_, .statement _, ?_⟩
  have run := reads_items (fun args => .callStmt f args b)
    (fun args => .semicolon (.call f args.reverse) b) (f := .rparen) (fun _ _ => rfl)
    (.callStmt f b) rfl (fun _ _ => rfl) rfl args
  rw [List.reverse_reverse] at run
  have last : (State.semicolon (.call f es) b).steps [.fixed .semicolon] =
      some (.statement (b.add (.call f es))) := rfl
  have run := steps_trans run last
  rw [List.append_assoc] at run
  exact run

theorem ReadsBlock.run {ts : List Token} {body : List Stmt} (reads : ReadsBlock ts body)
    (outer : BlockContext) :
    (State.blockOpen outer).steps ts = some (endBlock body outer) := by
  obtain ⟨us, rfl, run⟩ := reads
  exact run outer

theorem ReadsBlock.stmt {ts : List Token} {body : List Stmt} (reads : ReadsBlock ts body) :
    ReadsStmt ts (.block body) := by
  obtain ⟨us, rfl, run⟩ := reads
  exact readsStmt_of_statement (by simp) fun b => ⟨_, .statement _, run (.nested b.read b.outer)⟩

theorem readsStmt_loop {cond body : List Token} {e : Expr} {sts : List Stmt}
    (test : ReadsExpr cond e) (block : ReadsBlock body sts) :
    ReadsStmt ([Token.fixed .whileWord, .fixed .lparen] ++ cond ++ [Token.fixed .rparen] ++ body)
      (.loop e sts) :=
  readsStmt_of_statement (by simp) fun b => ⟨_, .statement _,
    steps_trans (test (.loopCond b) (f := .rparen) rfl) (block.run _)⟩

theorem readsStmt_ifThen {cond body : List Token} {e : Expr} {sts : List Stmt}
    (test : ReadsExpr cond e) (block : ReadsBlock body sts) :
    ReadsStmt ([Token.fixed .ifWord, .fixed .lparen] ++ cond ++ [Token.fixed .rparen] ++ body)
      (.ifThen e sts) :=
  readsStmt_of_statement (by simp) fun b => ⟨_, .afterThen e sts b,
    steps_trans (test (.ifCond b) (f := .rparen) rfl) (block.run _)⟩

theorem readsStmt_ifElse {cond body other : List Token} {e : Expr} {sts sts' : List Stmt}
    (test : ReadsExpr cond e) (block : ReadsBlock body sts) (block' : ReadsBlock other sts') :
    ReadsStmt ([Token.fixed .ifWord, .fixed .lparen] ++ cond ++ [Token.fixed .rparen] ++ body ++
      [Token.fixed .elseWord] ++ other) (.ifElse e sts sts') := by
  refine readsStmt_of_statement (by simp) fun b => ⟨_, .statement _, ?_⟩
  have first := steps_trans (test (.ifCond b) (f := .rparen) rfl) (block.run _)
  have step : (State.afterThen e sts b).steps [.fixed .elseWord] =
      some (.blockOpen (.else_ e sts b.read b.outer)) := rfl
  exact steps_trans (steps_trans first step) (block'.run _)

theorem reads_statements {parts : List (List Token)} {sts : List Stmt}
    (reads : List.Forall₂ ReadsStmt parts sts) {b : OpenBlock} {s : State} (ready : Ready b s) :
    ∃ s', Ready ⟨sts.reverse ++ b.read, b.outer⟩ s' ∧ s.steps parts.flatten = some s' := by
  induction reads generalizing b s with
  | nil => exact ⟨s, ready, rfl⟩
  | @cons ts st parts sts first _ ih =>
    obtain ⟨s₁, ready₁, run₁⟩ := first b s ready
    obtain ⟨s₂, ready₂, run₂⟩ := ih ready₁
    refine ⟨s₂, ?_, steps_trans run₁ run₂⟩
    rw [List.reverse_cons, List.append_assoc]
    exact ready₂

theorem readsBlock {parts : List (List Token)} {sts : List Stmt}
    (reads : List.Forall₂ ReadsStmt parts sts) : ReadsBlock (Clause.braced parts.flatten) sts := by
  refine ⟨parts.flatten ++ [Token.fixed .rbrace], rfl, fun outer => ?_⟩
  obtain ⟨s, ready, run⟩ := reads_statements reads (.statement ⟨[], outer⟩)
  rw [List.append_nil] at ready
  have last : s.steps [.fixed .rbrace] = some (endBlock sts outer) := by
    generalize open_ : OpenBlock.mk sts.reverse outer = b at ready
    have closed : stepStatement b (.fixed .rbrace) = some (endBlock sts outer) := by
      rw [← open_, stepStatement, List.reverse_reverse]
    cases ready with
    | statement b => exact congrArg (·.bind fun s => s.steps []) closed
    | afterThen cond body b => exact congrArg (·.bind fun s => s.steps []) closed
  exact steps_trans run last

theorem reads_moreParams (x : Name) (params : List Name) (h : Header) :
    (State.param h).steps (separated ((x :: params).map ([.name ·])) ++ [Token.fixed .rparen]) =
      some (.functionAssign ⟨h.functions, h.name, (x :: params).reverse ++ h.params⟩) := by
  induction params generalizing x h with
  | nil => rfl
  | cons y params ih =>
    have run := ih y ⟨h.functions, h.name, x :: h.params⟩
    rw [List.reverse_cons, List.append_assoc]
    exact run

theorem reads_params (params : List Name) (fs : List Function) (f : Name) :
    (State.firstParam fs f).steps (separated (params.map ([.name ·])) ++ [Token.fixed .rparen]) =
      some (.functionAssign ⟨fs, f, params.reverse⟩) := by
  cases params with
  | nil => rfl
  | cons x params =>
    have run := reads_moreParams x params ⟨fs, f, []⟩
    rw [List.append_nil] at run
    cases params <;> exact run

theorem readsFunction (f : Name) (params : List Name) {body result : List Token} {sts : List Stmt}
    {e : Expr} (block : ReadsBlock body sts) (value : ReadsExpr result e) :
    ReadsFunction ([Token.fixed .funWord, .name f, .fixed .lparen] ++
      separated (params.map ([.name ·])) ++
      [Token.fixed .rparen, .fixed .assign] ++ body ++ result ++ [Token.fixed .semicolon])
      ⟨f, params, sts, e⟩ := by
  intro fs
  have assign : (State.functionAssign ⟨fs, f, params.reverse⟩).steps [.fixed .assign] =
      some (.blockOpen (.body ⟨fs, f, params.reverse⟩)) := rfl
  have last := value (.result ⟨fs, f, params.reverse⟩ sts) (f := .semicolon) rfl
  rw [stepClosing, List.reverse_reverse] at last
  have run := steps_trans (steps_trans (reads_params params fs f) assign)
    (steps_trans (block.run _) last)
  simp only [List.append_assoc, List.cons_append, List.nil_append] at run ⊢
  exact run

theorem reads_functions {parts : List (List Token)} {fs : List Function}
    (reads : List.Forall₂ ReadsFunction parts fs) (before : List Function) :
    (State.top before).steps parts.flatten = some (.top (fs.reverse ++ before)) := by
  induction reads generalizing before with
  | nil => rfl
  | @cons ts f parts fs first _ ih =>
    rw [List.flatten_cons, steps_trans (first before) (ih (f :: before)), List.reverse_cons,
      List.append_assoc]
    rfl

theorem readsProgram {parts : List (List Token)} {fs : List Function} {main : List Token}
    {sts : List Stmt} (functions : List.Forall₂ ReadsFunction parts fs)
    (block : ReadsBlock main sts) : ReadsProgram (parts.flatten ++ main) ⟨fs, sts⟩ := by
  obtain ⟨us, rfl, run⟩ := block
  have first := reads_functions functions []
  have last := run (.main fs.reverse)
  rw [List.append_nil] at first
  rw [endBlock, List.reverse_reverse] at last
  exact steps_trans first last

end Scriptlet.Parser
