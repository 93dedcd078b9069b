import Scriptlet.Proofs.Printing.WellFormed

namespace Scriptlet

def UnaryOp.level : UnaryOp → Nat
  | not => 2
  | neg => 8

def BinaryOp.leftFloor (op : BinaryOp) : Nat :=
  if op.rightAssoc then op.level + 1 else op.level

namespace Phrase

def groupIf (weak : Bool) (g : Phrase) : Phrase := if weak then .group g else g

@[simp] theorem tree_groupIf (weak : Bool) (g : Phrase) : (g.groupIf weak).tree = g.tree := by
  cases weak <;> rfl

theorem Proper.groupIf {g : Phrase} (proper : g.Proper) (weak : Bool) :
    (g.groupIf weak).Proper := by
  cases weak with
  | true => exact .group proper
  | false => exact proper

theorem yields_groupIf {g : Phrase} {n : Nat} {weak : Bool} (yields : weak = false → g.Yields n) :
    (g.groupIf weak).Yields n := by
  cases weak with
  | true => exact True.intro
  | false => exact yields rfl

theorem stands_groupIf {g : Phrase} {n : Nat} {weak : Bool} (stands : weak = false → g.Stands n) :
    (g.groupIf weak).Stands n := by
  cases weak with
  | true => exact True.intro
  | false => exact stands rfl

end Phrase

namespace Expr

def level : Expr → Nat
  | unary op _ => op.level
  | binary op _ _ => op.level
  | _ => 10

mutual

def phrase : Expr → Phrase
  | literal l => .literal l
  | list items => .list (phrases items)
  | tuple items => .tuple (phrases items)
  | var x => .name x
  | unary op e => .unary op (e.phrase.groupIf (e.level < op.level))
  | binary op l r =>
    .binary op (l.phrase.groupIf (l.level < op.leftFloor)) (r.phrase.groupIf (r.level < op.floor))
  | index target indices => .index (target.phrase.groupIf !target.phrase.isAtom) (phrases indices)
  | field n target => .field n (target.phrase.groupIf !target.phrase.isTarget)
  | call f args => .call f (phrases args)

def phrases : List Expr → List Phrase
  | [] => []
  | e :: es => e.phrase :: phrases es

end

end Expr

namespace Stmt

mutual

def clause : Stmt → Clause
  | print e => .print e.phrase
  | assign x e => .assign x e.phrase
  | assignAt x indices e => .assignAt x (indices.map Expr.phrase) e.phrase
  | block body => .block (clauses body)
  | ifThen cond body => .ifThen cond.phrase (clauses body)
  | ifElse cond body other => .ifElse cond.phrase (clauses body) (clauses other)
  | loop cond body => .loop cond.phrase (clauses body)
  | call f args => .call f (args.map Expr.phrase)

def clauses : List Stmt → List Clause
  | [] => []
  | s :: ss => s.clause :: clauses ss

end

end Stmt

def Function.definition (f : Function) : Definition :=
  ⟨f.name, f.params, f.body.map Stmt.clause, f.result.phrase⟩

def Program.script (p : Program) : Script :=
  ⟨p.functions.map Function.definition, p.main.map Stmt.clause⟩

namespace Expr

@[simp] theorem phrases_eq (es : List Expr) : phrases es = es.map phrase := by
  induction es with
  | nil => rfl
  | cons e es ih => rw [phrases, ih, List.map_cons]

theorem map_tree_phrase {es : List Expr} (trees : ∀ e ∈ es, e.phrase.tree = e) :
    (es.map phrase).map Phrase.tree = es := by
  rw [List.map_map]
  exact (List.map_congr_left trees).trans (List.map_id es)

theorem tree_phrase (e : Expr) : e.phrase.tree = e := by
  induction e using Expr.WellFormed.induct with
  | case1 l => rfl
  | case2 items ih => simp [phrase, Phrase.tree, map_tree_phrase ih]
  | case3 items ih => simp [phrase, Phrase.tree, map_tree_phrase ih]
  | case4 x => rfl
  | case5 op e ih => simp [phrase, Phrase.tree, ih]
  | case6 op l r left right => simp [phrase, Phrase.tree, left, right]
  | case7 target indices ih ihs => simp [phrase, Phrase.tree, ih, map_tree_phrase ihs]
  | case8 n target ih => simp [phrase, Phrase.tree, ih]
  | case9 f args ih => simp [phrase, Phrase.tree, map_tree_phrase ih]

/-- The weakest level of an operator after the expression that does not take its last operand. -/
def floor : Expr → Nat
  | unary op _ => op.floor
  | binary op _ _ => op.floor
  | _ => 10

end Expr

theorem BinaryOp.level_spec (op : BinaryOp) :
    op.level ≠ 2 ∧ op.level ≠ 8 ∧ op.level ≤ 9 ∧ (op.rightAssoc ↔ op.level = 4 ∨ op.level = 9) := by
  cases op with
  | compare c => cases c <;> decide
  | arith a => cases a <;> decide
  | _ => decide

namespace Expr

variable {e : Expr}

theorem level_le_floor (e : Expr) : e.level ≤ e.floor := by
  cases e with
  | unary op e =>
    rw [level, floor]
    cases op <;> decide
  | binary op l r =>
    rw [level, floor, BinaryOp.floor]
    split <;> omega
  | _ => exact Nat.le_refl 10

/-- Nothing tears the operand of a unary operator apart that does not tear off the operator. -/
theorem operand_floor {op : UnaryOp} (strong : op.level ≤ e.level) : op.floor ≤ e.floor := by
  have bound := level_le_floor e
  cases op with
  | neg =>
    change 8 ≤ e.level at strong
    exact Nat.le_trans strong bound
  | not =>
    change 2 ≤ e.level at strong
    change 3 ≤ e.floor
    cases e with
    | unary op e => cases op <;> simp [floor, UnaryOp.floor]
    | binary op l r =>
      have other := op.level_spec.1
      simp only [level] at strong bound
      omega
    | _ => simp [floor]

theorem lt_floor_of_left {op : BinaryOp} (strong : op.leftFloor ≤ e.level) :
    op.level < e.floor := by
  have bound := level_le_floor e
  obtain ⟨noNot, noNeg, top, right⟩ := op.level_spec
  rw [BinaryOp.leftFloor] at strong
  split at strong
  · omega
  · rename_i left
    cases e with
    | unary op' e =>
      cases op' with
      | not =>
        change op.level ≤ 2 at strong
        exact Nat.lt_succ_of_le strong
      | neg =>
        change op.level ≤ 8 at strong
        exact Nat.lt_of_le_of_ne strong noNeg
    | binary op' l r =>
      have right' := op'.level_spec.2.2.2
      simp only [level, floor, BinaryOp.floor] at strong ⊢
      split
      · rename_i rightAssoc
        have level := right'.mp rightAssoc
        have level' := mt right.mpr left
        omega
      · omega
    | _ => exact Nat.lt_succ_of_le top

theorem yields_phrase {n : Nat} (e : Expr) (weaker : n < e.floor) : e.phrase.Yields n := by
  induction e using Expr.WellFormed.induct with
  | case5 op e ih =>
    refine ⟨weaker, Phrase.yields_groupIf fun strong => ih ?_⟩
    have strong : op.level ≤ e.level := by simpa using strong
    exact Nat.lt_of_lt_of_le weaker (operand_floor strong)
  | case6 op l r _ ih =>
    refine ⟨weaker, Phrase.yields_groupIf fun strong => ih ?_⟩
    have strong : op.floor ≤ r.level := by simpa using strong
    exact Nat.lt_of_lt_of_le weaker (Nat.le_trans strong (level_le_floor r))
  | _ => exact True.intro

theorem stands_phrase {n : Nat} (strong : n ≤ e.level) : e.phrase.Stands n := by
  cases e with
  | binary op l r => exact strong
  | _ => exact True.intro

theorem operand_stands {op : UnaryOp} (strong : op.level ≤ e.level) :
    e.phrase.Stands op.floor := by
  cases op with
  | neg => exact stands_phrase strong
  | not =>
    cases e with
    | binary op' l r =>
      have other := op'.level_spec.1
      change 2 ≤ op'.level at strong
      change 3 ≤ op'.level
      omega
    | _ => exact True.intro

theorem proper_phrases {es : List Expr} (proper : ∀ e ∈ es, e.phrase.Proper) :
    ∀ g ∈ phrases es, g.Proper := by
  rwa [phrases_eq, List.forall_mem_map]

theorem proper_phrase (e : Expr) (wf : e.WellFormed) : e.phrase.Proper := by
  induction e using Expr.WellFormed.induct with
  | case1 l => exact .literal l
  | case2 items ih =>
    rw [WellFormed] at wf
    exact .list (proper_phrases fun e member => ih e member (wf e member))
  | case3 items ih =>
    rw [WellFormed] at wf
    refine .tuple ?_ (proper_phrases fun e member => ih e member (wf.2 e member))
    rw [phrases_eq, ne_eq, List.map_eq_nil_iff]
    exact wf.1
  | case4 x => exact .name x
  | case5 op e ih =>
    rw [WellFormed] at wf
    refine .unary (Phrase.stands_groupIf fun strong => operand_stands ?_) ((ih wf).groupIf _)
    simpa using strong
  | case6 op l r left right =>
    rw [WellFormed] at wf
    refine .binary (Phrase.yields_groupIf fun strong => yields_phrase l ?_)
      (Phrase.stands_groupIf fun strong => stands_phrase ?_) ((left wf.1).groupIf _)
      ((right wf.2).groupIf _)
    · exact lt_floor_of_left (by simpa using strong)
    · simpa using strong
  | case7 target indices ih ihs =>
    rw [WellFormed] at wf
    obtain ⟨wf, ne, wfs⟩ := wf
    refine .index ?_ ?_ ((ih wf).groupIf _)
      (proper_phrases fun e member => ihs e member (wfs e member))
    · cases atom : target.phrase.isAtom with
      | true => exact atom
      | false => rfl
    · rw [phrases_eq, ne_eq, List.map_eq_nil_iff]
      exact ne
  | case8 n target ih =>
    rw [WellFormed] at wf
    refine .field n ?_ ((ih wf.2).groupIf _)
    cases plain : target.phrase.isTarget with
    | true => exact plain
    | false => rfl
  | case9 f args ih =>
    rw [WellFormed] at wf
    exact .call f (proper_phrases fun e member => ih e member (wf.2 e member))

end Expr

namespace Stmt

@[simp] theorem clauses_eq (ss : List Stmt) : clauses ss = ss.map clause := by
  induction ss with
  | nil => rfl
  | cons s ss ih => rw [clauses, ih, List.map_cons]

theorem map_tree_phrase (es : List Expr) : (es.map Expr.phrase).map Phrase.tree = es :=
  Expr.map_tree_phrase fun e _ => e.tree_phrase

theorem map_tree_clause {ss : List Stmt} (trees : ∀ s ∈ ss, s.clause.tree = s) :
    (ss.map clause).map Clause.tree = ss := by
  rw [List.map_map]
  exact (List.map_congr_left trees).trans (List.map_id ss)

theorem tree_clause (s : Stmt) : s.clause.tree = s := by
  induction s using Stmt.WellFormed.induct with
  | case1 e => rw [clause, Clause.tree, e.tree_phrase]
  | case2 x e => rw [clause, Clause.tree, e.tree_phrase]
  | case3 x indices e => rw [clause, Clause.tree, map_tree_phrase, e.tree_phrase]
  | case4 body ih => simp [clause, Clause.tree, map_tree_clause ih]
  | case5 cond body ih => simp [clause, Clause.tree, cond.tree_phrase, map_tree_clause ih]
  | case6 cond body other ih ih' =>
    simp [clause, Clause.tree, cond.tree_phrase, map_tree_clause ih, map_tree_clause ih']
  | case7 cond body ih => simp [clause, Clause.tree, cond.tree_phrase, map_tree_clause ih]
  | case8 f args => rw [clause, Clause.tree, map_tree_phrase]

theorem proper_phrases {es : List Expr} (wf : ∀ e ∈ es, e.WellFormed) :
    ∀ g ∈ es.map Expr.phrase, g.Proper := by
  rw [List.forall_mem_map]
  exact fun e member => e.proper_phrase (wf e member)

theorem proper_clauses {ss : List Stmt} (proper : ∀ s ∈ ss, s.clause.Proper) :
    ∀ c ∈ clauses ss, c.Proper := by
  rwa [clauses_eq, List.forall_mem_map]

theorem proper_clause (s : Stmt) (wf : s.WellFormed) : s.clause.Proper := by
  induction s using Stmt.WellFormed.induct with
  | case1 e => exact .print (e.proper_phrase (by rwa [WellFormed] at wf))
  | case2 x e =>
    rw [WellFormed] at wf
    exact .assign x (e.proper_phrase wf.2)
  | case3 x indices e =>
    rw [WellFormed] at wf
    obtain ⟨_, ⟨ne, wfs⟩, wf⟩ := wf
    refine .assignAt x ?_ (proper_phrases wfs) (e.proper_phrase wf)
    rw [ne_eq, List.map_eq_nil_iff]
    exact ne
  | case4 body ih =>
    rw [WellFormed] at wf
    exact .block (proper_clauses fun s member => ih s member (wf s member))
  | case5 cond body ih =>
    rw [WellFormed] at wf
    exact .ifThen (cond.proper_phrase wf.1)
      (proper_clauses fun s member => ih s member (wf.2 s member))
  | case6 cond body other ih ih' =>
    rw [WellFormed] at wf
    exact .ifElse (cond.proper_phrase wf.1)
      (proper_clauses fun s member => ih s member (wf.2.1 s member))
      (proper_clauses fun s member => ih' s member (wf.2.2 s member))
  | case7 cond body ih =>
    rw [WellFormed] at wf
    exact .loop (cond.proper_phrase wf.1)
      (proper_clauses fun s member => ih s member (wf.2 s member))
  | case8 f args =>
    rw [WellFormed] at wf
    exact .call f (proper_phrases wf.2)

end Stmt

namespace Program

theorem tree_script (p : Program) : p.script.tree = p := by
  have statements (ss : List Stmt) : (ss.map Stmt.clause).map Clause.tree = ss :=
    Stmt.map_tree_clause fun s _ => s.tree_clause
  have functions : (p.functions.map Function.definition).map Definition.tree = p.functions := by
    rw [List.map_map]
    refine (List.map_congr_left fun f _ => ?_).trans (List.map_id _)
    simp [Function.definition, Definition.tree, statements, f.result.tree_phrase]
  rw [script, Script.tree, functions, statements]

theorem proper_script {p : Program} (wf : p.WellFormed) : p.script.Proper := by
  have clauses {ss : List Stmt} (wfs : ∀ s ∈ ss, s.WellFormed) :
      ∀ c ∈ ss.map Stmt.clause, c.Proper := by
    rw [List.forall_mem_map]
    exact fun s member => s.proper_clause (wfs s member)
  refine ⟨?_, clauses wf.main⟩
  intro d member
  obtain ⟨f, listed, rfl⟩ := List.mem_map.mp member
  have wf := wf.functions f listed
  exact ⟨clauses wf.body, f.result.proper_phrase wf.result⟩

end Program

end Scriptlet
