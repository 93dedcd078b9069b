import Scriptlet.Proofs.Grammar.Reads

namespace Scriptlet

namespace Phrase

/-- The operators that still wait for the end of the phrase when its last operand has been read. -/
def spine : Phrase → List Parser.Pending
  | unary op e => e.spine ++ [.unary op]
  | binary op l r => r.spine ++ [.binary l.tree op]
  | _ => []

def tip : Phrase → Phrase
  | unary _ e => e.tip
  | binary _ _ r => r.tip
  | g => g

end Phrase

namespace Parser

open Phrase (spine tip)

theorem close_spine (g : Phrase) (ps : List Pending) :
    close (g.spine ++ ps) g.tip.tree = close ps g.tree := by
  induction g using Phrase.spine.induct generalizing ps with
  | case1 op e ih =>
    rw [spine, tip, List.append_assoc, ih]
    rfl
  | case2 op l r ih =>
    rw [spine, tip, List.append_assoc, ih]
    rfl
  | case3 g noUnary noBinary =>
    cases g with
    | unary op e => exact absurd rfl (noUnary op e)
    | binary op l r => exact absurd rfl (noBinary op l r)
    | _ => rfl

/-- An operator that the phrase yields to takes the whole of it. -/
theorem reduce_spine {level : Nat} (g : Phrase) (yields : g.Yields level) (ps : List Pending) :
    reduce level (g.spine ++ ps) g.tip.tree = reduce level ps g.tree := by
  induction g using Phrase.spine.induct generalizing ps with
  | case1 op e ih =>
    obtain ⟨weaker, yields⟩ := yields
    have taken : ¬ (Pending.unary op).floor ≤ level := Nat.not_le_of_lt weaker
    rw [spine, tip, List.append_assoc, ih yields, List.singleton_append, reduce, if_neg taken]
    rfl
  | case2 op l r ih =>
    obtain ⟨weaker, yields⟩ := yields
    have taken : ¬ (Pending.binary l.tree op).floor ≤ level := Nat.not_le_of_lt weaker
    rw [spine, tip, List.append_assoc, ih yields, List.singleton_append, reduce, if_neg taken]
    rfl
  | case3 g noUnary noBinary =>
    cases g with
    | unary op e => exact absurd rfl (noUnary op e)
    | binary op l r => exact absurd rfl (noBinary op l r)
    | _ => rfl

theorem stands_of_yields {level floor : Nat} {l : Phrase} (yields : l.Yields level)
    (bound : floor ≤ level) : l.Stands floor := by
  cases l with
  | binary op l r =>
    have weaker := yields.1
    change floor ≤ op.level
    rw [BinaryOp.floor] at weaker
    split at weaker <;> omega
  | _ => exact True.intro

structure ReadsBack (g : Phrase) : Prop where
  operand : ∃ focus : Focus, focus.expr = g.tip.tree ∧
    ∀ ps c, (∀ p ∈ ps.head?, g.Stands p.floor) →
      (State.operand ps c).steps g.tokens = some (.operator focus (g.spine ++ ps) c)
  atom : g.isAtom → ReadsAtom g.tokens g.tree
  field : g.isTarget → ∀ n, ReadsAtom ([.fixed .hash, .int n] ++ g.tokens) (.field n g.tree)

theorem ReadsBack.expr {g : Phrase} (reads : ReadsBack g) : ReadsExpr g.tokens g.tree := by
  obtain ⟨focus, tip, run⟩ := reads.operand
  have read : ReadsExpr g.tokens (close (g.spine ++ []) focus.expr) :=
    readsExpr_of_steps fun c => run [] c (by simp)
  rw [tip, close_spine] at read
  exact read

theorem ReadsBack.of_primary {g : Phrase} (leaf : g.spine = [] ∧ g.tip = g)
    (primary : ReadsPrimary g.tokens g.tree) (atom : g.isAtom → ReadsAtom g.tokens g.tree)
    (field : g.isTarget → ∀ n, ReadsAtom ([.fixed .hash, .int n] ++ g.tokens) (.field n g.tree)) :
    ReadsBack g := by
  obtain ⟨focus, expr, run⟩ := primary
  refine ⟨⟨focus, by rw [leaf.2, expr], fun ps c _ => ?_⟩, atom, field⟩
  rw [leaf.1]
  exact run ps c

theorem ReadsBack.of_atom {g : Phrase} (leaf : g.spine = [] ∧ g.tip = g)
    (atom : ReadsAtom g.tokens g.tree) (other : g.isTarget = false) : ReadsBack g :=
  .of_primary leaf atom.primary (fun _ => atom) fun target => by rw [other] at target; cases target

theorem ReadsBack.of_opened {g : Phrase} (leaf : g.spine = [] ∧ g.tip = g) {us : List Token}
    (tokens : g.tokens = .fixed .lparen :: us) (opened : ReadsOpened us g.tree) : ReadsBack g := by
  refine .of_primary leaf (tokens ▸ opened.atom.primary) (fun _ => tokens ▸ opened.atom)
    fun _ n => ?_
  rw [tokens]
  exact opened.field n

theorem forall₂_phrases {gs : List Phrase} (reads : ∀ g ∈ gs, ReadsBack g) :
    List.Forall₂ ReadsExpr (gs.map Phrase.tokens) (gs.map Phrase.tree) := by
  rw [List.forall₂_map_left_iff, List.forall₂_map_right_iff]
  exact List.forall₂_same.mpr fun g member => (reads g member).expr

theorem readsBack_tuple {gs : List Phrase} (ne : gs ≠ []) (reads : ∀ g ∈ gs, ReadsBack g) :
    ReadsBack (.tuple gs) := by
  match gs, ne with
  | [g], _ =>
    exact .of_opened ⟨rfl, rfl⟩ rfl (readsOpened_single (reads g List.mem_cons_self).expr)
  | g :: g' :: gs, _ =>
    have rest := forall₂_phrases fun g member =>
      reads g (List.mem_cons_of_mem _ (List.mem_cons_of_mem _ member))
    have opened := readsOpened_several (reads g List.mem_cons_self).expr
      (reads g' (List.mem_cons_of_mem _ List.mem_cons_self)).expr rest
    have tree : (Phrase.tuple (g :: g' :: gs)).tree =
        .tuple (g.tree :: g'.tree :: gs.map Phrase.tree) := by simp [Phrase.tree]
    rw [← tree] at opened
    refine .of_opened ⟨rfl, rfl⟩ ?_ opened
    simp [Phrase.tokens]

theorem readsBack_of_proper {g : Phrase} (proper : g.Proper) : ReadsBack g := by
  induction proper with
  | literal l => exact .of_atom ⟨rfl, rfl⟩ (readsAtom_literal l) rfl
  | name x =>
    exact .of_primary ⟨rfl, rfl⟩ (readsAtom_name x).primary (fun _ => readsAtom_name x)
      fun _ n => readsAtom_fieldName n x
  | call f _ ih =>
    refine .of_atom ⟨rfl, rfl⟩ ?_ rfl
    rw [Phrase.tokens, Phrase.tokensOf_eq, Phrase.tree, Phrase.treesOf_eq]
    exact readsAtom_call f (forall₂_phrases ih)
  | list _ ih =>
    refine .of_atom ⟨rfl, rfl⟩ ?_ rfl
    rw [Phrase.tokens, Phrase.tokensOf_eq, Phrase.tree, Phrase.treesOf_eq]
    exact readsAtom_list (forall₂_phrases ih)
  | tuple ne _ ih => exact readsBack_tuple ne ih
  | group _ ih => exact .of_opened ⟨rfl, rfl⟩ rfl (readsOpened_group ih.expr)
  | field n target _ ih => exact .of_atom ⟨rfl, rfl⟩ (ih.field target n) rfl
  | @index target indices atom ne _ _ ih ihs =>
    refine .of_primary ⟨rfl, rfl⟩ ?_ (by simp [Phrase.isAtom]) (by simp [Phrase.isTarget])
    rw [Phrase.tokens, Phrase.tokensOf_eq, Phrase.tree, Phrase.treesOf_eq]
    exact readsPrimary_index (ih.atom atom) (forall₂_phrases ihs) (by simpa using ne)
  | @unary op e stands _ ih =>
    refine ⟨?_, by simp [Phrase.isAtom], by simp [Phrase.isTarget]⟩
    obtain ⟨focus, tip, run⟩ := ih.operand
    refine ⟨focus, tip, fun ps c _ => ?_⟩
    have step : (State.operand ps c).step (.fixed op.token) =
        some (.operand (.unary op :: ps) c) := by cases op <;> rfl
    rw [Phrase.tokens, steps_cons, step, Option.bind_some, spine, List.append_assoc]
    refine run (.unary op :: ps) c ?_
    rintro p head
    cases head
    exact stands
  | @binary op l r yields stands _ _ left right =>
    refine ⟨?_, by simp [Phrase.isAtom], by simp [Phrase.isTarget]⟩
    obtain ⟨focus, tip, first⟩ := left.operand
    obtain ⟨focus', tip', second⟩ := right.operand
    refine ⟨focus', tip', fun ps c fits => ?_⟩
    have kept : reduce op.level ps l.tree = (ps, l.tree) := by
      cases ps with
      | nil => rfl
      | cons p ps =>
        have fits : p.floor ≤ op.level := fits p rfl
        rw [reduce, if_pos fits]
    have step := step_operator_infix focus (l.spine ++ ps) c op.binaryOp?_token
    rw [tip, reduce_spine l yields, kept] at step
    rw [Phrase.tokens, steps_trans (first ps c fun p head => stands_of_yields yields (fits p head))
      rfl, steps_cons, step, Option.bind_some, spine, List.append_assoc]
    refine second (.binary l.tree op :: ps) c ?_
    rintro p head
    cases head
    exact stands

theorem readsExprs_of_proper {gs : List Phrase} (proper : ∀ g ∈ gs, g.Proper) :
    List.Forall₂ ReadsExpr (gs.map Phrase.tokens) (gs.map Phrase.tree) :=
  forall₂_phrases fun g member => readsBack_of_proper (proper g member)

theorem readsBlock_of_stmts {cs : List Clause} (reads : ∀ c ∈ cs, ReadsStmt c.tokens c.tree) :
    ReadsBlock (Clause.braced (cs.flatMap Clause.tokens)) (cs.map Clause.tree) := by
  rw [List.flatMap_def]
  apply readsBlock
  rw [List.forall₂_map_left_iff, List.forall₂_map_right_iff]
  exact List.forall₂_same.mpr reads

theorem readsStmt_of_proper {c : Clause} (proper : c.Proper) : ReadsStmt c.tokens c.tree := by
  induction proper with
  | print value => exact readsStmt_print (readsBack_of_proper value).expr
  | restate x => exact readsStmt_restate x
  | assign x value => exact readsStmt_assign x (readsBack_of_proper value).expr
  | assignAt x ne indices value =>
    exact readsStmt_assignAt x (readsExprs_of_proper indices) (by simpa using ne)
      (readsBack_of_proper value).expr
  | block _ ih =>
    rw [Clause.tokens, Clause.tokensOf_eq, Clause.tree, Clause.treesOf_eq]
    exact (readsBlock_of_stmts ih).stmt
  | ifThen cond _ ih =>
    rw [Clause.tokens, Clause.tokensOf_eq, Clause.tree, Clause.treesOf_eq]
    exact readsStmt_ifThen (readsBack_of_proper cond).expr (readsBlock_of_stmts ih)
  | ifElse cond _ _ ih ih' =>
    simp only [Clause.tokens, Clause.tokensOf_eq, Clause.tree, Clause.treesOf_eq]
    exact readsStmt_ifElse (readsBack_of_proper cond).expr (readsBlock_of_stmts ih)
      (readsBlock_of_stmts ih')
  | loop cond _ ih =>
    rw [Clause.tokens, Clause.tokensOf_eq, Clause.tree, Clause.treesOf_eq]
    exact readsStmt_loop (readsBack_of_proper cond).expr (readsBlock_of_stmts ih)
  | call f args => exact readsStmt_call f (readsExprs_of_proper args)

theorem readsFunction_of_proper {d : Definition} (proper : d.Proper) :
    ReadsFunction d.tokens d.tree :=
  readsFunction d.name d.params
    (readsBlock_of_stmts fun c member => readsStmt_of_proper (proper.body c member))
    (readsBack_of_proper proper.result).expr

end Parser

theorem Script.Proper.read {g : Script} (proper : g.Proper) {ts : List Located}
    (tokens : ts.map Located.token = g.tokens) : Program.ofTokens ts = .ok g.tree := by
  rw [Program.ofTokens_eq_ok_iff, tokens, Script.tokens, List.flatMap_def]
  refine Parser.readsProgram ?_
    (Parser.readsBlock_of_stmts fun c member => Parser.readsStmt_of_proper (proper.main c member))
  rw [List.forall₂_map_left_iff, List.forall₂_map_right_iff]
  exact List.forall₂_same.mpr fun d member =>
    Parser.readsFunction_of_proper (proper.definitions d member)

end Scriptlet
