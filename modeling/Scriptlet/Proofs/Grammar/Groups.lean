import Scriptlet.Proofs.Grammar.Parens

namespace Scriptlet

/-- A text that starts with this, and what this stands for, settle the part and where it ends. -/
def Delimited {α β : Type} (tree : α → β) (tokens : α → List Token) (a : α) : Prop :=
  ∀ (a' : α) (us us' : List Token), tree a = tree a' → tokens a ++ us = tokens a' ++ us' →
    a = a' ∧ us = us'

theorem eq_of_delimited {α β : Type} {tree : α → β} {tokens : α → List Token} {as as' : List α}
    {us us' : List Token} (each : ∀ a ∈ as, Delimited tree tokens a)
    (trees : as.map tree = as'.map tree)
    (same : as.flatMap tokens ++ us = as'.flatMap tokens ++ us') : as = as' ∧ us = us' := by
  induction as generalizing as' with
  | nil =>
    cases as' with
    | nil => exact ⟨rfl, same⟩
    | cons => cases trees
  | cons a as ih =>
    cases as' with
    | nil => cases trees
    | cons a' as' =>
      obtain ⟨tree, others⟩ := List.cons.inj trees
      rw [List.flatMap_cons, List.flatMap_cons, List.append_assoc, List.append_assoc] at same
      obtain ⟨rfl, rest⟩ := each a List.mem_cons_self a' _ _ tree same
      obtain ⟨rfl, after⟩ := ih (fun b listed => each b (List.mem_cons_of_mem _ listed)) others rest
      exact ⟨rfl, after⟩

namespace Phrase

variable {g g' : Phrase} {gs gs' : List Phrase}

theorem length_eq (trees : gs.map tree = gs'.map tree) : gs.length = gs'.length := by
  simpa using congrArg List.length trees

/-- The text and what it stands for settle the grouping. -/
def Settled (g : Phrase) : Prop := ∀ g' : Phrase, g.tree = g'.tree → g.tokens = g'.tokens → g = g'

theorem eq_of_separated (settled : ∀ g ∈ gs, g.Settled) (trees : gs.map tree = gs'.map tree)
    (same : separated (gs.map tokens) = separated (gs'.map tokens)) : gs = gs' := by
  induction gs generalizing gs' with
  | nil => exact (List.map_eq_nil_iff.mp trees.symm).symm
  | cons g gs ih =>
    cases gs' with
    | nil => cases trees
    | cons g' gs' =>
      obtain ⟨tree, trees⟩ := List.cons.inj trees
      have first := settled g List.mem_cons_self g' tree
      cases gs with
      | nil =>
        cases List.map_eq_nil_iff.mp trees.symm
        rw [first same]
      | cons h gs =>
        cases gs' with
        | nil => cases trees
        | cons h' gs' =>
          obtain ⟨here, rest⟩ := eq_of_words same (words_eq tree) rfl rfl
          rw [first here, ih (fun g listed => settled g (List.mem_cons_of_mem _ listed)) trees
            (List.cons.inj rest).2]

theorem brackets_of_ne_nil (some : gs ≠ []) :
    ∃ us, (gs.map tokens).flatMap bracketed = .fixed .lbracket :: us := by
  obtain ⟨g, gs, rfl⟩ := List.exists_cons_of_ne_nil some
  exact ⟨_, rfl⟩

theorem Settled.bracketed (settled : g.Settled) :
    Delimited tree (fun g => bracketed g.tokens) g := by
  intro g' us us' tree same
  simp only [Scriptlet.bracketed, List.append_assoc, List.cons_append, List.nil_append,
    List.cons.injEq, true_and] at same
  obtain ⟨before, after⟩ := eq_of_words same (words_eq tree) rfl rfl
  exact ⟨settled g' tree before, (List.cons.inj after).2⟩

theorem eq_of_brackets {us us' : List Token} (settled : ∀ g ∈ gs, g.Settled)
    (trees : gs.map tree = gs'.map tree)
    (same : (gs.map tokens).flatMap Scriptlet.bracketed ++ us =
      (gs'.map tokens).flatMap Scriptlet.bracketed ++ us') : gs = gs' ∧ us = us' := by
  rw [List.flatMap_map, List.flatMap_map] at same
  exact eq_of_delimited (fun g listed => (settled g listed).bracketed) trees same

theorem tokens_ne_nil (g : Phrase) : g.tokens ≠ [] := by
  induction g using parts_induction with
  | step g ih =>
    cases g with
    | index target indices =>
      rw [tokens]
      exact List.append_ne_nil_of_left_ne_nil (ih target List.mem_cons_self) _
    | _ => simp [tokens]

theorem tokens_of_tree_tuple {es : List Expr} (tree : g.tree = .tuple es) :
    ∃ ts, Nested ts ∧ g.tokens = .fixed .lparen :: ts ++ [.fixed .rparen] := by
  cases g with
  | tuple gs =>
    rw [tokens_tuple]
    exact ⟨_, (Nested.separated (List.forall_mem_map.mpr fun g _ => g.nested)).append
      (nested_trailing gs), rfl⟩
  | group g => exact ⟨_, g.nested, rfl⟩
  | _ => cases tree

theorem separated_trailing (gs : List Phrase) (some : gs ≠ []) :
    ∃ g ∈ gs, ∃ us, us ≠ [] ∧ separated (gs.map tokens) ++ trailing gs = g.tokens ++ us := by
  match gs, some with
  | [g], _ => exact ⟨g, List.mem_cons_self, [.fixed .comma], by simp, rfl⟩
  | g :: h :: gs, _ =>
    refine ⟨g, List.mem_cons_self, .fixed .comma :: (separated ((h :: gs).map tokens) ++
      trailing (g :: h :: gs)), by simp, ?_⟩
    rw [List.map_cons, List.map_cons, separated, List.append_assoc]
    rfl

def Plain (g : Phrase) : Prop := ∀ e, g ≠ group e

theorem tokens_ne_group {e : Phrase} (tree : e.tree = g.tree) (plain : g.Plain)
    (indexed : ∀ {target indices}, g.tree = .index target indices → indices ≠ []) :
    (group e).tokens ≠ g.tokens := by
  cases g with
  | literal l =>
    rw [tokens, tokens]
    intro same
    cases List.append_eq_nil_iff.mp (List.cons.inj same).2 |>.2
  | name x | call f args | list items | field n target =>
    rw [tokens, tokens]
    intro same
    cases (List.cons.inj same).1
  | tuple items =>
    intro same
    -- What is in the group stands for a tuple as well and has a pair of parentheses around it.
    obtain ⟨ts, nested, pair⟩ := tokens_of_tree_tuple tree
    rw [tokens_tuple, tokens] at same
    have inside : e.tokens = separated (items.map tokens) ++ trailing items :=
      (List.cons.inj (List.append_cancel_right same)).2
    by_cases none : items = []
    · rw [none] at inside
      exact e.tokens_ne_nil inside
    · obtain ⟨g, _, us, more, split⟩ := separated_trailing items none
      exact nested.not_group g.nested g.tokens_ne_nil more (pair.symm.trans (inside.trans split))
  | group e' => exact absurd rfl (plain e')
  | index target indices =>
    have some : indices ≠ [] := by
      have some := indexed (show (index target indices).tree = _ from rfl)
      rwa [treesOf_eq, ne_eq, List.map_eq_nil_iff] at some
    obtain ⟨us, brackets⟩ := brackets_of_ne_nil some
    refine e.nested.not_group target.nested target.tokens_ne_nil ?_
    rw [tokensOf_eq, brackets]
    exact List.cons_ne_nil _ _
  | unary op e' =>
    intro same
    have paren := congrArg Token.isParen (List.cons.inj same).1
    rw [op.isParen_token] at paren
    cases paren
  | binary op l r => exact e.nested.not_group l.nested l.tokens_ne_nil (List.cons_ne_nil _ _)

theorem Settled.of_plain (plain : g.Plain)
    (indexed : ∀ {target indices}, g.tree = .index target indices → indices ≠ [])
    (alike : ∀ g' : Phrase, g'.Plain → g.tree = g'.tree → g.tokens = g'.tokens → g = g') :
    g.Settled := by
  intro g' tree same
  refine alike g' ?_ tree same
  rintro e rfl
  exact tokens_ne_group (e := e) tree.symm plain indexed same.symm

theorem settled_literal (l : Literal) : (literal l).Settled := by
  refine .of_plain (fun _ => Phrase.noConfusion) nofun fun g' plain tree _ => ?_
  cases g' with
  | group e => exact absurd rfl (plain e)
  | literal l' =>
    cases tree
    rfl
  | _ => cases tree

theorem settled_name (x : Name) : (name x).Settled := by
  refine .of_plain (fun _ => Phrase.noConfusion) nofun fun g' plain tree _ => ?_
  cases g' with
  | group e => exact absurd rfl (plain e)
  | name y =>
    cases tree
    rfl
  | _ => cases tree

theorem settled_call (f : Name) (settled : ∀ g ∈ gs, g.Settled) : (call f gs).Settled := by
  refine .of_plain (fun _ => Phrase.noConfusion) nofun fun g' plain tree same => ?_
  cases g' with
  | group e => exact absurd rfl (plain e)
  | call f' gs' =>
    simp only [Phrase.tree, treesOf_eq, Expr.call.injEq] at tree
    simp only [tokens, tokensOf_eq, tree.1, List.append_assoc, List.append_cancel_left_eq,
      List.append_cancel_right_eq] at same
    rw [tree.1, eq_of_separated settled tree.2 same]
  | _ => cases tree

theorem settled_list (settled : ∀ g ∈ gs, g.Settled) : (list gs).Settled := by
  refine .of_plain (fun _ => Phrase.noConfusion) nofun fun g' plain tree same => ?_
  cases g' with
  | group e => exact absurd rfl (plain e)
  | list gs' =>
    simp only [Phrase.tree, treesOf_eq, Expr.list.injEq] at tree
    simp only [tokens, tokensOf_eq, List.append_assoc, List.append_cancel_left_eq,
      List.append_cancel_right_eq] at same
    rw [eq_of_separated settled tree same]
  | _ => cases tree

theorem settled_tuple (settled : ∀ g ∈ gs, g.Settled) : (tuple gs).Settled := by
  refine .of_plain (fun _ => Phrase.noConfusion) nofun fun g' plain tree same => ?_
  cases g' with
  | group e => exact absurd rfl (plain e)
  | tuple gs' =>
    simp only [Phrase.tree, treesOf_eq, Expr.tuple.injEq] at tree
    simp only [tokens, tokensOf_eq, length_eq tree, List.append_assoc, List.append_cancel_left_eq,
      List.append_cancel_right_eq] at same
    rw [eq_of_separated settled tree same]
  | _ => cases tree

theorem Settled.field (n : Int64) (settled : g.Settled) : (field n g).Settled := by
  refine .of_plain (fun _ => Phrase.noConfusion) nofun fun g' plain tree same => ?_
  cases g' with
  | group e => exact absurd rfl (plain e)
  | field n' target =>
    simp only [Phrase.tree, Expr.field.injEq] at tree
    simp only [tokens, tree.1, List.append_cancel_left_eq] at same
    rw [tree.1, settled target tree.2 same]
  | _ => cases tree

theorem Settled.index (settled : g.Settled) (some : gs ≠ []) (indices : ∀ g ∈ gs, g.Settled) :
    (index g gs).Settled := by
  refine .of_plain (fun _ => Phrase.noConfusion) (fun tree => ?_) fun g' plain tree same => ?_
  · cases tree
    rwa [treesOf_eq, ne_eq, List.map_eq_nil_iff]
  cases g' with
  | group e => exact absurd rfl (plain e)
  | index target gs' =>
    simp only [Phrase.tree, treesOf_eq, Expr.index.injEq] at tree
    simp only [tokens, tokensOf_eq] at same
    have some' : gs' ≠ [] := by
      rintro rfl
      exact some (List.map_eq_nil_iff.mp tree.2)
    obtain ⟨us, first⟩ := brackets_of_ne_nil some
    obtain ⟨us', first'⟩ := brackets_of_ne_nil some'
    have before : g.tokens = target.tokens := by
      rw [first, first'] at same
      exact (eq_of_words same (words_eq tree.1) rfl rfl).1
    rw [before, List.append_cancel_left_eq] at same
    rw [settled target tree.1 before,
      (eq_of_brackets indices tree.2 (congrArg (· ++ []) same)).1]
  | _ => cases tree

theorem Settled.unary (op : UnaryOp) (settled : g.Settled) : (unary op g).Settled := by
  refine .of_plain (fun _ => Phrase.noConfusion) nofun fun g' plain tree same => ?_
  cases g' with
  | group e => exact absurd rfl (plain e)
  | unary op' e =>
    simp only [Phrase.tree, Expr.unary.injEq] at tree
    rw [tree.1, settled e tree.2 (List.cons.inj same).2]
  | _ => cases tree

theorem Settled.binary (op : BinaryOp) {l r : Phrase} (left : l.Settled) (right : r.Settled) :
    (binary op l r).Settled := by
  refine .of_plain (fun _ => Phrase.noConfusion) nofun fun g' plain tree same => ?_
  cases g' with
  | group e => exact absurd rfl (plain e)
  | binary op' l' r' =>
    simp only [Phrase.tree, Expr.binary.injEq] at tree
    obtain ⟨before, after⟩ :=
      eq_of_words same (words_eq tree.2.1) op.isParen_token op'.isParen_token
    rw [tree.1, left l' tree.2.1 before, right r' tree.2.2 (List.cons.inj after).2]
  | _ => cases tree

theorem Settled.group (settled : g.Settled)
    (indexed : ∀ {target indices}, g.tree = .index target indices → indices ≠ []) :
    (group g).Settled := by
  intro g' tree same
  by_cases grouped : ∃ e, g' = .group e
  · obtain ⟨e, rfl⟩ := grouped
    rw [settled e tree (List.cons.inj (List.append_cancel_right same)).2]
  · have plain : g'.Plain := fun e here => grouped ⟨e, here⟩
    exact absurd same (tokens_ne_group tree plain fun index => indexed (Eq.trans tree index))

theorem Proper.indexed (proper : g.Proper) {target : Expr} {indices : List Expr}
    (tree : g.tree = .index target indices) : indices ≠ [] := by
  induction proper with
  | group _ ih => exact ih tree
  | index _ some _ _ _ _ =>
    cases tree
    rwa [treesOf_eq, ne_eq, List.map_eq_nil_iff]
  | _ => cases tree

theorem Proper.settled (proper : g.Proper) : g.Settled := by
  induction proper with
  | literal l => exact settled_literal l
  | name x => exact settled_name x
  | call f _ ih => exact settled_call f ih
  | list _ ih => exact settled_list ih
  | tuple _ _ ih => exact settled_tuple ih
  | group proper ih => exact ih.group proper.indexed
  | field n _ _ ih => exact ih.field n
  | index _ some _ _ ih ihs => exact ih.index some ihs
  | unary _ _ ih => exact ih.unary _
  | binary _ _ _ _ left right => exact left.binary _ right

end Phrase

namespace Clause

variable {cs cs' : List Clause} {us us' : List Token}

theorem eq_of_braced (each : ∀ c ∈ cs, Delimited tree tokens c) (trees : cs.map tree = cs'.map tree)
    (same : braced (cs.flatMap tokens) ++ us = braced (cs'.flatMap tokens) ++ us') :
    cs = cs' ∧ us = us' := by
  simp only [braced, List.append_assoc, List.cons_append, List.nil_append, List.cons.injEq,
    true_and] at same
  obtain ⟨rfl, after⟩ := eq_of_delimited each trees same
  exact ⟨rfl, (List.cons.inj after).2⟩

theorem delimited_print {e : Phrase} (settled : e.Settled) : Delimited tree tokens (print e) := by
  intro c' us us' tree same
  cases c' with
  | print e' =>
    simp only [Clause.tree, Stmt.print.injEq] at tree
    simp only [tokens, List.append_assoc, List.cons_append, List.nil_append, List.cons.injEq,
      true_and] at same
    obtain ⟨before, after⟩ := eq_of_closed same (Phrase.words_eq tree) rfl rfl
    rw [settled e' tree before]
    exact ⟨rfl, (List.cons.inj after).2⟩
  | _ => cases tree

theorem delimited_restate (x : Name) : Delimited tree tokens (restate x) := by
  intro c' us us' tree same
  cases c' with
  | restate y =>
    cases tree
    exact ⟨rfl, List.append_cancel_left same⟩
  | assign y e => cases (List.cons.inj (List.cons.inj same).2).1
  | _ => cases tree

theorem delimited_assign (x : Name) {e : Phrase} (settled : e.Settled) :
    Delimited tree tokens (assign x e) := by
  intro c' us us' tree same
  cases c' with
  | restate y => cases (List.cons.inj (List.cons.inj same).2).1
  | assign y e' =>
    simp only [Clause.tree, Stmt.assign.injEq] at tree
    simp only [tokens, List.append_assoc, List.cons_append, List.nil_append, List.cons.injEq,
      true_and] at same
    obtain ⟨before, after⟩ := eq_of_words same.2 (Phrase.words_eq tree.2) rfl rfl
    rw [tree.1, settled e' tree.2 before]
    exact ⟨rfl, (List.cons.inj after).2⟩
  | _ => cases tree

theorem delimited_assignAt (x : Name) {indices : List Phrase} {e : Phrase}
    (each : ∀ g ∈ indices, g.Settled) (settled : e.Settled) :
    Delimited tree tokens (assignAt x indices e) := by
  intro c' us us' tree same
  cases c' with
  | assignAt y indices' e' =>
    simp only [Clause.tree, Stmt.assignAt.injEq] at tree
    simp only [tokens, List.append_assoc, List.cons_append, List.nil_append,
      List.cons.injEq] at same
    obtain ⟨rfl, rest⟩ := Phrase.eq_of_brackets each tree.2.1 same.2
    obtain ⟨before, after⟩ :=
      eq_of_words (List.cons.inj rest).2 (Phrase.words_eq tree.2.2) rfl rfl
    rw [tree.1, settled e' tree.2.2 before]
    exact ⟨rfl, (List.cons.inj after).2⟩
  | _ => cases tree

theorem delimited_block (each : ∀ c ∈ cs, Delimited tree tokens c) :
    Delimited tree tokens (block cs) := by
  intro c' us us' tree same
  cases c' with
  | block body =>
    simp only [Clause.tree, treesOf_eq, Stmt.block.injEq] at tree
    simp only [tokens, tokensOf_eq] at same
    obtain ⟨rfl, after⟩ := eq_of_braced each tree same
    exact ⟨rfl, after⟩
  | _ => cases tree

theorem eq_of_guarded {cond cond' : Phrase} (settled : cond.Settled)
    (each : ∀ c ∈ cs, Delimited tree tokens c) (conds : cond.tree = cond'.tree)
    (trees : cs.map tree = cs'.map tree)
    (same : cond.tokens ++ .fixed .rparen :: (braced (cs.flatMap tokens) ++ us) =
      cond'.tokens ++ .fixed .rparen :: (braced (cs'.flatMap tokens) ++ us')) :
    cond = cond' ∧ cs = cs' ∧ us = us' := by
  obtain ⟨before, rest⟩ := eq_of_closed same (Phrase.words_eq conds) rfl rfl
  exact ⟨settled cond' conds before, eq_of_braced each trees rest⟩

theorem delimited_ifThen {cond : Phrase} (settled : cond.Settled)
    (each : ∀ c ∈ cs, Delimited tree tokens c) : Delimited tree tokens (ifThen cond cs) := by
  intro c' us us' tree same
  cases c' with
  | ifThen cond' body =>
    simp only [Clause.tree, treesOf_eq, Stmt.ifThen.injEq] at tree
    simp only [tokens, tokensOf_eq, List.append_assoc, List.cons_append, List.nil_append,
      List.cons.injEq, true_and] at same
    obtain ⟨rfl, rfl, after⟩ := eq_of_guarded settled each tree.1 tree.2 same
    exact ⟨rfl, after⟩
  | _ => cases tree

theorem delimited_ifElse {cond : Phrase} {other : List Clause} (settled : cond.Settled)
    (each : ∀ c ∈ cs, Delimited tree tokens c) (each' : ∀ c ∈ other, Delimited tree tokens c) :
    Delimited tree tokens (ifElse cond cs other) := by
  intro c' us us' tree same
  cases c' with
  | ifElse cond' body other' =>
    simp only [Clause.tree, treesOf_eq, Stmt.ifElse.injEq] at tree
    simp only [tokens, tokensOf_eq, List.append_assoc, List.cons_append, List.nil_append,
      List.cons.injEq, true_and] at same
    obtain ⟨rfl, rfl, rest⟩ := eq_of_guarded settled each tree.1 tree.2.1 same
    obtain ⟨rfl, after⟩ := eq_of_braced each' tree.2.2 (List.cons.inj rest).2
    exact ⟨rfl, after⟩
  | _ => cases tree

theorem delimited_loop {cond : Phrase} (settled : cond.Settled)
    (each : ∀ c ∈ cs, Delimited tree tokens c) : Delimited tree tokens (loop cond cs) := by
  intro c' us us' tree same
  cases c' with
  | loop cond' body =>
    simp only [Clause.tree, treesOf_eq, Stmt.loop.injEq] at tree
    simp only [tokens, tokensOf_eq, List.append_assoc, List.cons_append, List.nil_append,
      List.cons.injEq, true_and] at same
    obtain ⟨rfl, rfl, after⟩ := eq_of_guarded settled each tree.1 tree.2 same
    exact ⟨rfl, after⟩
  | _ => cases tree

theorem delimited_call (f : Name) {args : List Phrase} (each : ∀ g ∈ args, g.Settled) :
    Delimited tree tokens (call f args) := by
  intro c' us us' tree same
  cases c' with
  | call f' args' =>
    simp only [Clause.tree, Stmt.call.injEq] at tree
    simp only [tokens, List.append_assoc, List.cons_append, List.nil_append, List.cons.injEq,
      true_and] at same
    have alike : words (separated (args.map Phrase.tokens)) =
        words (separated (args'.map Phrase.tokens)) := by
      rw [words_separated, words_separated, Phrase.words_map_eq tree.2]
    obtain ⟨before, after⟩ := eq_of_closed same.2 alike rfl rfl
    rw [tree.1, Phrase.eq_of_separated each tree.2 before]
    exact ⟨rfl, (List.cons.inj after).2⟩
  | _ => cases tree

theorem Proper.delimited {c : Clause} (proper : c.Proper) : Delimited tree tokens c := by
  induction proper with
  | print value => exact delimited_print value.settled
  | restate x => exact delimited_restate x
  | assign x value => exact delimited_assign x value.settled
  | assignAt x _ indices value =>
    exact delimited_assignAt x (fun g listed => (indices g listed).settled) value.settled
  | block _ ih => exact delimited_block ih
  | ifThen cond _ ih => exact delimited_ifThen cond.settled ih
  | ifElse cond _ _ ih ih' => exact delimited_ifElse cond.settled ih ih'
  | loop cond _ ih => exact delimited_loop cond.settled ih
  | call f args => exact delimited_call f fun g listed => (args g listed).settled

end Clause

theorem Definition.Proper.delimited {d : Definition} (proper : d.Proper) :
    Delimited tree tokens d := by
  intro d' us us' tree same
  obtain ⟨f, params, body, result⟩ := d
  obtain ⟨f', params', body', result'⟩ := d'
  simp only [Definition.tree, Function.mk.injEq] at tree
  obtain ⟨rfl, rfl, bodies, results⟩ := tree
  simp only [tokens, List.append_assoc, List.append_cancel_left_eq] at same
  obtain ⟨rfl, rest⟩ :=
    Clause.eq_of_braced (fun c listed => (proper.body c listed).delimited) bodies same
  obtain ⟨before, after⟩ := eq_of_words rest (Phrase.words_eq results) rfl rfl
  cases proper.result.settled result' results before
  exact ⟨rfl, (List.cons.inj after).2⟩

theorem Script.Proper.eq_of_tokens {g g' : Script} (proper : g.Proper) (tree : g.tree = g'.tree)
    (same : g.tokens = g'.tokens) : g = g' := by
  obtain ⟨ds, main⟩ := g
  obtain ⟨ds', main'⟩ := g'
  simp only [Script.tree, Program.mk.injEq] at tree
  obtain ⟨rfl, rest⟩ :=
    eq_of_delimited (fun d listed => (proper.definitions d listed).delimited) tree.1 same
  obtain ⟨rfl, _⟩ := Clause.eq_of_braced (fun c listed => (proper.main c listed).delimited) tree.2
    (congrArg (· ++ []) rest)
  rfl

end Scriptlet
