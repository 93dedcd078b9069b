import Scriptlet.Proofs.Grammar.Acceptance
import Scriptlet.Proofs.Grammar.Spelling

namespace Scriptlet

namespace Parser

/-- What the operand is once the operators that bind it more tightly have taken it. -/
theorem Operators.reduce {ps : List Pending} {ts : List Token} (spelt : Operators ps ts)
    {g : Phrase} (level : Nat) (proper : g.Proper) (stands : ∀ p ∈ ps.head?, g.Stands p.floor)
    (yields : g.Yields level) :
    ∃ us, ∃ g' : Phrase, Operators (reduce level ps g.tree).1 us ∧
      g'.Writes (reduce level ps g.tree).2 ∧
      (∀ p ∈ (reduce level ps g.tree).1.head?, p.floor ≤ level) ∧ g'.Yields level ∧
      us ++ g'.tokens = ts ++ g.tokens := by
  induction spelt generalizing g with
  | nil => exact ⟨[], g, .nil, ⟨proper, rfl⟩, by simp [Parser.reduce], yields, rfl⟩
  | @unary op ps ts spelt ih =>
    by_cases keep : (Pending.unary op).floor ≤ level
    · rw [Parser.reduce, if_pos keep]
      exact ⟨_, g, spelt.unary op, ⟨proper, rfl⟩, by simpa using keep, yields, rfl⟩
    · rw [Parser.reduce, if_neg keep]
      have fits : g.Stands op.floor := stands _ rfl
      have taken := ih (g := .unary op g) (.unary fits proper) (fun _ _ => True.intro)
        ⟨Nat.lt_of_not_le keep, yields⟩
      simpa only [Phrase.tree, Phrase.tokens, Pending.apply, List.append_assoc,
        List.singleton_append] using taken
  | @binary op l ps ts spelt weaker leftProper leftYields ih =>
    by_cases keep : (Pending.binary l.tree op).floor ≤ level
    · rw [Parser.reduce, if_pos keep]
      exact ⟨_, g, spelt.binary weaker leftProper leftYields, ⟨proper, rfl⟩, by simpa using keep,
        yields, rfl⟩
    · rw [Parser.reduce, if_neg keep]
      have fits : g.Stands op.floor := stands _ rfl
      have taken := ih (g := .binary op l g) (.binary leftYields fits leftProper proper)
        weaker ⟨Nat.lt_of_not_le keep, yields⟩
      simpa only [Phrase.tree, Phrase.tokens, Pending.apply, List.append_assoc,
        List.singleton_append] using taken

theorem Operators.close {ps : List Pending} {ts : List Token} (spelt : Operators ps ts)
    {g : Phrase} (proper : g.Proper) (stands : ∀ p ∈ ps.head?, g.Stands p.floor) :
    ∃ g' : Phrase, g'.Writes (close ps g.tree) ∧ g'.tokens = ts ++ g.tokens := by
  induction spelt generalizing g with
  | nil => exact ⟨g, ⟨proper, rfl⟩, rfl⟩
  | @unary op ps ts spelt ih =>
    have fits : g.Stands op.floor := stands _ rfl
    have taken := ih (g := .unary op g) (.unary fits proper) (fun _ _ => True.intro)
    simpa only [Phrase.tree, Phrase.tokens, Parser.close, List.foldl_cons, Pending.apply,
      List.append_assoc, List.singleton_append] using taken
  | @binary op l ps ts spelt weaker leftProper leftYields ih =>
    have fits : g.Stands op.floor := stands _ rfl
    have taken := ih (g := .binary op l g) (.binary leftYields fits leftProper proper) weaker
    simpa only [Phrase.tree, Phrase.tokens, Parser.close, List.foldl_cons, Pending.apply,
      List.append_assoc, List.singleton_append] using taken

theorem yields_of_isAtom {g : Phrase} (atom : g.isAtom) (level : Nat) : g.Yields level := by
  cases g <;> first | exact True.intro | cases atom

theorem stands_of_isAtom {g : Phrase} (atom : g.isAtom) (floor : Nat) : g.Stands floor := by
  cases g <;> first | exact True.intro | cases atom

theorem Focus.Spelt.operand {focus : Focus} {ts : List Token} (spelt : focus.Spelt ts) :
    ∃ g : Phrase, g.Writes focus.expr ∧ g.tokens = ts ∧ (∀ level, g.Yields level) ∧
      ∀ floor, g.Stands floor := by
  cases focus with
  | name x => exact ⟨.name x, ⟨.name x, rfl⟩, spelt.symm, fun _ => True.intro, fun _ => True.intro⟩
  | atom e =>
    obtain ⟨g, writes, atom, rfl⟩ := spelt
    exact ⟨g, writes, rfl, yields_of_isAtom atom, stands_of_isAtom atom⟩
  | indexed target indices =>
    obtain ⟨g, gs, writes, atom, phrases, ne, rfl⟩ := spelt
    refine ⟨.index g gs, ⟨.index atom (phrases.ne_nil ne) writes.proper phrases.proper, ?_⟩, ?_,
      fun _ => True.intro, fun _ => True.intro⟩
    · rw [Phrase.tree, Phrase.treesOf_eq, writes.tree, Focus.expr, phrases.reverse]
    · rw [Phrase.tokens, Phrase.tokensOf_eq]

theorem Focus.Spelt.target {focus : Focus} {ts : List Token} (spelt : focus.Spelt ts) :
    ∃ g : Phrase, ∃ gs, g.Writes focus.target.1 ∧ g.isAtom ∧ Phrases focus.target.2 gs ∧
      ts = g.tokens ++ (gs.map Phrase.tokens).flatMap bracketed := by
  cases focus with
  | name x =>
    refine ⟨.name x, [], ⟨.name x, rfl⟩, rfl, .nil, ?_⟩
    rw [spelt, Phrase.tokens, List.map_nil, List.flatMap_nil, List.append_nil]
  | atom e =>
    obtain ⟨g, writes, atom, rfl⟩ := spelt
    exact ⟨g, [], writes, atom, .nil, by simp⟩
  | indexed target indices =>
    obtain ⟨g, gs, writes, atom, phrases, _, rfl⟩ := spelt
    exact ⟨g, gs, writes, atom, phrases, rfl⟩

theorem separated_concat_phrase (gs : List Phrase) (g : Phrase) :
    separated ((gs ++ [g]).map Phrase.tokens) = listed (gs.map Phrase.tokens) ++ g.tokens := by
  rw [List.map_append, List.map_singleton, separated_concat, listed]

theorem listed_concat_phrase (gs : List Phrase) (g : Phrase) :
    listed ((gs ++ [g]).map Phrase.tokens) =
      listed (gs.map Phrase.tokens) ++ g.tokens ++ [Token.fixed .comma] := by
  simp [listed]

theorem bracketed_concat_phrase (gs : List Phrase) (g : Phrase) :
    ((gs ++ [g]).map Phrase.tokens).flatMap bracketed =
      (gs.map Phrase.tokens).flatMap bracketed ++ [Token.fixed .lbracket] ++ g.tokens ++
        [Token.fixed .rbracket] := by
  simp [bracketed]

theorem Under.start {outer : List Token → Prop} {ts : List Token} (h : outer ts) :
    Under outer [] ts := ⟨ts, [], h, .nil, (List.append_nil ts).symm⟩

theorem withField_spelt {field : Option Int64} {e : Expr} {us rest ts : List Token}
    {c : ExprContext} {ps : List Pending} (under : Under c.Spelt ps us) {g : Phrase}
    (writes : g.Writes e) (target : g.isTarget) (tokens : g.tokens = .fixed .lparen :: rest)
    (eq : ts = us ++ opened field ++ rest) :
    (State.operator (.atom (withField field e)) ps c).Spelt ts := by
  have atom : g.isAtom := by cases g <;> first | rfl | cases target
  cases field with
  | none =>
    refine ⟨us, g.tokens, under, ⟨g, writes, atom, rfl⟩, ?_⟩
    rw [eq, tokens, List.append_assoc]
    rfl
  | some n =>
    have field : (Phrase.field n g).Writes (.field n e) :=
      ⟨.field n target writes.proper, by rw [Phrase.tree, writes.tree]⟩
    refine ⟨us, _, under, ⟨_, field, rfl, rfl⟩, ?_⟩
    rw [eq, Phrase.tokens, tokens, List.append_assoc]
    rfl

theorem writes_group {e : Expr} {g : Phrase} (writes : g.Writes e) : (Phrase.group g).Writes e :=
  ⟨.group writes.proper, by rw [Phrase.tree, writes.tree]⟩

theorem writes_tuple {items : List Expr} {gs : List Phrase} (phrases : Phrases items gs)
    (ne : items ≠ []) : (Phrase.tuple gs).Writes (.tuple items.reverse) :=
  ⟨.tuple (phrases.ne_nil ne) phrases.proper, by
    rw [Phrase.tree, Phrase.treesOf_eq, phrases.reverse]⟩

theorem writes_list {items : List Expr} {gs : List Phrase} (phrases : Phrases items gs) :
    (Phrase.list gs).Writes (.list items.reverse) :=
  ⟨.list phrases.proper, by rw [Phrase.tree, Phrase.treesOf_eq, phrases.reverse]⟩

theorem writes_call (f : Name) {args : List Expr} {gs : List Phrase} (phrases : Phrases args gs) :
    (Phrase.call f gs).Writes (.call f args.reverse) :=
  ⟨.call f phrases.proper, by rw [Phrase.tree, Phrase.treesOf_eq, phrases.reverse]⟩

theorem stepClosing_spelt {e : Expr} {c : ExprContext} {t : Token} {s : State} {ts : List Token}
    (h : stepClosing e c t = some s) (spelt : c.Spelt ts) {g : Phrase} (writes : g.Writes e) :
    s.Spelt (ts ++ g.tokens ++ [t]) := by
  obtain ⟨proper, rfl⟩ := writes
  unfold stepClosing at h
  split at h <;> cases h
  · obtain ⟨bs, block, rfl⟩ := spelt
    exact ⟨bs, .print g, block, .print proper, rfl, by simp [Clause.tokens]⟩
  · obtain ⟨bs, block, rfl⟩ := spelt
    exact block.add (c := .assign _ g) (.assign _ proper) (by simp [Clause.tokens])
  · obtain ⟨bs, gs, block, phrases, rfl⟩ := spelt
    refine ⟨bs, gs ++ [g], block, phrases.concat proper, by simp, ?_⟩
    rw [bracketed_concat_phrase]
    simp only [List.append_assoc]
  · obtain ⟨bs, gs, block, phrases, ne, rfl⟩ := spelt
    rw [phrases.reverse]
    exact block.add (c := .assignAt _ gs g) (.assignAt _ (phrases.ne_nil ne) phrases.proper proper)
      (by simp [Clause.tokens])
  · obtain ⟨bs, gs, block, phrases, rfl⟩ := spelt
    refine .start ⟨bs, gs ++ [g], block, phrases.concat proper, ?_⟩
    rw [listed_concat_phrase]
    simp only [List.append_assoc]
  · obtain ⟨bs, gs, block, phrases, rfl⟩ := spelt
    have all := phrases.concat proper
    refine ⟨bs, .call _ (gs ++ [g]), block, .call _ all.proper, by rw [all.reverse]; rfl, ?_⟩
    rw [Clause.tokens, separated_concat_phrase]
    simp
  · obtain ⟨bs, block, rfl⟩ := spelt
    exact ⟨bs, g, block, ⟨proper, rfl⟩, by simp⟩
  · obtain ⟨bs, block, rfl⟩ := spelt
    exact ⟨bs, g, block, ⟨proper, rfl⟩, by simp⟩
  · rename_i h body
    obtain ⟨hs, cs, ⟨ds, definitions, rfl⟩, clauses, rfl⟩ := spelt
    let d : Definition := ⟨h.name, h.params.reverse, cs, g⟩
    have tree : d.tree = ⟨h.name, h.params.reverse, body, g.tree⟩ := by
      rw [Definition.tree, ← clauses.reverse, List.reverse_reverse]
    refine ⟨ds ++ [d], tree ▸ definitions.concat (x := d) ⟨clauses.proper, proper⟩, ?_⟩
    simp [Definition.tokens, d, Header.parts]
  · obtain ⟨us, under, rfl⟩ := spelt
    refine withField_spelt under (writes_group ⟨proper, rfl⟩) rfl rfl ?_
    simp
  · obtain ⟨us, under, rfl⟩ := spelt
    exact ⟨us, g, under, ⟨proper, rfl⟩, rfl⟩
  · obtain ⟨us, gs, under, phrases, _, rfl⟩ := spelt
    refine .start ⟨us, gs ++ [g], under, phrases.concat proper, by simp, ?_⟩
    rw [listed_concat_phrase]
    simp only [List.append_assoc]
  · obtain ⟨us, gs, under, phrases, ne, rfl⟩ := spelt
    have all := phrases.concat proper
    have several : (gs ++ [g]).length ≠ 1 := by
      have := List.length_pos_iff.mpr (phrases.ne_nil ne)
      rw [List.length_append, List.length_singleton]
      omega
    refine withField_spelt under (writes_tuple all (by simp)) rfl
      (by rw [Phrase.tokens, if_neg several]; rfl) ?_
    rw [Phrase.tokensOf_eq, separated_concat_phrase]
    simp
  · obtain ⟨us, gs, under, phrases, rfl⟩ := spelt
    refine .start ⟨us, gs ++ [g], under, phrases.concat proper, ?_⟩
    rw [listed_concat_phrase]
    simp only [List.append_assoc]
  · obtain ⟨us, gs, under, phrases, rfl⟩ := spelt
    refine ⟨us, _, under, ⟨_, writes_list (phrases.concat proper), rfl, rfl⟩, ?_⟩
    rw [Phrase.tokens, Phrase.tokensOf_eq, separated_concat_phrase]
    simp
  · obtain ⟨us, gs, under, phrases, rfl⟩ := spelt
    refine .start ⟨us, gs ++ [g], under, phrases.concat proper, ?_⟩
    rw [listed_concat_phrase]
    simp only [List.append_assoc]
  · obtain ⟨us, gs, under, phrases, rfl⟩ := spelt
    refine ⟨us, _, under, ⟨_, writes_call _ (phrases.concat proper), rfl, rfl⟩, ?_⟩
    rw [Phrase.tokens, Phrase.tokensOf_eq, separated_concat_phrase]
    simp
  · obtain ⟨us, target, gs, under, writes, atom, phrases, rfl⟩ := spelt
    refine ⟨us, _, under, ⟨target, gs ++ [g], writes, atom, phrases.concat proper, by simp, rfl⟩, ?_⟩
    rw [bracketed_concat_phrase]
    simp only [List.append_assoc]

theorem stepOperand_spelt {ps : List Pending} {c : ExprContext} {t : Token} {s : State}
    {ts : List Token} (h : stepOperand ps c t = some s) (spelt : Under c.Spelt ps ts) :
    s.Spelt (ts ++ [t]) := by
  have literal (l : Literal) :
      (State.operator (.atom (.literal l)) ps c).Spelt (ts ++ [l.token]) :=
    ⟨ts, [l.token], spelt, ⟨.literal l, ⟨.literal l, rfl⟩, rfl, rfl⟩, rfl⟩
  obtain ⟨os, us, outer, operators, rfl⟩ := spelt
  have pending (op : UnaryOp) :
      (State.operand (.unary op :: ps) c).Spelt (os ++ us ++ [Token.fixed op.token]) :=
    ⟨os, us ++ [Token.fixed op.token], outer, .unary op operators, by rw [List.append_assoc]⟩
  have spelt : Under c.Spelt ps (os ++ us) := ⟨os, us, outer, operators, rfl⟩
  cases t with
  | int n => cases h; exact literal (.int n)
  | real x => cases h; exact literal (.real x)
  | str s => cases h; exact literal (.str s)
  | name x => cases h; exact ⟨_, _, spelt, rfl, rfl⟩
  | fixed f =>
    cases f with
    | trueWord => cases h; exact literal (.bool true)
    | falseWord => cases h; exact literal (.bool false)
    | not => cases h; exact pending .not
    | minus => cases h; exact pending .neg
    | lbracket => cases h; exact ⟨_, spelt, rfl⟩
    | lparen => cases h; exact ⟨_, [], ⟨_, spelt, rfl⟩, .nil, by rw [List.append_nil]; rfl⟩
    | hash => cases h; exact ⟨_, spelt, rfl⟩
    | _ => cases h

theorem stepInfix_spelt {focus : Focus} {ps : List Pending} {c : ExprContext} {t : Token}
    {s : State} {us fs : List Token} (h : stepInfix focus.expr ps c t = some s)
    (under : Under c.Spelt ps us) (spelt : focus.Spelt fs) : s.Spelt (us ++ fs ++ [t]) := by
  obtain ⟨g, ⟨proper, tree⟩, rfl, yields, stands⟩ := spelt.operand
  obtain ⟨os, us, outer, operators, rfl⟩ := under
  rw [← tree] at h
  unfold stepInfix at h
  split at h
  · split at h
    · rename_i f _ op operator
      obtain ⟨vs, l, operators, ⟨left, eq⟩, weaker, yields, tokens⟩ :=
        operators.reduce op.level proper (fun p _ => stands p.floor) (yields op.level)
      cases h
      refine ⟨os, vs ++ l.tokens ++ [Token.fixed f], outer, ?_, ?_⟩
      · rw [← eq, ← BinaryOp.token_of_binaryOp? operator]
        exact .binary operators weaker left yields
      · rw [tokens]
        simp only [List.append_assoc]
    · obtain ⟨e, writes, tokens⟩ := operators.close proper (fun p _ => stands p.floor)
      have closed := stepClosing_spelt h outer writes
      rw [tokens] at closed
      simpa only [List.append_assoc] using closed
  · cases h

theorem stepOperator_spelt {focus : Focus} {ps : List Pending} {c : ExprContext} {t : Token}
    {s : State} {us fs : List Token} (h : stepOperator focus ps c t = some s)
    (under : Under c.Spelt ps us) (spelt : focus.Spelt fs) : s.Spelt (us ++ fs ++ [t]) := by
  unfold stepOperator at h
  split at h
  · cases h
    subst spelt
    exact ⟨us, under, by simp⟩
  · obtain ⟨g, gs, writes, atom, phrases, rfl⟩ := spelt.target
    cases h
    exact .start ⟨us, g, gs, under, writes, atom, phrases, by simp only [List.append_assoc]⟩
  · exact stepInfix_spelt h under spelt

theorem endBlock_spelt {b : OpenBlock} {ts : List Token} (spelt : b.Spelt ts) :
    (endBlock b.read.reverse b.outer).Spelt (ts ++ [Token.fixed .rbrace]) := by
  obtain ⟨read, outer⟩ := b
  obtain ⟨os, cs, start, clauses, rfl⟩ := spelt
  have kept : Clauses read.reverse.reverse cs := by rwa [List.reverse_reverse]
  cases outer with
  | main fs =>
    obtain ⟨ds, definitions, rfl⟩ := start
    refine ⟨⟨ds, cs⟩, ⟨definitions.proper, clauses.proper⟩, ?_, ?_⟩
    · rw [Script.tree, definitions.reverse, clauses.reverse]
    · simp [Script.tokens, Clause.braced]
  | body h =>
    obtain ⟨hs, header, rfl⟩ := start
    exact .start ⟨hs, cs, header, kept, by simp [Clause.braced]⟩
  | nested before outer =>
    obtain ⟨bs, within, rfl⟩ := start
    rw [clauses.reverse]
    have tree : (Clause.block cs).tree = .block (cs.map Clause.tree) := by
      rw [Clause.tree, Clause.treesOf_eq]
    rw [endBlock, ← tree]
    exact OpenBlock.Spelt.add (b := ⟨before, outer⟩) within (.block clauses.proper)
      (by simp [Clause.tokens, Clause.braced])
  | then_ cond before outer =>
    obtain ⟨bs, g, within, writes, rfl⟩ := start
    exact ⟨bs, g, cs, within, writes, kept, by simp [Clause.tokens, Clause.braced]⟩
  | else_ cond first before outer =>
    obtain ⟨bs, g, cs₁, within, ⟨proper, rfl⟩, clauses₁, rfl⟩ := start
    have tree : (Clause.ifElse g cs₁ cs).tree = .ifElse g.tree first (cs.map Clause.tree) := by
      rw [Clause.tree, Clause.treesOf_eq, Clause.treesOf_eq, ← clauses₁.reverse, List.reverse_reverse]
    rw [clauses.reverse, endBlock, ← tree]
    exact OpenBlock.Spelt.add (b := ⟨before, outer⟩) within
      (.ifElse proper clauses₁.proper clauses.proper) (by simp [Clause.tokens, Clause.braced])
  | loop cond before outer =>
    obtain ⟨bs, g, within, ⟨proper, rfl⟩, rfl⟩ := start
    have tree : (Clause.loop g cs).tree = .loop g.tree (cs.map Clause.tree) := by
      rw [Clause.tree, Clause.treesOf_eq]
    rw [clauses.reverse, endBlock, ← tree]
    exact OpenBlock.Spelt.add (b := ⟨before, outer⟩) within (.loop proper clauses.proper)
      (by simp [Clause.tokens, Clause.braced])

theorem stepStatement_spelt {b : OpenBlock} {t : Token} {s : State} {ts : List Token}
    (h : stepStatement b t = some s) (spelt : b.Spelt ts) : s.Spelt (ts ++ [t]) := by
  unfold stepStatement at h
  split at h <;> cases h
  · exact endBlock_spelt spelt
  · exact .empty ⟨ts, spelt, rfl⟩
  · exact ⟨ts, spelt, rfl⟩
  · exact ⟨ts, spelt, rfl⟩
  · exact ⟨ts, spelt, rfl⟩
  · exact ⟨ts, spelt, rfl⟩

theorem separated_parts {h : Header} {x : Name} :
    separated (Header.parts ⟨h.functions, h.name, x :: h.params⟩) =
      listed h.parts ++ [Token.name x] := by
  rw [Header.parts, List.reverse_cons, List.map_append, List.map_singleton, separated_concat]
  rfl

theorem listed_parts {h : Header} (ne : h.params ≠ []) :
    listed h.parts = separated h.parts ++ [Token.fixed .comma] := by
  obtain ⟨fs, f, params⟩ := h
  cases params with
  | nil => exact absurd rfl ne
  | cons x params =>
    rw [separated_parts (h := ⟨fs, f, params⟩)]
    simp [listed, Header.parts]

theorem step_spelt {s s' : State} {t : Token} {ts : List Token} (h : s.step t = some s')
    (spelt : s.Spelt ts) : s'.Spelt (ts ++ [t]) := by
  unfold State.step at h
  split at h <;> try cases h
  · obtain ⟨ds, definitions, rfl⟩ := spelt
    exact ⟨ds, definitions, rfl⟩
  · obtain ⟨ds, definitions, rfl⟩ := spelt
    exact .empty ⟨ds, definitions, rfl⟩
  · obtain ⟨ds, definitions, rfl⟩ := spelt
    exact ⟨ds, definitions, by simp⟩
  · obtain ⟨ds, definitions, rfl⟩ := spelt
    exact ⟨ds, definitions, by simp⟩
  · exact ⟨ts, spelt, by simp [Header.parts, separated]⟩
  · exact ⟨ts, spelt, by simp, by simp [Header.parts, separated]⟩
  · obtain ⟨hs, header, _, rfl⟩ := spelt
    refine ⟨hs, header, by simp, ?_⟩
    rw [separated_parts, List.append_assoc]
  · obtain ⟨hs, header, ne, rfl⟩ := spelt
    refine ⟨hs, header, ne, ?_⟩
    rw [listed_parts ne, List.append_assoc]
  · obtain ⟨hs, header, _, rfl⟩ := spelt
    exact ⟨hs, header, rfl⟩
  · obtain ⟨hs, header, rfl⟩ := spelt
    exact ⟨hs, header, by simp⟩
  · exact .empty spelt
  · exact stepStatement_spelt h spelt
  · obtain ⟨bs, g, cs, block, writes, clauses, rfl⟩ := spelt
    exact ⟨bs, g, cs, block, writes, clauses, by simp⟩
  · obtain ⟨bs, g, cs, block, ⟨proper, rfl⟩, clauses, rfl⟩ := spelt
    rename_i body _ _
    have tree : (Clause.ifThen g cs).tree = .ifThen g.tree body := by
      rw [Clause.tree, Clause.treesOf_eq, ← clauses.reverse, List.reverse_reverse]
    rw [← tree] at h
    exact stepStatement_spelt h (block.add (.ifThen proper clauses.proper) rfl)
  · obtain ⟨bs, block, rfl⟩ := spelt
    exact .start ⟨bs, block, by simp⟩
  · obtain ⟨bs, block, rfl⟩ := spelt
    exact .start ⟨bs, block, by simp⟩
  · obtain ⟨bs, block, rfl⟩ := spelt
    exact .start ⟨bs, block, by simp⟩
  · obtain ⟨bs, block, rfl⟩ := spelt
    exact .start ⟨bs, block, by simp⟩
  · obtain ⟨bs, block, rfl⟩ := spelt
    exact .start ⟨bs, [], block, .nil, by simp⟩
  · obtain ⟨bs, block, rfl⟩ := spelt
    exact ⟨bs, block, by simp⟩
  · obtain ⟨bs, block, rfl⟩ := spelt
    exact block.add (c := .restate _) (.restate _) (by simp [Clause.tokens])
  · obtain ⟨bs, gs, block, phrases, _, rfl⟩ := spelt
    exact .start ⟨bs, gs, block, phrases, rfl⟩
  · obtain ⟨bs, gs, block, phrases, ne, rfl⟩ := spelt
    exact .start ⟨bs, gs, block, phrases, ne, rfl⟩
  · obtain ⟨bs, block, rfl⟩ := spelt
    exact ⟨bs, .call _ [], block, .call _ (by simp), rfl, by simp [Clause.tokens, separated]⟩
  · obtain ⟨bs, block, rfl⟩ := spelt
    exact stepOperand_spelt h (.start ⟨bs, [], block, .nil, by simp [listed]⟩)
  · obtain ⟨bs, c, block, proper, rfl, tokens⟩ := spelt
    exact block.add proper tokens
  · exact stepOperand_spelt h spelt
  · obtain ⟨us, under, rfl⟩ := spelt
    exact ⟨us, _, under, ⟨_, writes_list .nil, rfl, rfl⟩, by simp [Phrase.tokens, separated]⟩
  · obtain ⟨us, under, rfl⟩ := spelt
    exact stepOperand_spelt h (.start ⟨us, [], under, .nil, by simp [listed]⟩)
  · obtain ⟨us, under, rfl⟩ := spelt
    exact ⟨us, _, under, ⟨_, writes_call _ .nil, rfl, rfl⟩, by simp [Phrase.tokens, separated]⟩
  · obtain ⟨us, under, rfl⟩ := spelt
    exact stepOperand_spelt h (.start ⟨us, [], under, .nil, by simp [listed]⟩)
  · obtain ⟨us, g, under, ⟨proper, rfl⟩, rfl⟩ := spelt
    exact withField_spelt under (writes_tuple (Written.nil.concat proper) (by simp)) rfl rfl
      (by simp [separated])
  · obtain ⟨us, g, under, ⟨proper, rfl⟩, rfl⟩ := spelt
    refine stepOperand_spelt h
      (.start ⟨us, [g], under, Written.nil.concat proper, by simp, by simp [listed]⟩)
  · obtain ⟨us, under, rfl⟩ := spelt
    exact ⟨us, under, by simp⟩
  · obtain ⟨us, under, rfl⟩ := spelt
    rename_i n _ _ x
    have writes : (Phrase.field n (.name x)).Writes (.field n (.var x)) :=
      ⟨.field n rfl (.name x), rfl⟩
    exact ⟨us, _, under, ⟨_, writes, rfl, rfl⟩, by simp [Phrase.tokens]⟩
  · obtain ⟨us, under, rfl⟩ := spelt
    exact .start ⟨us, under, by simp [opened]⟩
  · obtain ⟨us, fs, under, focus, rfl⟩ := spelt
    exact stepOperator_spelt h under focus

theorem steps_spelt {s s' : State} {ts us : List Token} (h : s.steps us = some s')
    (spelt : s.Spelt ts) : s'.Spelt (ts ++ us) := by
  induction us generalizing s ts with
  | nil =>
    cases h
    rwa [List.append_nil]
  | cons u us ih =>
    rw [steps_cons] at h
    cases next : s.step u with
    | none => rw [next] at h; cases h
    | some r =>
      rw [next] at h
      have rest := ih h (step_spelt next spelt)
      rwa [List.append_assoc] at rest

end Parser

theorem Program.written_of_ofTokens {ts : List Located} {p : Program} (read : ofTokens ts = .ok p) :
    ∃ g : Script, g.Proper ∧ g.tree = p ∧ g.tokens = ts.map Located.token := by
  have run := (ofTokens_eq_ok_iff ts p).mp read
  have start : (Parser.State.top []).Spelt [] := ⟨[], .nil, rfl⟩
  obtain ⟨g, proper, tree, tokens⟩ := Parser.steps_spelt run start
  exact ⟨g, proper, tree, tokens.symm⟩

/--
The reader reads exactly the words of the grammar, and what it returns is a way to write the text:
a script has the program's tree, the text's tokens and parentheses where it groups.
-/
theorem reads_iff_derives (ts : List Located) :
    ((∃ p, Program.ofTokens ts = .ok p) ↔ Derives .program (ts.map Located.token)) ∧
      ∀ p, Program.ofTokens ts = .ok p →
        ∃ g : Script, g.Proper ∧ g.tree = p ∧ g.tokens = ts.map Located.token := by
  refine ⟨⟨fun ⟨p, read⟩ => ?_, fun derives => ?_⟩, fun p => Program.written_of_ofTokens⟩
  · obtain ⟨g, proper, _, tokens⟩ := Program.written_of_ofTokens read
    exact tokens ▸ proper.derives
  · obtain ⟨p, run⟩ := Parser.accepts_of_derives derives
    exact ⟨p, (Program.ofTokens_eq_ok_iff ts p).mpr run⟩

end Scriptlet
