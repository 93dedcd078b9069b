import Scriptlet.Proofs.Grammar.Phrase

namespace Scriptlet

inductive Nonterminal where
  | program | function | block | statement | expr | primary | atom | tuple

/-- `Derives n ts`: the nonterminal `n` has the word `ts`. A repetition is a list of words. -/
inductive Derives : Nonterminal → List Token → Prop
  | program {functions : List (List Token)} {main : List Token} :
      (∀ ts ∈ functions, Derives .function ts) → Derives .block main →
      Derives .program (functions.flatten ++ main)
  | function (f : Name) (params : List Name) {body result : List Token} :
      Derives .block body → Derives .expr result →
      Derives .function ([.fixed .funWord, .name f, .fixed .lparen] ++
        separated (params.map ([.name ·])) ++ [.fixed .rparen, .fixed .assign] ++ body ++ result ++
        [.fixed .semicolon])
  | block {body : List (List Token)} : (∀ ts ∈ body, Derives .statement ts) →
      Derives .block ([.fixed .lbrace] ++ body.flatten ++ [.fixed .rbrace])
  | print {e : List Token} : Derives .expr e →
      Derives .statement ([.fixed .print, .fixed .lparen] ++ e ++ [.fixed .rparen, .fixed .semicolon])
  | restate (x : Name) : Derives .statement [.name x, .fixed .semicolon]
  | assign (x : Name) {indices : List (List Token)} {e : List Token} :
      (∀ ts ∈ indices, Derives .expr ts) → Derives .expr e →
      Derives .statement ([.name x] ++ indices.flatMap bracketed ++ [.fixed .assign] ++ e ++
        [.fixed .semicolon])
  | callStmt (f : Name) {args : List (List Token)} : (∀ ts ∈ args, Derives .expr ts) →
      Derives .statement ([.name f, .fixed .lparen] ++ separated args ++
        [.fixed .rparen, .fixed .semicolon])
  | loop {cond body : List Token} : Derives .expr cond → Derives .block body →
      Derives .statement ([.fixed .whileWord, .fixed .lparen] ++ cond ++ [.fixed .rparen] ++ body)
  | ifThen {cond body : List Token} : Derives .expr cond → Derives .block body →
      Derives .statement ([.fixed .ifWord, .fixed .lparen] ++ cond ++ [.fixed .rparen] ++ body)
  | ifElse {cond body other : List Token} : Derives .expr cond → Derives .block body →
      Derives .block other →
      Derives .statement ([.fixed .ifWord, .fixed .lparen] ++ cond ++ [.fixed .rparen] ++ body ++
        [.fixed .elseWord] ++ other)
  | nested {body : List Token} : Derives .block body → Derives .statement body
  | operand {e : List Token} : Derives .primary e → Derives .expr e
  | not {e : List Token} : Derives .expr e → Derives .expr ([.fixed .not] ++ e)
  | neg {e : List Token} : Derives .expr e → Derives .expr ([.fixed .minus] ++ e)
  | binary {l r : List Token} {f : Fixed} : f.binaryOp?.isSome → Derives .expr l → Derives .expr r →
      Derives .expr (l ++ [.fixed f] ++ r)
  | indexed {target : List Token} {indices : List (List Token)} : Derives .atom target →
      (∀ ts ∈ indices, Derives .expr ts) → Derives .primary (target ++ indices.flatMap bracketed)
  | literal (l : Literal) : Derives .atom [l.token]
  | name (x : Name) : Derives .atom [.name x]
  | call (f : Name) {args : List (List Token)} : (∀ ts ∈ args, Derives .expr ts) →
      Derives .atom ([.name f, .fixed .lparen] ++ separated args ++ [.fixed .rparen])
  | list {items : List (List Token)} : (∀ ts ∈ items, Derives .expr ts) →
      Derives .atom ([.fixed .lbracket] ++ separated items ++ [.fixed .rbracket])
  | group {e : List Token} : Derives .expr e →
      Derives .atom ([.fixed .lparen] ++ e ++ [.fixed .rparen])
  | tupleAtom {ts : List Token} : Derives .tuple ts → Derives .atom ts
  | fieldName (n : Int64) (x : Name) : Derives .atom [.fixed .hash, .int n, .name x]
  | fieldGroup (n : Int64) {e : List Token} : Derives .expr e →
      Derives .atom ([.fixed .hash, .int n, .fixed .lparen] ++ e ++ [.fixed .rparen])
  | fieldTuple (n : Int64) {ts : List Token} : Derives .tuple ts →
      Derives .atom ([.fixed .hash, .int n] ++ ts)
  | single {e : List Token} : Derives .expr e →
      Derives .tuple ([.fixed .lparen] ++ e ++ [.fixed .comma, .fixed .rparen])
  | several {items : List (List Token)} : 2 ≤ items.length → (∀ ts ∈ items, Derives .expr ts) →
      Derives .tuple ([.fixed .lparen] ++ separated items ++ [.fixed .rparen])

theorem Derives.expr_of_atom {ts : List Token} (atom : Derives .atom ts) : Derives .expr ts := by
  have primary : Derives .primary (ts ++ [].flatMap bracketed) := .indexed atom (by simp)
  rw [List.flatMap_nil, List.append_nil] at primary
  exact .operand primary

theorem derives_map {α : Type} {xs : List α} {n : Nonterminal} {tokens : α → List Token}
    (h : ∀ x ∈ xs, Derives n (tokens x)) : ∀ ts ∈ xs.map tokens, Derives n ts := by
  intro ts listed
  obtain ⟨x, member, rfl⟩ := List.mem_map.mp listed
  exact h x member

namespace Phrase

structure Derivable (g : Phrase) : Prop where
  expr : Derives .expr g.tokens
  atom : g.isAtom → Derives .atom g.tokens
  field : g.isTarget → ∀ n, Derives .atom ([.fixed .hash, .int n] ++ g.tokens)

theorem Derivable.of_atom {g : Phrase} (atom : Derives .atom g.tokens) (other : ¬ g.isTarget) :
    g.Derivable := ⟨atom.expr_of_atom, fun _ => atom, fun target => absurd target other⟩

theorem derives_tuple {items : List Phrase} (ne : items ≠ [])
    (h : ∀ g ∈ items, Derives .expr g.tokens) : Derives .tuple (tuple items).tokens := by
  match items, ne with
  | [e], _ => exact .single (h e List.mem_cons_self)
  | e :: e' :: rest, _ =>
    have several : Derives .tuple ([.fixed .lparen] ++ separated ((e :: e' :: rest).map tokens) ++
        [.fixed .rparen]) := .several (by simp) (derives_map h)
    simpa only [tokens, tokensOf_eq, List.length_cons, Nat.add_eq_right, Nat.add_eq_zero_iff,
      Nat.one_ne_zero, and_false, if_false] using several

theorem Proper.derivable {g : Phrase} (proper : g.Proper) : g.Derivable := by
  induction proper with
  | literal l => exact .of_atom (.literal l) (by simp [isTarget])
  | name x => exact ⟨(Derives.name x).expr_of_atom, fun _ => .name x, fun _ n => .fieldName n x⟩
  | call f _ ih =>
    refine .of_atom ?_ (by simp [isTarget])
    rw [tokens, tokensOf_eq]
    exact .call f (derives_map fun g h => (ih g h).expr)
  | list _ ih =>
    refine .of_atom ?_ (by simp [isTarget])
    rw [tokens, tokensOf_eq]
    exact .list (derives_map fun g h => (ih g h).expr)
  | tuple ne _ ih =>
    have tuple := derives_tuple ne fun g h => (ih g h).expr
    exact ⟨(Derives.tupleAtom tuple).expr_of_atom, fun _ => .tupleAtom tuple,
      fun _ n => .fieldTuple n tuple⟩
  | group _ ih =>
    have group := Derives.group ih.expr
    exact ⟨group.expr_of_atom, fun _ => group, fun _ n => .fieldGroup n ih.expr⟩
  | field n target _ ih => exact .of_atom (ih.field target n) (by simp [isTarget])
  | index atom ne _ _ target ih =>
    refine ⟨.operand ?_, by simp [isAtom], by simp [isTarget]⟩
    rw [tokens, tokensOf_eq]
    exact .indexed (target.atom atom) (derives_map fun g h => (ih g h).expr)
  | @unary op _ _ _ ih =>
    refine ⟨?_, by simp [isAtom], by simp [isTarget]⟩
    cases op with
    | not => exact .not ih.expr
    | neg => exact .neg ih.expr
  | @binary op l r _ _ _ _ left right =>
    refine ⟨?_, by simp [isAtom], by simp [isTarget]⟩
    have operator : op.token.binaryOp?.isSome := by rw [op.binaryOp?_token]; rfl
    simpa only [tokens, List.append_assoc, List.singleton_append] using
      Derives.binary operator left.expr right.expr

end Phrase

theorem Clause.derives_block {body : List Clause}
    (h : ∀ c ∈ body, Derives .statement c.tokens) :
    Derives .block (braced (body.flatMap tokens)) := by
  rw [List.flatMap_def]
  exact .block (derives_map h)

theorem Clause.Proper.derives {c : Clause} (proper : c.Proper) : Derives .statement c.tokens := by
  induction proper with
  | print e => exact .print e.derivable.expr
  | restate x => exact .restate x
  | assign x e =>
    have none : ∀ ts ∈ ([] : List (List Token)), Derives .expr ts := by simp
    exact .assign x none e.derivable.expr
  | assignAt x _ indices e =>
    exact .assign x (derives_map fun g h => (indices g h).derivable.expr) e.derivable.expr
  | block _ ih =>
    rw [tokens, tokensOf_eq]
    exact .nested (derives_block ih)
  | ifThen cond _ ih =>
    rw [tokens, tokensOf_eq]
    exact .ifThen cond.derivable.expr (derives_block ih)
  | ifElse cond _ _ ih ih' =>
    rw [tokens, tokensOf_eq, tokensOf_eq]
    exact .ifElse cond.derivable.expr (derives_block ih) (derives_block ih')
  | loop cond _ ih =>
    rw [tokens, tokensOf_eq]
    exact .loop cond.derivable.expr (derives_block ih)
  | call f args => exact .callStmt f (derives_map fun g h => (args g h).derivable.expr)

theorem Definition.Proper.derives {d : Definition} (proper : d.Proper) :
    Derives .function d.tokens :=
  .function d.name d.params (Clause.derives_block fun c h => (proper.body c h).derives)
    proper.result.derivable.expr

theorem Script.Proper.derives {p : Script} (proper : p.Proper) : Derives .program p.tokens := by
  rw [tokens, List.flatMap_def]
  exact .program (derives_map fun d h => (proper.definitions d h).derives)
    (Clause.derives_block fun c h => (proper.main c h).derives)

end Scriptlet
