import Scriptlet.Proofs.Decimal.Bits
import Scriptlet.Proofs.Grammar.Phrase
import Scriptlet.Proofs.Lexing.Rules

namespace Scriptlet

/-- Letters, digits and `_` after a letter, and no reserved word. -/
def IsName (x : Name) : Prop :=
  x.toList ∈ Lexeme.Class.word.language ∧ ∀ f ∈ Fixed.words, f.spelling ≠ x

def Token.WellFormed : Token → Prop
  | fixed _ => True
  | int n => 0 ≤ n
  | real x => Unsigned x
  | str s => '"' ∉ s.toList ∨ '\'' ∉ s.toList
  | name x => IsName x

namespace Expr

def WellFormed : Expr → Prop
  | literal l => l.token.WellFormed
  | list items => ∀ e ∈ items, e.WellFormed
  | tuple items => items ≠ [] ∧ ∀ e ∈ items, e.WellFormed
  | var x => IsName x
  | unary _ e => e.WellFormed
  | binary _ l r => l.WellFormed ∧ r.WellFormed
  | index target indices => target.WellFormed ∧ indices ≠ [] ∧ ∀ e ∈ indices, e.WellFormed
  | field n target => 0 ≤ n ∧ target.WellFormed
  | call f args => IsName f ∧ ∀ e ∈ args, e.WellFormed

end Expr

namespace Stmt

def WellFormed : Stmt → Prop
  | print e => e.WellFormed
  | assign x e => IsName x ∧ e.WellFormed
  | assignAt x indices e =>
    IsName x ∧ (indices ≠ [] ∧ ∀ i ∈ indices, i.WellFormed) ∧ e.WellFormed
  | block body => ∀ s ∈ body, s.WellFormed
  | ifThen cond body => cond.WellFormed ∧ ∀ s ∈ body, s.WellFormed
  | ifElse cond body other =>
    cond.WellFormed ∧ (∀ s ∈ body, s.WellFormed) ∧ ∀ s ∈ other, s.WellFormed
  | loop cond body => cond.WellFormed ∧ ∀ s ∈ body, s.WellFormed
  | call f args => IsName f ∧ ∀ e ∈ args, e.WellFormed

end Stmt

structure Function.WellFormed (f : Function) : Prop where
  name : IsName f.name
  params : ∀ x ∈ f.params, IsName x
  body : ∀ s ∈ f.body, s.WellFormed
  result : f.result.WellFormed

structure Program.WellFormed (p : Program) : Prop where
  functions : ∀ f ∈ p.functions, f.WellFormed
  main : ∀ s ∈ p.main, s.WellFormed

def Written (ts : List Token) : Prop := ∀ t ∈ ts, t.WellFormed

@[simp] theorem Token.wellFormed_fixed (f : Fixed) : (Token.fixed f).WellFormed := True.intro

@[simp] theorem Token.wellFormed_name (x : Name) : (Token.name x).WellFormed ↔ IsName x := Iff.rfl

@[simp] theorem Token.wellFormed_int (n : Int64) : (Token.int n).WellFormed ↔ 0 ≤ n := Iff.rfl

@[simp] theorem written_nil : Written [] := by simp [Written]

@[simp] theorem written_cons {t : Token} {ts : List Token} :
    Written (t :: ts) ↔ t.WellFormed ∧ Written ts :=
  List.forall_mem_cons

@[simp] theorem written_append {ts us : List Token} :
    Written (ts ++ us) ↔ Written ts ∧ Written us :=
  List.forall_mem_append

@[simp] theorem written_flatMap {α : Type} {xs : List α} {tokens : α → List Token} :
    Written (xs.flatMap tokens) ↔ ∀ x ∈ xs, Written (tokens x) := by
  induction xs with
  | nil => simp
  | cons x xs ih => rw [List.flatMap_cons, written_append, ih, List.forall_mem_cons]

@[simp] theorem written_bracketed (ts : List Token) : Written (bracketed ts) ↔ Written ts := by
  simp [bracketed]

@[simp] theorem written_braced (ts : List Token) : Written (Clause.braced ts) ↔ Written ts := by
  simp [Clause.braced]

@[simp] theorem written_separated (parts : List (List Token)) :
    Written (separated parts) ↔ ∀ ts ∈ parts, Written ts := by
  match parts with
  | [] => simp [separated]
  | [ts] => simp [separated]
  | ts :: us :: rest =>
    rw [separated, written_append, written_cons, written_separated (us :: rest),
      List.forall_mem_cons (a := ts)]
    simp

theorem Phrase.Proper.written_iff {g : Phrase} (proper : g.Proper) :
    Written g.tokens ↔ g.tree.WellFormed := by
  induction proper with
  | literal l => simp [tokens, tree, Expr.WellFormed]
  | name x => simp [tokens, tree, Expr.WellFormed]
  | call f _ ih =>
    simp only [tokens, tokensOf_eq, tree, treesOf_eq, Expr.WellFormed, written_separated,
      List.forall_mem_map, List.cons_append, List.nil_append, written_cons, written_append,
      written_nil, Token.wellFormed_name, Token.wellFormed_fixed, true_and, and_true]
    exact and_congr_right' (forall₂_congr ih)
  | list _ ih =>
    simp only [tokens, tokensOf_eq, tree, treesOf_eq, Expr.WellFormed, written_separated,
      List.forall_mem_map, List.cons_append, List.nil_append, written_cons, written_append,
      written_nil, Token.wellFormed_fixed, true_and, and_true]
    exact forall₂_congr ih
  | @tuple items ne _ ih =>
    have close : Written (if items.length = 1 then [.fixed .comma, .fixed .rparen]
        else [.fixed .rparen]) := by
      split <;> simp
    simp only [tokens, tokensOf_eq, tree, treesOf_eq, Expr.WellFormed, written_separated,
      List.forall_mem_map, List.cons_append, List.nil_append, written_cons, written_append, close,
      Token.wellFormed_fixed, ne_eq, List.map_eq_nil_iff, ne, not_false_eq_true, true_and, and_true]
    exact forall₂_congr ih
  | group _ ih => simpa [tokens, tree] using ih
  | field n _ _ ih => simp [tokens, tree, Expr.WellFormed, ih]
  | index _ ne _ _ ih ihs =>
    simp only [tokens, tokensOf_eq, tree, treesOf_eq, Expr.WellFormed, written_append,
      written_flatMap, written_bracketed, List.forall_mem_map, ne_eq, List.map_eq_nil_iff, ne,
      not_false_eq_true, true_and, ih]
    exact and_congr_right' (forall₂_congr ihs)
  | unary _ _ ih => simp [tokens, tree, Expr.WellFormed, ih]
  | binary _ _ _ _ left right => simp [tokens, tree, Expr.WellFormed, left, right]

theorem written_phrases {gs : List Phrase} (proper : ∀ g ∈ gs, g.Proper) :
    (∀ ts ∈ gs.map Phrase.tokens, Written ts) ↔ ∀ e ∈ gs.map Phrase.tree, e.WellFormed := by
  rw [List.forall_mem_map, List.forall_mem_map]
  exact forall₂_congr fun g member => (proper g member).written_iff

theorem Clause.Proper.written_iff {c : Clause} (proper : c.Proper) :
    Written c.tokens ↔ c.tree.WellFormed := by
  induction proper with
  | print value => simp [tokens, tree, Stmt.WellFormed, value.written_iff]
  | restate x => simp [tokens, tree, Stmt.WellFormed, Expr.WellFormed]
  | assign x value => simp [tokens, tree, Stmt.WellFormed, value.written_iff]
  | assignAt x ne indices value =>
    have same := written_phrases indices
    simp only [List.forall_mem_map] at same
    simp [tokens, tree, Stmt.WellFormed, value.written_iff, same, ne]
  | block _ ih =>
    simp only [tokens, tokensOf_eq, tree, treesOf_eq, Stmt.WellFormed, written_braced,
      written_flatMap, List.forall_mem_map]
    exact forall₂_congr ih
  | ifThen cond _ ih =>
    simp only [tokens, tokensOf_eq, tree, treesOf_eq, Stmt.WellFormed, List.append_assoc,
      List.cons_append, List.nil_append, written_cons, written_append, written_braced,
      written_flatMap, Token.wellFormed_fixed, List.forall_mem_map, cond.written_iff, true_and]
    exact and_congr_right' (forall₂_congr ih)
  | ifElse cond _ _ ih ih' =>
    simp only [tokens, tokensOf_eq, tree, treesOf_eq, Stmt.WellFormed, List.append_assoc,
      List.cons_append, List.nil_append, written_cons, written_append, written_braced,
      written_flatMap, Token.wellFormed_fixed, List.forall_mem_map, cond.written_iff, true_and]
    exact and_congr_right' (and_congr (forall₂_congr ih) (forall₂_congr ih'))
  | loop cond _ ih =>
    simp only [tokens, tokensOf_eq, tree, treesOf_eq, Stmt.WellFormed, List.append_assoc,
      List.cons_append, List.nil_append, written_cons, written_append, written_braced,
      written_flatMap, Token.wellFormed_fixed, List.forall_mem_map, cond.written_iff, true_and]
    exact and_congr_right' (forall₂_congr ih)
  | call f args =>
    have same := written_phrases args
    simp only [List.forall_mem_map] at same
    simp [tokens, tree, Stmt.WellFormed, same]

theorem written_clauses {cs : List Clause} (proper : ∀ c ∈ cs, c.Proper) :
    Written (cs.flatMap Clause.tokens) ↔ ∀ s ∈ cs.map Clause.tree, s.WellFormed := by
  rw [written_flatMap, List.forall_mem_map]
  exact forall₂_congr fun c member => (proper c member).written_iff

theorem Definition.Proper.written_iff {d : Definition} (proper : d.Proper) :
    Written d.tokens ↔ d.tree.WellFormed := by
  have tokens : Written d.tokens ↔ IsName d.name ∧ (∀ x ∈ d.params, IsName x) ∧
      Written (d.body.flatMap Clause.tokens) ∧ Written d.result.tokens := by
    simp [Definition.tokens]
  rw [tokens, written_clauses proper.body, proper.result.written_iff]
  exact ⟨fun ⟨name, params, body, result⟩ => ⟨name, params, body, result⟩,
    fun ⟨name, params, body, result⟩ => ⟨name, params, body, result⟩⟩

theorem Script.Proper.written_iff {g : Script} (proper : g.Proper) :
    Written g.tokens ↔ g.tree.WellFormed := by
  rw [Script.tokens, written_append, written_braced, written_clauses proper.main, written_flatMap]
  constructor
  · intro ⟨definitions, main⟩
    refine ⟨?_, main⟩
    intro f member
    obtain ⟨d, listed, rfl⟩ := List.mem_map.mp member
    exact (proper.definitions d listed).written_iff.mp (definitions d listed)
  · intro ⟨functions, main⟩
    refine ⟨fun d listed => ?_, main⟩
    exact (proper.definitions d listed).written_iff.mpr (functions _ (List.mem_map_of_mem listed))

end Scriptlet
