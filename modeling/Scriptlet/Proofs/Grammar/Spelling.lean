import Scriptlet.Proofs.Grammar.Phrase
import Scriptlet.Parser.State

namespace Scriptlet

structure Phrase.Writes (g : Phrase) (e : Expr) : Prop where
  proper : g.Proper
  tree : g.tree = e

namespace Parser

/-- Trees, the last first, and what they were written as. -/
structure Written {α β : Type} (Proper : α → Prop) (tree : α → β) (read : List β) (xs : List α) :
    Prop where
  proper : ∀ x ∈ xs, Proper x
  trees : read = (xs.map tree).reverse

namespace Written

variable {α β : Type} {Proper : α → Prop} {tree : α → β} {read : List β} {xs : List α}

theorem nil : Written Proper tree [] [] := ⟨by simp, rfl⟩

theorem concat (h : Written Proper tree read xs) {x : α} (last : Proper x) :
    Written Proper tree (tree x :: read) (xs ++ [x]) := by
  refine ⟨fun y member => ?_, by rw [h.trees]; simp⟩
  rcases List.mem_append.mp member with member | member
  · exact h.proper y member
  · rw [List.mem_singleton.mp member]
    exact last

theorem reverse (h : Written Proper tree read xs) : read.reverse = xs.map tree := by
  rw [h.trees, List.reverse_reverse]

theorem ne_nil (h : Written Proper tree read xs) (ne : read ≠ []) : xs ≠ [] := by
  rintro rfl
  exact ne h.trees

end Written

abbrev Phrases := Written Phrase.Proper Phrase.tree

abbrev Clauses := Written Clause.Proper Clause.tree

abbrev Definitions := Written Definition.Proper Definition.tree

def listed (parts : List (List Token)) : List Token := parts.flatMap (· ++ [.fixed .comma])

def Header.Spelt (h : Header) (ts : List Token) : Prop :=
  ∃ ds, Definitions h.functions ds ∧
    ts = ds.flatMap Definition.tokens ++ [.fixed .funWord, .name h.name, .fixed .lparen]

def Header.parts (h : Header) : List (List Token) := h.params.reverse.map ([.name ·])

def Within (outer : List Token → Prop) (read : List Stmt) (ts : List Token) : Prop :=
  ∃ os cs, outer os ∧ Clauses read cs ∧ ts = os ++ cs.flatMap Clause.tokens

def BlockContext.Spelt : BlockContext → List Token → Prop
  | main fs, ts => ∃ ds, Definitions fs ds ∧ ts = ds.flatMap Definition.tokens ++ [.fixed .lbrace]
  | body h, ts => ∃ hs, h.Spelt hs ∧
    ts = hs ++ separated h.parts ++ [.fixed .rparen, .fixed .assign, .fixed .lbrace]
  | nested read outer, ts => ∃ bs, Within outer.Spelt read bs ∧ ts = bs ++ [.fixed .lbrace]
  | then_ cond read outer, ts => ∃ bs, ∃ g : Phrase, Within outer.Spelt read bs ∧ g.Writes cond ∧
    ts = bs ++ [.fixed .ifWord, .fixed .lparen] ++ g.tokens ++ [.fixed .rparen, .fixed .lbrace]
  | else_ cond first read outer, ts => ∃ bs, ∃ g : Phrase, ∃ cs,
    Within outer.Spelt read bs ∧ g.Writes cond ∧
    Clauses first.reverse cs ∧
    ts = bs ++ (Clause.ifThen g cs).tokens ++ [.fixed .elseWord, .fixed .lbrace]
  | loop cond read outer, ts => ∃ bs, ∃ g : Phrase, Within outer.Spelt read bs ∧ g.Writes cond ∧
    ts = bs ++ [.fixed .whileWord, .fixed .lparen] ++ g.tokens ++ [.fixed .rparen, .fixed .lbrace]

def OpenBlock.Spelt (b : OpenBlock) : List Token → Prop := Within b.outer.Spelt b.read

theorem OpenBlock.Spelt.add {b : OpenBlock} {ts us : List Token} (spelt : b.Spelt ts) {c : Clause}
    (proper : c.Proper) (eq : us = ts ++ c.tokens) : (b.add c.tree).Spelt us := by
  obtain ⟨os, cs, outer, clauses, rfl⟩ := spelt
  exact ⟨os, cs ++ [c], outer, clauses.concat proper, by rw [eq]; simp⟩

theorem OpenBlock.Spelt.empty {outer : BlockContext} {ts : List Token} (spelt : outer.Spelt ts) :
    (⟨[], outer⟩ : OpenBlock).Spelt ts := ⟨ts, [], spelt, .nil, by simp⟩

/-- Pending operators, the innermost first, each with its left operand. -/
inductive Operators : List Pending → List Token → Prop
  | nil : Operators [] []
  | unary (op : UnaryOp) {ps : List Pending} {ts : List Token} : Operators ps ts →
      Operators (.unary op :: ps) (ts ++ [.fixed op.token])
  | binary {op : BinaryOp} {l : Phrase} {ps : List Pending} {ts : List Token} : Operators ps ts →
      (∀ p ∈ ps.head?, p.floor ≤ op.level) → l.Proper → l.Yields op.level →
      Operators (.binary l.tree op :: ps) (ts ++ l.tokens ++ [.fixed op.token])

def opened : Option Int64 → List Token
  | none => [.fixed .lparen]
  | some n => [.fixed .hash, .int n, .fixed .lparen]

def Under (outer : List Token → Prop) (ps : List Pending) (ts : List Token) : Prop :=
  ∃ os us, outer os ∧ Operators ps us ∧ ts = os ++ us

def ExprContext.Spelt : ExprContext → List Token → Prop
  | print b, ts => ∃ bs, b.Spelt bs ∧ ts = bs ++ [.fixed .print, .fixed .lparen]
  | assign x b, ts => ∃ bs, b.Spelt bs ∧ ts = bs ++ [.name x, .fixed .assign]
  | place x indices b, ts => ∃ bs gs, b.Spelt bs ∧ Phrases indices gs ∧
    ts = bs ++ [.name x] ++ (gs.map Phrase.tokens).flatMap bracketed ++ [.fixed .lbracket]
  | assignAt x indices b, ts => ∃ bs gs, b.Spelt bs ∧ Phrases indices gs ∧ indices ≠ [] ∧
    ts = bs ++ [.name x] ++ (gs.map Phrase.tokens).flatMap bracketed ++ [.fixed .assign]
  | callStmt f args b, ts => ∃ bs gs, b.Spelt bs ∧ Phrases args gs ∧
    ts = bs ++ [.name f, .fixed .lparen] ++ listed (gs.map Phrase.tokens)
  | ifCond b, ts => ∃ bs, b.Spelt bs ∧ ts = bs ++ [.fixed .ifWord, .fixed .lparen]
  | loopCond b, ts => ∃ bs, b.Spelt bs ∧ ts = bs ++ [.fixed .whileWord, .fixed .lparen]
  | result h body, ts => ∃ hs cs, h.Spelt hs ∧ Clauses body.reverse cs ∧
    ts = hs ++ separated h.parts ++ [.fixed .rparen, .fixed .assign] ++
      Clause.braced (cs.flatMap Clause.tokens)
  | group field ps outer, ts => ∃ us, Under outer.Spelt ps us ∧ ts = us ++ opened field
  | tuple field items ps outer, ts => ∃ us gs, Under outer.Spelt ps us ∧ Phrases items gs ∧
    items ≠ [] ∧ ts = us ++ opened field ++ listed (gs.map Phrase.tokens)
  | list items ps outer, ts => ∃ us gs, Under outer.Spelt ps us ∧ Phrases items gs ∧
    ts = us ++ [.fixed .lbracket] ++ listed (gs.map Phrase.tokens)
  | callExpr f args ps outer, ts => ∃ us gs, Under outer.Spelt ps us ∧ Phrases args gs ∧
    ts = us ++ [.name f, .fixed .lparen] ++ listed (gs.map Phrase.tokens)
  | index target indices ps outer, ts => ∃ us, ∃ g : Phrase, ∃ gs, Under outer.Spelt ps us ∧
    g.Writes target ∧ g.isAtom ∧ Phrases indices gs ∧
    ts = us ++ g.tokens ++ (gs.map Phrase.tokens).flatMap bracketed ++ [.fixed .lbracket]

def Focus.Spelt : Focus → List Token → Prop
  | name x, ts => ts = [.name x]
  | atom e, ts => ∃ g : Phrase, g.Writes e ∧ g.isAtom ∧ ts = g.tokens
  | indexed target indices, ts => ∃ g : Phrase, ∃ gs, g.Writes target ∧ g.isAtom ∧
    Phrases indices gs ∧ indices ≠ [] ∧ ts = g.tokens ++ (gs.map Phrase.tokens).flatMap bracketed

/-- The tokens that have been read. -/
def State.Spelt : State → List Token → Prop
  | top fs, ts => ∃ ds, Definitions fs ds ∧ ts = ds.flatMap Definition.tokens
  | functionName fs, ts => ∃ ds, Definitions fs ds ∧
    ts = ds.flatMap Definition.tokens ++ [.fixed .funWord]
  | paramsOpen fs f, ts => ∃ ds, Definitions fs ds ∧
    ts = ds.flatMap Definition.tokens ++ [.fixed .funWord, .name f]
  | firstParam fs f, ts => (⟨fs, f, []⟩ : Header).Spelt ts
  | param h, ts => ∃ hs, h.Spelt hs ∧ h.params ≠ [] ∧ ts = hs ++ listed h.parts
  | afterParam h, ts => ∃ hs, h.Spelt hs ∧ h.params ≠ [] ∧ ts = hs ++ separated h.parts
  | functionAssign h, ts => ∃ hs, h.Spelt hs ∧ ts = hs ++ separated h.parts ++ [.fixed .rparen]
  | finished p, ts => ∃ g : Script, g.Proper ∧ g.tree = p ∧ ts = g.tokens
  | blockOpen outer, ts => outer.Spelt (ts ++ [.fixed .lbrace])
  | statement b, ts => b.Spelt ts
  | afterThen cond body b, ts => ∃ bs, ∃ g : Phrase, ∃ cs, b.Spelt bs ∧ g.Writes cond ∧
    Clauses body.reverse cs ∧ ts = bs ++ (Clause.ifThen g cs).tokens
  | printOpen b, ts => ∃ bs, b.Spelt bs ∧ ts = bs ++ [.fixed .print]
  | ifOpen b, ts => ∃ bs, b.Spelt bs ∧ ts = bs ++ [.fixed .ifWord]
  | loopOpen b, ts => ∃ bs, b.Spelt bs ∧ ts = bs ++ [.fixed .whileWord]
  | afterName x b, ts => ∃ bs, b.Spelt bs ∧ ts = bs ++ [.name x]
  | afterPlace x indices b, ts => ∃ bs gs, b.Spelt bs ∧ Phrases indices gs ∧ indices ≠ [] ∧
    ts = bs ++ [.name x] ++ (gs.map Phrase.tokens).flatMap bracketed
  | firstCallArg f b, ts => ∃ bs, b.Spelt bs ∧ ts = bs ++ [.name f, .fixed .lparen]
  | semicolon st b, ts => ∃ bs c, b.Spelt bs ∧ c.Proper ∧ Clause.tree c = st ∧
    ts ++ [.fixed .semicolon] = bs ++ c.tokens
  | operand ps c, ts => Under c.Spelt ps ts
  | firstItem ps c, ts => ∃ us, Under c.Spelt ps us ∧ ts = us ++ [.fixed .lbracket]
  | firstArg f ps c, ts => ∃ us, Under c.Spelt ps us ∧ ts = us ++ [.name f, .fixed .lparen]
  | secondItem field e ps c, ts => ∃ us, ∃ g : Phrase, Under c.Spelt ps us ∧ g.Writes e ∧
    ts = us ++ opened field ++ g.tokens ++ [.fixed .comma]
  | fieldNumber ps c, ts => ∃ us, Under c.Spelt ps us ∧ ts = us ++ [.fixed .hash]
  | fieldTarget n ps c, ts => ∃ us, Under c.Spelt ps us ∧ ts = us ++ [.fixed .hash, .int n]
  | operator focus ps c, ts => ∃ us fs, Under c.Spelt ps us ∧ focus.Spelt fs ∧ ts = us ++ fs

end Parser

end Scriptlet
