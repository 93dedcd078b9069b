import Scriptlet.Proofs.Grammar.Faithful
import Scriptlet.Proofs.Grammar.Groups

namespace Scriptlet

namespace Phrase

variable {g p : Phrase} {level floor : Nat}

/-- The other phrase is the one or its last operand, or the last operand of that, and so on. -/
inductive EndsIn : Phrase → Phrase → Prop
  | refl (g : Phrase) : EndsIn g g
  | unary {op : UnaryOp} {e p : Phrase} : EndsIn e p → EndsIn (unary op e) p
  | binary {op : BinaryOp} {l r p : Phrase} : EndsIn r p → EndsIn (binary op l r) p

theorem Yields.endsIn (yields : g.Yields level) (ends : g.EndsIn p) : p.Yields level := by
  induction ends with
  | refl g => exact yields
  | unary _ ih => exact ih yields.2
  | binary _ ih => exact ih yields.2

/-- The operands of the phrase are as the levels have it, if it is an operation. -/
structure RespectsLevels (g : Phrase) : Prop where
  left (op op' : BinaryOp) (a b r : Phrase) : g = binary op (binary op' a b) r →
    op.level < op'.level ∨ op.level = op'.level ∧ op.rightAssoc = false
  right (op op' : BinaryOp) (l a b : Phrase) : g = binary op l (binary op' a b) →
    op.level < op'.level ∨ op.level = op'.level ∧ op.rightAssoc = true
  not (op : BinaryOp) (a b : Phrase) : g = unary .not (binary op a b) →
    (BinaryOp.compare .eq).level ≤ op.level
  neg (op : BinaryOp) (a b : Phrase) : g = unary .neg (binary op a b) → op = .arith .pow
  afterNot (op : BinaryOp) (l r e : Phrase) : g = binary op l r → l.EndsIn (unary .not e) →
    op.level < (BinaryOp.compare .eq).level
  afterNeg (op : BinaryOp) (l r e : Phrase) : g = binary op l r → l.EndsIn (unary .neg e) →
    op ≠ .arith .pow

end Phrase

theorem BinaryOp.lt_level_of_floor_le {op op' : BinaryOp} (bound : op.floor ≤ op'.level) :
    op.level < op'.level ∨ op.level = op'.level ∧ op.rightAssoc = true := by
  unfold floor at bound
  split at bound
  · rename_i right
    rcases Nat.lt_or_eq_of_le bound with lt | eq
    · exact .inl lt
    · exact .inr ⟨eq, right⟩
  · exact .inl bound

theorem BinaryOp.lt_level_of_lt_floor {op op' : BinaryOp} (bound : op.level < op'.floor) :
    op.level < op'.level ∨ op.level = op'.level ∧ op.rightAssoc = false := by
  unfold floor at bound
  split at bound
  · exact .inl bound
  · rename_i left
    rcases Nat.lt_or_eq_of_le (Nat.le_of_lt_succ bound) with lt | eq
    · exact .inl lt
    · refine .inr ⟨eq, ?_⟩
      have same := op.level_spec.2.2.2
      have same' := op'.level_spec.2.2.2
      rw [eq, ← same'] at same
      simpa [left] using same

theorem BinaryOp.eq_pow_of_level {op : BinaryOp} (strong : UnaryOp.neg.floor ≤ op.level) :
    op = .arith .pow := by
  cases op with
  | arith op => cases op <;> first | rfl | exact absurd strong (by decide)
  | _ => exact absurd strong (by simp [level, UnaryOp.floor])

theorem Phrase.Proper.respectsLevels {g : Phrase} (proper : g.Proper) : g.RespectsLevels where
  left op op' a b r same := by
    subst same
    cases proper with
    | binary yields => exact BinaryOp.lt_level_of_lt_floor yields.1
  right op op' l a b same := by
    subst same
    cases proper with
    | binary _ stands => exact BinaryOp.lt_level_of_floor_le stands
  not op a b same := by
    subst same
    cases proper with
    | unary stands => exact stands
  neg op a b same := by
    subst same
    cases proper with
    | unary stands => exact BinaryOp.eq_pow_of_level stands
  afterNot op l r e same ends := by
    subst same
    cases proper with
    | binary yields => exact (yields.endsIn ends).1
  afterNeg op l r e same ends := by
    subst same
    cases proper with
    | binary yields =>
      rintro rfl
      exact absurd (yields.endsIn ends).1 (by decide)

def Phrase.Contains : Phrase → Phrase → Prop := Relation.ReflTransGen fun g p => p ∈ g.parts

def Clause.phrases : Clause → List Phrase
  | restate _ | block _ => []
  | print e | assign _ e | ifThen e _ | ifElse e _ _ | loop e _ => [e]
  | assignAt _ indices e => e :: indices
  | call _ args => args

def Clause.parts : Clause → List Clause
  | block body | ifThen _ body | loop _ body => body
  | ifElse _ body other => body ++ other
  | _ => []

inductive Clause.Contains : Clause → Phrase → Prop
  | phrase {c : Clause} {g p : Phrase} : g ∈ c.phrases → g.Contains p → Contains c p
  | part {c d : Clause} {p : Phrase} : d ∈ c.parts → Contains d p → Contains c p

def Script.Contains (g : Script) (p : Phrase) : Prop :=
  (∃ c ∈ g.main, c.Contains p) ∨
    ∃ d ∈ g.definitions, (∃ c ∈ d.body, c.Contains p) ∨ d.result.Contains p

theorem Phrase.Proper.part {g p : Phrase} (proper : g.Proper) (part : p ∈ g.parts) : p.Proper := by
  cases proper with
  | literal l => cases part
  | name x => cases part
  | call f propers => exact propers p part
  | list propers => exact propers p part
  | tuple _ propers => exact propers p part
  | group proper => exact List.mem_singleton.mp part ▸ proper
  | field n _ proper => exact List.mem_singleton.mp part ▸ proper
  | unary _ proper => exact List.mem_singleton.mp part ▸ proper
  | index _ _ proper propers =>
    rcases List.mem_cons.mp part with rfl | part
    · exact proper
    · exact propers p part
  | binary _ _ left right =>
    rcases List.mem_pair.mp part with rfl | rfl
    · exact left
    · exact right

theorem Phrase.Proper.contains {g p : Phrase} (proper : g.Proper) (contains : g.Contains p) :
    p.Proper := by
  induction contains with
  | refl => exact proper
  | tail _ part ih => exact ih.part part

theorem Clause.Proper.phrase {c : Clause} {g : Phrase} (proper : c.Proper)
    (inside : g ∈ c.phrases) : g.Proper := by
  cases proper with
  | restate x => cases inside
  | block propers => cases inside
  | print proper => exact List.mem_singleton.mp inside ▸ proper
  | assign x proper => exact List.mem_singleton.mp inside ▸ proper
  | ifThen proper _ => exact List.mem_singleton.mp inside ▸ proper
  | ifElse proper _ _ => exact List.mem_singleton.mp inside ▸ proper
  | loop proper _ => exact List.mem_singleton.mp inside ▸ proper
  | assignAt x _ propers proper =>
    rcases List.mem_cons.mp inside with rfl | inside
    · exact proper
    · exact propers g inside
  | call f propers => exact propers g inside

theorem Clause.Proper.part {c d : Clause} (proper : c.Proper) (part : d ∈ c.parts) : d.Proper := by
  cases proper with
  | block propers => exact propers d part
  | ifThen _ propers => exact propers d part
  | loop _ propers => exact propers d part
  | ifElse _ propers propers' => exact (List.mem_append.mp part).elim (propers d) (propers' d)
  | _ => cases part

theorem Clause.Proper.contains {c : Clause} {p : Phrase} (proper : c.Proper)
    (contains : c.Contains p) : p.Proper := by
  induction contains with
  | phrase inside contains => exact (proper.phrase inside).contains contains
  | part part _ ih => exact ih (proper.part part)

theorem Script.Proper.contains {g : Script} {p : Phrase} (proper : g.Proper)
    (contains : g.Contains p) : p.Proper := by
  rcases contains with ⟨c, listed, contains⟩ | ⟨d, listed, ⟨c, listed', contains⟩ | contains⟩
  · exact (proper.main c listed).contains contains
  · exact ((proper.definitions d listed).body c listed').contains contains
  · exact (proper.definitions d listed).result.contains contains

/--
There is one way to see where a text that is read has its operands in parentheses: one script that
stands for the program and has the tokens of the text. In it every operation has operands as the
levels have it. An infix operation without parentheses binds more strongly than the infix operation
that it is an operand of, or as strongly and on the side to which the operator associates. As the
operand of `not` it binds as comparisons do or more strongly, and as that of `-` it is a power. An
operator whose left operand ends in a `not` binds more weakly than comparisons, and one whose left
operand ends in a unary `-` is not `**`.
-/
theorem read_programs_respect_levels {ts : List Located} {p : Program}
    (read : Program.ofTokens ts = .ok p) :
    ∃ g : Script, g.tree = p ∧ g.tokens = ts.map Located.token ∧
      (∀ g' : Script, g'.tree = p → g'.tokens = ts.map Located.token → g' = g) ∧
      ∀ e, g.Contains e → e.RespectsLevels := by
  obtain ⟨g, proper, rfl, tokens⟩ := Program.written_of_ofTokens read
  refine ⟨g, rfl, tokens, fun g' tree same => ?_, fun e contains => ?_⟩
  · exact (proper.eq_of_tokens tree.symm (tokens.trans same.symm)).symm
  · exact (proper.contains contains).respectsLevels

namespace Script

/-- `{ print(2 ** not a == b); }` -/
def powerOfNot : Script where
  definitions := []
  main := [.print (.binary (.arith .pow) (.literal (.int 2))
    (.unary .not (.binary (.compare .eq) (.name "a") (.name "b"))))]

theorem read_programs_respect_levels_powerOfNot :
    let ts : List Located := powerOfNot.tokens.map fun t => ⟨t, 1⟩
    Program.ofTokens ts = .ok powerOfNot.tree ∧
      ∀ e, powerOfNot.Contains e → e.RespectsLevels := by
  intro ts
  have read : Program.ofTokens ts = .ok powerOfNot.tree := rfl
  obtain ⟨g, _, _, unique, respects⟩ := read_programs_respect_levels read
  cases unique powerOfNot rfl rfl
  exact ⟨read, respects⟩

end Script

end Scriptlet
