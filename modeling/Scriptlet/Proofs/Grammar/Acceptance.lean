import Scriptlet.Proofs.Grammar.Reads
import Scriptlet.Proofs.SideBySide

namespace Scriptlet.Parser

/-- The words that the reader has a place for where the nonterminal may stand. -/
def Accepts (ts : List Token) : Nonterminal → Prop
  | .program => ∃ p, ReadsProgram ts p
  | .function => ∃ f, ReadsFunction ts f
  | .block => ∃ body, ReadsBlock ts body
  | .statement => ∃ st, ReadsStmt ts st
  | .expr => ∀ ps, ∃ focus ps', ∀ c,
      (State.operand ps c).steps ts = some (.operator focus ps' c)
  | .primary => ∃ e, ReadsPrimary ts e
  | .atom => ∃ e, ReadsAtom ts e
  | .tuple => ∃ us e, ts = .fixed .lparen :: us ∧ ReadsOpened us e

theorem Accepts.reads {ts : List Token} (accepts : Accepts ts .expr) : ∃ e, ReadsExpr ts e := by
  obtain ⟨focus, ps, run⟩ := accepts []
  exact ⟨_, readsExpr_of_steps run⟩

theorem exists_readsExprs {parts : List (List Token)} (h : ∀ ts ∈ parts, Accepts ts .expr) :
    ∃ es, List.Forall₂ ReadsExpr parts es := exists_forall₂ fun ts member => (h ts member).reads

theorem accepts_binary {l r : List Token} {f : Fixed} (operator : f.binaryOp?.isSome)
    (left : Accepts l .expr) (right : Accepts r .expr) : Accepts (l ++ [.fixed f] ++ r) .expr := by
  intro ps
  obtain ⟨op, operator⟩ := Option.isSome_iff_exists.mp operator
  obtain ⟨focus, ps₁, first⟩ := left ps
  obtain ⟨focus', ps₂, second⟩ := right (.binary (reduce op.level ps₁ focus.expr).2 op ::
    (reduce op.level ps₁ focus.expr).1)
  refine ⟨focus', ps₂, fun c => steps_trans (steps_trans (first c) ?_) (second c)⟩
  rw [steps_cons, step_operator_infix focus ps₁ c operator]
  rfl

theorem accepts_several {items : List (List Token)} (many : 2 ≤ items.length)
    (accepts : ∀ ts ∈ items, Accepts ts .expr) :
    Accepts ([.fixed .lparen] ++ separated items ++ [.fixed .rparen]) .tuple := by
  obtain ⟨es, reads⟩ := exists_readsExprs accepts
  cases reads with
  | nil => cases many
  | cons first rest =>
    cases rest with
    | nil => exact absurd many (Nat.not_succ_le_self 1)
    | cons second rest => exact ⟨_, _, rfl, readsOpened_several first second rest⟩

theorem accepts_of_derives {n : Nonterminal} {ts : List Token} (d : Derives n ts) :
    Accepts ts n := by
  induction d with
  | program _ _ functions main =>
    obtain ⟨fs, functions⟩ := exists_forall₂ functions
    obtain ⟨body, block⟩ := main
    exact ⟨_, readsProgram functions block⟩
  | function f params _ _ body result =>
    obtain ⟨sts, block⟩ := body
    obtain ⟨e, value⟩ := Accepts.reads result
    exact ⟨_, readsFunction f params block value⟩
  | block _ statements =>
    obtain ⟨sts, reads⟩ := exists_forall₂ statements
    exact ⟨sts, readsBlock reads⟩
  | print _ value =>
    obtain ⟨e, value⟩ := Accepts.reads value
    exact ⟨_, readsStmt_print value⟩
  | restate x => exact ⟨_, readsStmt_restate x⟩
  | @assign x indices _ _ _ accepts value =>
    obtain ⟨e, value⟩ := Accepts.reads value
    obtain ⟨es, reads⟩ := exists_readsExprs accepts
    by_cases ne : indices = []
    · subst ne
      exact ⟨_, readsStmt_assign x value⟩
    · exact ⟨_, readsStmt_assignAt x reads ne value⟩
  | callStmt f _ accepts =>
    obtain ⟨es, reads⟩ := exists_readsExprs accepts
    exact ⟨_, readsStmt_call f reads⟩
  | loop _ _ cond body =>
    obtain ⟨e, test⟩ := Accepts.reads cond
    obtain ⟨sts, block⟩ := body
    exact ⟨_, readsStmt_loop test block⟩
  | ifThen _ _ cond body =>
    obtain ⟨e, test⟩ := Accepts.reads cond
    obtain ⟨sts, block⟩ := body
    exact ⟨_, readsStmt_ifThen test block⟩
  | ifElse _ _ _ cond body other =>
    obtain ⟨e, test⟩ := Accepts.reads cond
    obtain ⟨sts, block⟩ := body
    obtain ⟨sts', block'⟩ := other
    exact ⟨_, readsStmt_ifElse test block block'⟩
  | nested _ body =>
    obtain ⟨sts, block⟩ := body
    exact ⟨_, block.stmt⟩
  | operand _ primary =>
    obtain ⟨e, focus, _, run⟩ := primary
    exact fun ps => ⟨focus, ps, run ps⟩
  | not _ accepts => exact fun ps => accepts (.unary .not :: ps)
  | neg _ accepts => exact fun ps => accepts (.unary .neg :: ps)
  | binary operator _ _ left right => exact accepts_binary operator left right
  | @indexed target indices _ _ atom accepts =>
    obtain ⟨e, atom⟩ := atom
    obtain ⟨es, reads⟩ := exists_readsExprs accepts
    by_cases ne : indices = []
    · subst ne
      rw [List.flatMap_nil, List.append_nil]
      exact ⟨e, atom.primary⟩
    · exact ⟨_, readsPrimary_index atom reads ne⟩
  | literal l => exact ⟨_, readsAtom_literal l⟩
  | name x => exact ⟨_, readsAtom_name x⟩
  | call f _ accepts =>
    obtain ⟨es, reads⟩ := exists_readsExprs accepts
    exact ⟨_, readsAtom_call f reads⟩
  | list _ accepts =>
    obtain ⟨es, reads⟩ := exists_readsExprs accepts
    exact ⟨_, readsAtom_list reads⟩
  | group _ accepts =>
    obtain ⟨e, reads⟩ := Accepts.reads accepts
    exact ⟨e, (readsOpened_group reads).atom⟩
  | tupleAtom _ accepts =>
    obtain ⟨us, e, rfl, reads⟩ := accepts
    exact ⟨e, reads.atom⟩
  | fieldName n x => exact ⟨_, readsAtom_fieldName n x⟩
  | fieldGroup n _ accepts =>
    obtain ⟨e, reads⟩ := Accepts.reads accepts
    exact ⟨_, (readsOpened_group reads).field n⟩
  | fieldTuple n _ accepts =>
    obtain ⟨us, e, rfl, reads⟩ := accepts
    exact ⟨_, reads.field n⟩
  | single _ accepts =>
    obtain ⟨e, reads⟩ := Accepts.reads accepts
    refine ⟨_, _, ?_, readsOpened_single reads⟩
    rfl
  | several many _ accepts => exact accepts_several many accepts

end Scriptlet.Parser
