import Scriptlet.Proofs.Printing.Reals
import Scriptlet.Proofs.Printing.RoundTrip
import Scriptlet.Proofs.Run.Faults
import Scriptlet.Proofs.Run.Origins
import Scriptlet.Proofs.Values.Pieces

namespace Scriptlet

def Rule.solid : Rule where
  expr
    | .tuple items => items ≠ []
    | .index _ indices => indices ≠ []
    | _ => True
  stmt
    | .assignAt _ indices _ => indices ≠ []
    | _ => True

theorem Expr.WellFormed.part {e p : Expr} (wf : e.WellFormed) (part : p ∈ e.parts) :
    p.WellFormed := by
  cases e <;> rw [Expr.WellFormed] at wf
  case literal | var => cases part
  case list => exact wf p part
  case tuple | call => exact wf.2 p part
  case unary => exact List.mem_singleton.mp part ▸ wf
  case field => exact List.mem_singleton.mp part ▸ wf.2
  case binary =>
    rcases List.mem_pair.mp part with rfl | rfl
    · exact wf.1
    · exact wf.2
  case index =>
    rcases List.mem_cons.mp part with rfl | part
    · exact wf.1
    · exact wf.2.2 p part

theorem Expr.WellFormed.solid {e : Expr} (wf : e.WellFormed) : e.Obeys .solid := by
  refine Expr.obeys_of (fun {e} wf => ?_) (fun wf inside => wf.part inside) wf
  cases e with
  | tuple items =>
    rw [Expr.WellFormed] at wf
    exact wf.1
  | index target indices =>
    rw [Expr.WellFormed] at wf
    exact wf.2.1
  | _ => trivial

theorem Stmt.WellFormed.expr {st : Stmt} {e : Expr} (wf : st.WellFormed) (inside : e ∈ st.exprs) :
    e.WellFormed := by
  cases st <;> rw [Stmt.WellFormed] at wf
  case block => cases inside
  case print => exact List.mem_singleton.mp inside ▸ wf
  case assign => exact List.mem_singleton.mp inside ▸ wf.2
  case ifThen | ifElse | loop => exact List.mem_singleton.mp inside ▸ wf.1
  case assignAt =>
    rcases List.mem_cons.mp inside with rfl | inside
    · exact wf.2.2
    · exact wf.2.1.2 e inside
  case call => exact wf.2 e inside

theorem Stmt.WellFormed.part {st p : Stmt} (wf : st.WellFormed) (part : p ∈ st.parts) :
    p.WellFormed := by
  cases st <;> rw [Stmt.WellFormed] at wf
  case print | assign | assignAt | call => cases part
  case block => exact wf p part
  case ifThen | loop => exact wf.2 p part
  case ifElse => exact (List.mem_append.mp part).elim (wf.2.1 p) (wf.2.2 p)

theorem Stmt.WellFormed.solid {st : Stmt} (wf : st.WellFormed) : st.Obeys .solid := by
  refine Stmt.obeys_of (fun {st} wf => ?_) (fun wf inside => (wf.expr inside).solid)
    (fun wf inside => wf.part inside) wf
  cases st with
  | assignAt x indices value =>
    rw [Stmt.WellFormed] at wf
    exact wf.2.1.1
  | _ => trivial

theorem Program.WellFormed.solid {p : Program} (wf : p.WellFormed) : p.Obeys .solid where
  functions f listed := ⟨fun st inside => ((wf.functions f listed).body st inside).solid,
    (wf.functions f listed).result.solid⟩
  main st inside := (wf.main st inside).solid

def Purpose.NeedsSome : Purpose → Prop
  | tuple | indices _ | positions _ _ => True
  | list | arguments _ => False

def Cont.Indexed : {w : Awaits} → Cont w → Prop
  | _, halt => True
  | _, index indices k => indices ≠ [] ∧ k.Indexed
  | _, assignAt _ indices k => indices ≠ [] ∧ k.Indexed
  | _, unary _ k | _, binaryLeft _ _ k | _, binaryRight _ _ k | _, field _ k => k.Indexed
  | _, next _ _ _ k | _, leave k | _, print k | _, assign _ k | _, branch _ _ k => k.Indexed
  | _, loop _ _ k | _, discard k | _, rest _ k | _, again _ _ k | _, result _ k => k.Indexed

namespace Machine

/-- The machine and its continuation have an index for whatever they index. -/
def Indexed : Machine → Prop
  | eval _ k _ | value _ k _ | run _ k _ => k.Indexed
  | gather p values es k _ => (p.NeedsSome → values ≠ [] ∨ es ≠ []) ∧ k.Indexed
  | returned .. | finished _ | failed .. => True

namespace Indexed

variable {limit : Nat} {s : State}

theorem pass {k : Cont .value} (r : Except SemanticError Value) (next : k.Indexed) :
    (Machine.pass r k s).Indexed := by
  cases r with
  | ok v => exact next
  | error e => trivial

theorem call {k : Cont .value} (f : Name) (args : List Expr) (next : k.Indexed) :
    (Machine.call limit f args k s).Indexed := by
  unfold Machine.call
  split
  · trivial
  split
  · trivial
  split
  · trivial
  · exact ⟨nofun, next⟩

theorem onCondition {k : Cont .done} (v : Value) {go : Bool → Machine}
    (goes : ∀ b, (go b).Indexed) : (Machine.onCondition v k s go).Indexed := by
  unfold Machine.onCondition
  split
  · exact goes _
  · trivial

theorem stepEval {e : Expr} {k : Cont .value} (code : e.Obeys .solid) (next : k.Indexed) :
    (Machine.stepEval limit e k s).Indexed := by
  cases e with
  | list items => exact ⟨nofun, next⟩
  | tuple items => exact ⟨fun _ => .inr code.here, next⟩
  | var x => exact pass _ next
  | index target indices => exact ⟨code.here, next⟩
  | call f args => exact call f args next
  | _ => exact next

theorem stepStmt {st : Stmt} {k : Cont .done} (code : st.Obeys .solid) (next : k.Indexed) :
    (Machine.stepStmt limit st k s).Indexed := by
  cases st with
  | assignAt x indices e => exact ⟨fun _ => .inr code.here, next⟩
  | call f args => exact call f args next
  | _ => exact next

theorem use {p : Purpose} {values : List Value} {k : Cont p.awaits}
    (some : p.NeedsSome → values ≠ []) (next : k.Indexed) : (Machine.use p values k s).Indexed := by
  cases p with
  | indices target => exact pass _ next
  | positions x e => exact ⟨some trivial, next⟩
  | _ => exact next

theorem stepValue {k : Cont .value} (v : Value) (next : k.Indexed) :
    (Machine.stepValue v k s).Indexed := by
  cases k with
  | halt => trivial
  | unary op k => exact pass _ next
  | binaryRight op l k =>
    simp only [Machine.stepValue]
    split
    · exact next
    · trivial
  | index indices k => exact ⟨fun _ => .inr next.1, next.2⟩
  | field n k => exact pass _ next
  | next p values es k => exact ⟨fun _ => .inl (List.cons_ne_nil _ _), next⟩
  | print k =>
    simp only [Machine.stepValue]
    split
    · exact next
    · trivial
  | assignAt x indices k =>
    simp only [Machine.stepValue]
    split
    · exact next.2
    · trivial
  | branch body other k => exact onCondition v fun _ => next
  | loop cond body k =>
    refine onCondition v fun b => ?_
    cases b <;> exact next
  | _ => exact next

theorem step {m : Machine} (code : m.Obeys .solid) (indexed : m.Indexed) :
    (m.step limit).Indexed := by
  cases m with
  | eval e k s => exact stepEval code.1 indexed
  | gather p values es k s =>
    obtain ⟨some, next⟩ := indexed
    cases es with
    | nil =>
      refine use (fun needed => ?_) next
      have nonempty : values ≠ [] := (some needed).resolve_right (absurd rfl)
      exact fun empty => nonempty (List.reverse_eq_nil_iff.mp empty)
    | cons e es => exact next
  | value v k s => exact stepValue v indexed
  | run ss k s =>
    cases ss with
    | nil =>
      cases k with
      | halt => trivial
      | _ => exact indexed
    | cons st ss => exact stepStmt (code.1 st List.mem_cons_self) indexed
  | _ => trivial

end Indexed

end Machine

inductive Value.Solid : Value → Prop
  | literal (l : Literal) : Solid l.value
  | list (a : ListId) : Solid (list a)
  | tuple {vs : List Value} : vs ≠ [] → (∀ v ∈ vs, v.Solid) → Solid (tuple vs)

def Lists.Solid (ls : Lists) : Prop := ∀ a, ∀ u ∈ (ls.get a).toList, u.Solid

namespace Value.Solid

variable {ls : Lists} {v u : Value}

theorem ne_empty (solid : v.Solid) : v ≠ .tuple [] := by
  cases solid with
  | literal l => cases l <;> exact Value.noConfusion
  | list a => exact Value.noConfusion
  | tuple some _ => exact fun empty => some (Value.tuple.inj empty)

theorem within (solid : v.Solid) (lists : ls.Solid) (within : v.Within ls u) : u.Solid := by
  induction within with
  | refl => exact solid
  | tail _ holds ih =>
    cases ih with
    | literal l => exact absurd holds (Value.not_holds_literal l)
    | list a => exact lists a _ holds
    | tuple _ each => exact each _ holds

theorem not_within_empty (solid : v.Solid) (lists : ls.Solid) : ¬ v.Within ls (.tuple []) :=
  fun inside => (solid.within lists inside).ne_empty rfl

end Value.Solid

namespace Machine

structure Solid (m : Machine) : Prop where
  indexed : m.Indexed
  values : ∀ v ∈ m.values, v.Solid
  lists : m.state.lists.Solid
  fine : ∀ n s, m ≠ failed (.semantic (.fieldOutOfRange n 0)) s

namespace Solid

variable {limit : Nat} {m m' : Machine} {u : Value}

theorem origin (solid : m.Solid) (origin : m.Origin m' u) : u.Solid := by
  cases origin with
  | within mem within => exact (solid.values _ mem).within solid.lists within
  | literal l => exact .literal l
  | @tuple values k s here =>
    subst here
    have nonempty : values ≠ [] := (solid.indexed.1 trivial).resolve_right (absurd rfl)
    refine .tuple (fun empty => nonempty (List.reverse_eq_nil_iff.mp empty)) fun v mem => ?_
    refine solid.values v (List.mem_append_left _ (List.mem_append_right _ ?_))
    exact List.mem_reverse.mp mem
  | list => exact .list _

theorem rewrites (solid : m.Solid) (rewrites : m.Rewrites m') : m'.state.lists.Solid := by
  intro a u mem
  cases rewrites with
  | kept same => exact solid.lists a u (same ▸ mem)
  | added collects same =>
    rw [same] at mem
    rcases Lists.mem_get_add mem with ⟨_, before⟩ | ⟨_, new⟩
    · exact solid.lists a u before
    · obtain ⟨v, listed, within⟩ := collects.within new
      exact (solid.values v listed).within solid.lists within
  | @replaced x b i v replaces =>
    rw [replaces.lists, Lists.toList_get_set replaces.listed.1] at mem
    split at mem
    · rcases List.mem_or_eq_of_mem_set mem with before | rfl
      · exact solid.lists b u before
      · exact solid.values u replaces.mem_values
    · exact solid.lists a u mem

theorem step_fine (solid : m.Solid) (n : Int64) (s : State) :
    m.step limit ≠ failed (.semantic (.fieldOutOfRange n 0)) s := by
  intro failed
  by_cases ended : m.isOver
  · exact solid.fine n s (step_of_isOver limit ended ▸ failed)
  · have raises : (m.step limit).FailsWith m.Raises := failsWith_step ended
    rw [failed] at raises
    generalize length : 0 = l at raises
    cases raises with
    | call _ ofCall => cases ofCall
    | operands operands => cases operands
    | @field _ items k s here =>
      subst here
      cases List.length_eq_zero_iff.mp length.symm
      exact (solid.values _ List.mem_cons_self).ne_empty rfl

theorem move {among : Program → Prop} (solid : m.Solid) (code : m.Obeys .solid)
    (move : m.Move limit among m') : m'.Solid where
  indexed := by
    cases move with
    | step => exact .step code solid.indexed
    | start => trivial
  values _ mem := solid.origin (move.origin mem)
  lists := solid.rewrites move.rewrites
  fine := by
    cases move with
    | step => exact solid.step_fine
    | start => exact fun _ _ => Machine.noConfusion

end Solid

variable {limit : Nat} {among : Program → Prop} {output : Output} {m : Machine}

theorem solid_fresh : (finished (.fresh output)).Solid where
  indexed := trivial
  values v mem := by cases mem
  lists a u mem := absurd (Lists.lt_size_of_mem _ a u mem) (Nat.not_lt_zero _)
  fine _ _ := Machine.noConfusion

theorem solid_later (programs : ∀ p, among p → p.Obeys .solid)
    (later : Later limit among (finished (.fresh output)) m) : m.Solid := by
  induction later with
  | refl => exact solid_fresh
  | tail before last ih =>
    exact ih.move (Obeys.later programs before .empty trivial).2 last

end Machine

theorem Value.place?_ne_none {ls : Lists} {target : Value} {indices : List Value}
    (some : indices ≠ []) : target.place? ls indices ≠ .ok none :=
  fun none => some (place?_eq_none_iff.mp none)

theorem State.place?_ne_none {s : State} {x : Name} {indices : List Value} (some : indices ≠ []) :
    s.place? x indices ≠ .ok none := by
  unfold place?
  split
  · exact nofun
  · exact Value.place?_ne_none some

def Program.FromText (p : Program) : Prop := ∃ source, parse source = .ok p

/--
However many texts are run one after another, and however the runs end, no value has an empty tuple
in it: none of those bound, passed, returned, or on the way to somewhere, and no element of a list.
So `()` is not a part of what is printed, and no field is asked of a tuple that has none. An index
list is never empty when it is used, to look up an element or to replace one, so that an assignment
with indices never goes by without effect.
-/
theorem no_empty_tuples_or_index_chains {limit : Nat} {output : Output} {m : Machine}
    (later : Machine.Later limit Program.FromText (.finished (.fresh output)) m) :
    (∀ v ∈ m.values, ¬ v.Within m.state.lists (.tuple [])) ∧
    (∀ a, ¬ (Value.list a).Within m.state.lists (.tuple [])) ∧
    (∀ v k s, m = .value v (.print k) s →
      ∀ around, ¬ (Piece.value {} v).Covers s.lists (.value around (.tuple []))) ∧
    (∀ n s, m ≠ .failed (.semantic (.fieldOutOfRange n 0)) s) ∧
    (∀ target values k s, m = .gather (.indices target) values [] k s → values ≠ []) ∧
    ∀ v x indices k s, m = .value v (.assignAt x indices k) s →
      indices ≠ [] ∧ s.place? x indices ≠ .ok none := by
  have solid : m.Solid := Machine.solid_later
    (fun _ ⟨_, read⟩ => (Program.parse_wellFormed read).solid) later
  have values (v : Value) (mem : v ∈ m.values) : ¬ v.Within m.state.lists (.tuple []) :=
    (solid.values v mem).not_within_empty solid.lists
  have lists (a : ListId) : ¬ (Value.list a).Within m.state.lists (.tuple []) :=
    (Value.Solid.list a).not_within_empty solid.lists
  refine ⟨values, lists, ?_, solid.fine, ?_, ?_⟩
  · rintro v k s rfl around covers
    exact values v List.mem_cons_self (covers.within rfl).1
  · rintro target values k s rfl
    exact (solid.indexed.1 trivial).resolve_right (absurd rfl)
  · rintro v x indices k s rfl
    exact ⟨solid.indexed.1, State.place?_ne_none solid.indexed.1⟩

namespace Program

/-- `{ t = ([1],); u = #1 t; u[0] = t; print(u[0]); }` -/
def knotted : Program where
  functions := []
  main := [.assign "t" (.tuple [.list [.literal (.int 1)]]), .assign "u" (.field 1 (.var "t")),
    .assignAt "u" [.literal (.int 0)] (.var "t"), .print (.index (.var "u") [.literal (.int 0)])]

theorem fromText_knotted : knotted.FromText := by
  have t : IsName "t" := ⟨Lexeme.mem_word.mpr ⟨'t', [], rfl, by simp, rfl⟩, by decide⟩
  have u : IsName "u" := ⟨Lexeme.mem_word.mpr ⟨'u', [], rfl, by simp, rfl⟩, by decide⟩
  have wf : knotted.WellFormed := by
    constructor
    · simp [knotted]
    · simp [knotted, Stmt.WellFormed, Expr.WellFormed, Literal.token, Token.WellFormed, t, u]
  exact ⟨_, parse_text wf Lexeme.spellsReals_realText⟩

theorem no_empty_tuples_or_index_chains_knotted :
    let m (n : Nat) := ((State.fresh .unlimited).start knotted).advance 9 n
    let v : Value := .tuple [.list ⟨0⟩]
    (∀ n, Machine.Later 9 FromText (.finished (.fresh .unlimited)) (m n)) ∧
    (∃ indices k s, m 24 = .value v (.assignAt "u" indices k) s ∧ indices ≠ []) ∧
    ∃ k s, m 34 = .value v (.print k) s ∧ ¬ v.Within s.lists (.tuple []) ∧
      ∀ around, ¬ (Piece.value {} v).Covers s.lists (.value around (.tuple [])) := by
  intro m v
  have later (n : Nat) : Machine.Later 9 FromText (.finished (.fresh .unlimited)) (m n) :=
    .head (.start rfl fromText_knotted) (Machine.later_advance _ n)
  obtain ⟨_, _, _, _, _, assigned⟩ := no_empty_tuples_or_index_chains (later 24)
  obtain ⟨values, _, printed, _⟩ := no_empty_tuples_or_index_chains (later 34)
  have assigning : m 24 = .value v (.assignAt "u" _ _) (m 24).state := rfl
  have printing : m 34 = .value v (.print _) (m 34).state := rfl
  exact ⟨later, ⟨_, _, _, assigning, (assigned _ _ _ _ _ assigning).1⟩, _, _, printing,
    values v (printing ▸ List.mem_cons_self), printed _ _ _ printing⟩

end Program

end Scriptlet
