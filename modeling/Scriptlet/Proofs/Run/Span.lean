import Scriptlet.Proofs.Run.Variables
import Scriptlet.Run.Machine

namespace Scriptlet

inductive Machine.BackAt : {w : Awaits} → Cont w → State → Machine → Prop
  | value {k : Cont .value} {s : State} (v : Value) : BackAt k s (.value v k s)
  | done {k : Cont .done} {s : State} : BackAt k s (.run [] k s)

/--
If the machine comes to go on with `k`, it does so first in a state that satisfies `P`; if it
fails before, it leaves the calls of `k` from a state that satisfies `P`.
-/
def Machine.Ensures (limit : Nat) {w : Awaits} (k : Cont w) (P : State → Prop) (m : Machine) :
    Prop :=
  ∀ n, (∀ j < n, ∀ s, ¬ BackAt k s (m.advance limit j)) →
    (∀ s, BackAt k s (m.advance limit n) → P s) ∧
    ∀ f s, m.advance limit n = .failed f s → ∃ s', s = k.unwind s' ∧ P s'

structure State.Lasting (w : Awaits) (P : State → Prop) : Prop where
  congr {s s' : State} : s'.calls = s.calls → s'.globals = s.globals → P s → P s'
  put {s : State} {x : Name} (v : Value) :
    s.globals.has x → P s → P { s with globals := s.globals.put x v }
  assign {s : State} (x : Name) (v : Value) : w = .done → P s → P (s.assign x v)

def Purpose.Fits (limit : Nat) (s : State) : Purpose → Prop
  | .arguments _ => s.depth < limit
  | _ => True

theorem Purpose.Fits.congr {limit : Nat} {s s' : State} {p : Purpose} (h : p.Fits limit s)
    (depth : s'.depth = s.depth) : p.Fits limit s' := by
  cases p with
  | arguments f => exact Nat.lt_of_le_of_lt (Nat.le_of_eq depth) h
  | _ => trivial

/--
The continuation ends in `k₀`, and the calls that it returns from before that, taken off the
state, leave one that satisfies `P`.
-/
inductive Cont.Below (limit : Nat) {w₀ : Awaits} (k₀ : Cont w₀) (P : State → Prop) :
    {w : Awaits} → Cont w → State → Prop
  | base {s} : P s → k₀.Below limit P k₀ s
  | unary {op k s} : k₀.Below limit P k s → k₀.Below limit P (.unary op k) s
  | binaryLeft {op r k s} : k₀.Below limit P k s → k₀.Below limit P (.binaryLeft op r k) s
  | binaryRight {op l k s} : k₀.Below limit P k s → k₀.Below limit P (.binaryRight op l k) s
  | index {indices k s} : k₀.Below limit P k s → k₀.Below limit P (.index indices k) s
  | field {n k s} : k₀.Below limit P k s → k₀.Below limit P (.field n k) s
  | next {p : Purpose} {values es k s} : p.Fits limit s → k₀.Below limit P k s →
      k₀.Below limit P (.next p values es k) s
  | leave {k s} : 0 < s.depth → s.depth ≤ limit → k₀.Below limit P k s.leave →
      k₀.Below limit P (.leave k) s
  | print {k s} : k₀.Below limit P k s → k₀.Below limit P (.print k) s
  | assign {x k s} : k₀.Below limit P k s → k₀.Below limit P (.assign x k) s
  | assignAt {x indices k s} : k₀.Below limit P k s → k₀.Below limit P (.assignAt x indices k) s
  | branch {body other k s} : k₀.Below limit P k s → k₀.Below limit P (.branch body other k) s
  | loop {cond body k s} : k₀.Below limit P k s → k₀.Below limit P (.loop cond body k) s
  | discard {k s} : k₀.Below limit P k s → k₀.Below limit P (.discard k) s
  | rest {ss k s} : k₀.Below limit P k s → k₀.Below limit P (.rest ss k) s
  | again {cond body k s} : k₀.Below limit P k s → k₀.Below limit P (.again cond body k) s
  | result {e k s} : 0 < s.depth → s.depth ≤ limit → k₀.Below limit P k s.leave →
      k₀.Below limit P (.result e k) s

namespace Cont.Below

variable {limit : Nat} {w₀ : Awaits} {k₀ : Cont w₀} {P : State → Prop}

theorem sizeOf_le {w : Awaits} {k : Cont w} {s : State} (h : k₀.Below limit P k s) :
    sizeOf k₀ ≤ sizeOf k := by
  induction h <;> simp_all <;> omega

theorem at_base {s : State} (h : k₀.Below limit P k₀ s) : P s := by
  cases h with
  | base holds => exact holds
  | _ =>
    have smaller := sizeOf_le (by assumption)
    simp +arith at smaller

theorem congr (lasting : State.Lasting w₀ P) {w : Awaits} {k : Cont w} {s s' : State}
    (calls : s'.calls = s.calls) (globals : s'.globals = s.globals) (h : k₀.Below limit P k s) :
    k₀.Below limit P k s' := by
  induction h generalizing s' with
  | base holds => exact .base (lasting.congr calls globals holds)
  | next fits _ ih => exact .next (fits.congr (State.depth_congr calls)) (ih calls globals)
  | leave inside bound _ ih =>
    have depth := State.depth_congr calls
    refine .leave (depth ▸ inside) (depth ▸ bound) (ih ?_ globals)
    simp only [State.leave, calls]
  | result inside bound _ ih =>
    have depth := State.depth_congr calls
    refine .result (depth ▸ inside) (depth ▸ bound) (ih ?_ globals)
    simp only [State.leave, calls]
  | _ => constructor; apply_assumption <;> assumption

theorem put (lasting : State.Lasting w₀ P) {w : Awaits} {k : Cont w} {s : State} {x : Name}
    (v : Value) (known : s.globals.has x) (h : k₀.Below limit P k s) :
    k₀.Below limit P k { s with globals := s.globals.put x v } := by
  induction h with
  | base holds => exact .base (lasting.put v known holds)
  | next fits _ ih => exact .next (fits.congr rfl) (ih known)
  | leave inside bound _ ih => exact .leave inside bound (ih known)
  | result inside bound _ ih => exact .result inside bound (ih known)
  | _ => constructor; apply_assumption; assumption

/-- Statements of a call may bind its variables, since the call is left before `k₀`. -/
theorem rebind (lasting : State.Lasting w₀ P) {k : Cont .done} {s : State} (x : Name) (v : Value)
    (h : k₀.Below limit P k s) : k₀.Below limit P k (s.assign x v) := by
  generalize awaits : Awaits.done = w at k
  induction h with
  | base holds => exact .base (lasting.assign x v awaits.symm holds)
  | rest _ ih => exact .rest (ih awaits)
  | again _ ih => exact .again (ih awaits)
  | @result _ _ s inside bound ended _ =>
    rcases State.assign_of_depth_pos inside x v with ⟨known, same⟩ | ⟨frame, callers, top, same⟩
    · rw [same]
      exact .result inside bound (put (s := State.leave _) lasting v known ended)
    · have depth := s.depth_assign x v
      refine .result (depth ▸ inside) (depth ▸ bound) (ended.congr lasting ?_ ?_)
      · rw [same]
        exact Calls.leave_enter _ _
      · rw [same]
        rfl
  | _ => cases awaits

theorem unwind {w : Awaits} {k : Cont w} {s : State} (h : k₀.Below limit P k s) :
    ∃ s', k.unwind s = k₀.unwind s' ∧ P s' := by
  induction h with
  | base holds => exact ⟨_, rfl, holds⟩
  | _ => assumption

end Cont.Below

def Machine.Inside (limit : Nat) {w₀ : Awaits} (k₀ : Cont w₀) (P : State → Prop) : Machine → Prop
  | eval _ k s | value _ k s | run _ k s => k₀.Below limit P k s
  | gather p _ _ k s => p.Fits limit s ∧ k₀.Below limit P k s
  | failed _ s => ∃ s', s = k₀.unwind s' ∧ P s'
  | _ => False

namespace Machine.Inside

variable {limit : Nat} {w₀ : Awaits} {k₀ : Cont w₀} {P : State → Prop}

theorem reject {w : Awaits} {k : Cont w} {s : State} (e : SemanticError)
    (h : k₀.Below limit P k s) : (Machine.reject e k s).Inside limit k₀ P := h.unwind

theorem pass {k : Cont .value} {s : State} (r : Except SemanticError Value)
    (h : k₀.Below limit P k s) : (Machine.pass r k s).Inside limit k₀ P := by
  cases r with
  | ok v => exact h
  | error e => exact h.unwind

theorem call {k : Cont .value} {s : State} (f : Name) (args : List Expr)
    (h : k₀.Below limit P k s) : (Machine.call limit f args k s).Inside limit k₀ P := by
  unfold Machine.call
  split
  · exact reject _ h
  · split
    · exact reject _ h
    · split
      · exact reject _ h
      · rename_i room
        exact ⟨Nat.lt_of_not_le room, h⟩

theorem stepEval {k : Cont .value} {s : State} (e : Expr) (h : k₀.Below limit P k s) :
    (Machine.stepEval limit e k s).Inside limit k₀ P := by
  cases e with
  | literal l => exact h
  | list items => exact ⟨trivial, h⟩
  | tuple items => exact ⟨trivial, h⟩
  | var x => exact pass _ h
  | unary op e => exact .unary h
  | binary op l r => exact .binaryLeft h
  | index target indices => exact .index h
  | field n target => exact .field h
  | call f args => exact call f args h

theorem stepStmt {k : Cont .done} {s : State} (st : Stmt) (h : k₀.Below limit P k s) :
    (Machine.stepStmt limit st k s).Inside limit k₀ P := by
  cases st with
  | print e => exact .print h
  | assign x e => exact .assign h
  | assignAt x indices e => exact ⟨trivial, h⟩
  | block body => exact h
  | ifThen cond body => exact .branch h
  | ifElse cond body other => exact .branch h
  | loop cond body => exact .loop h
  | call f args => exact call f args (.discard h)

theorem use (lasting : State.Lasting w₀ P) {p : Purpose} {k : Cont p.awaits} {s : State}
    (values : List Value) (fits : p.Fits limit s) (h : k₀.Below limit P k s) :
    (Machine.use p values k s).Inside limit k₀ P := by
  cases p with
  | list =>
    show k₀.Below limit P k (s.accept (.list (.ofList values))).2
    exact h.congr lasting (s.calls_accept _) (s.globals_accept _)
  | tuple => exact h
  | indices target => exact pass _ h
  | arguments f => exact .result (Nat.succ_pos _) fits (by rwa [State.leave_enter])
  | positions x e => exact .assignAt h

theorem stepDone {k : Cont .done} {s : State} (h : k₀.Below limit P k s) :
    (∃ t, BackAt k₀ t (.run [] k s)) ∨ (Machine.stepDone k s).Inside limit k₀ P := by
  cases h with
  | base _ => exact .inl ⟨s, .done⟩
  | rest below => exact .inr below
  | again below => exact .inr (.loop below)
  | result inside bound below => exact .inr (.leave inside bound below)

theorem onCondition {k : Cont .done} {s : State} (v : Value) {go : Bool → Machine}
    (h : k₀.Below limit P k s) (goes : ∀ b, (go b).Inside limit k₀ P) :
    (Machine.onCondition v k s go).Inside limit k₀ P := by
  unfold Machine.onCondition
  split
  · exact goes _
  · exact reject _ h

theorem stepValue (lasting : State.Lasting w₀ P) {k : Cont .value} {s : State} (v : Value)
    (h : k₀.Below limit P k s) :
    (∃ t, BackAt k₀ t (.value v k s)) ∨ (Machine.stepValue v k s).Inside limit k₀ P := by
  cases h with
  | base _ => exact .inl ⟨s, .value v⟩
  | unary below => exact .inr (pass _ below)
  | binaryLeft below => exact .inr (.binaryRight below)
  | binaryRight below =>
    right
    simp only [Machine.stepValue]
    split
    · exact below.congr lasting (State.calls_accept _ _) (State.globals_accept _ _)
    · exact reject _ below
  | index below => exact .inr ⟨trivial, below⟩
  | field below => exact .inr (pass _ below)
  | next fits below => exact .inr ⟨fits, below⟩
  | leave _ _ below => exact .inr below
  | print below =>
    right
    simp only [Machine.stepValue]
    have printed := below.congr lasting (s.calls_print (v.display s.lists)) (s.globals_print _)
    rcases written : s.print (v.display s.lists) with ⟨s', all⟩
    rw [written] at printed
    cases all with
    | true => exact printed
    | false => exact printed.unwind
  | assign below => exact .inr (below.rebind lasting _ _)
  | assignAt below =>
    right
    simp only [Machine.stepValue]
    split
    · exact below.congr lasting (s.calls_write _ _) (s.globals_write _ _)
    · exact reject _ below
  | branch below => exact .inr (onCondition v below fun _ => below)
  | loop below =>
    refine .inr (onCondition v below fun b => ?_)
    cases b with
    | true => exact .again below
    | false => exact below
  | discard below => exact .inr below

theorem step (lasting : State.Lasting w₀ P) {m : Machine} (h : m.Inside limit k₀ P) :
    (∃ t, BackAt k₀ t m) ∨ (m.step limit).Inside limit k₀ P := by
  cases m with
  | eval e k s => exact .inr (stepEval e h)
  | gather p values es k s =>
    cases es with
    | nil => exact .inr (use lasting _ h.1 h.2)
    | cons e es => exact .inr (.next h.1 h.2)
  | value v k s =>
    simp only [Machine.step]
    exact stepValue lasting v h
  | run ss k s =>
    cases ss with
    | nil =>
      simp only [Machine.step]
      exact stepDone h
    | cons st ss => exact .inr (stepStmt st (.rest h))
  | failed f s => exact .inr h
  | returned v s => exact h.elim
  | finished s => exact h.elim

end Machine.Inside

namespace Machine

theorem step_of_isOver (limit : Nat) {m : Machine} (ended : m.isOver) : m.step limit = m := by
  cases m <;> first | rfl | cases ended

theorem advance_succ (limit n : Nat) (m : Machine) :
    m.advance limit (n + 1) = (m.advance limit n).step limit := by
  induction n generalizing m with
  | zero =>
    show (if m.isOver then m else m.step limit) = m.step limit
    by_cases ended : m.isOver
    · rw [if_pos ended, step_of_isOver limit ended]
    · rw [if_neg ended]
  | succ n ih =>
    by_cases ended : m.isOver
    · rw [advance, if_pos ended, advance, if_pos ended, step_of_isOver limit ended]
    · rw [advance, if_neg ended, ih, advance, if_neg ended]

theorem advance_add (limit i j : Nat) (m : Machine) :
    m.advance limit (i + j) = (m.advance limit i).advance limit j := by
  induction j with
  | zero => rfl
  | succ j ih => rw [← Nat.add_assoc, advance_succ, advance_succ, ih]

theorem advance_of_isOver (limit : Nat) {m : Machine} (ended : m.isOver) (n : Nat) :
    m.advance limit n = m := by
  cases n with
  | zero => rfl
  | succ n => rw [advance, if_pos ended]

def Reaches (limit : Nat) (m m' : Machine) : Prop := ∃ n, m.advance limit n = m'

namespace Reaches

variable {limit : Nat} {m m₁ m₂ : Machine}

theorem refl (m : Machine) : m.Reaches limit m := ⟨0, rfl⟩

theorem of_eq (same : m = m₁) : m.Reaches limit m₁ := ⟨0, same⟩

theorem trans (first : m.Reaches limit m₁) (second : m₁.Reaches limit m₂) :
    m.Reaches limit m₂ := by
  obtain ⟨i, rfl⟩ := first
  obtain ⟨j, rfl⟩ := second
  exact ⟨i + j, advance_add limit i j m⟩

theorem step (rest : (m.step limit).Reaches limit m₁) : m.Reaches limit m₁ :=
  .trans ⟨1, advance_succ limit 0 m⟩ rest

theorem unique (first : m.Reaches limit m₁) (second : m.Reaches limit m₂) (ended₁ : m₁.isOver)
    (ended₂ : m₂.isOver) : m₁ = m₂ := by
  obtain ⟨i, rfl⟩ := first
  obtain ⟨j, rfl⟩ := second
  rw [← advance_of_isOver limit ended₁ j, ← advance_add, Nat.add_comm, advance_add,
    advance_of_isOver limit ended₂]

theorem ends (reaches : m.Reaches limit m₁) (ended : m₁.isOver) :
    ∃ n, (m.advance limit n).isOver := by
  obtain ⟨n, rfl⟩ := reaches
  exact ⟨n, ended⟩

theorem isOver (reaches : m.Reaches limit m₁) {n : Nat} (ended : (m.advance limit n).isOver) :
    ∃ j, (m₁.advance limit j).isOver := by
  obtain ⟨i, rfl⟩ := reaches
  refine ⟨n, ?_⟩
  rw [← advance_add, Nat.add_comm, advance_add, advance_of_isOver limit ended]
  exact ended

end Reaches

namespace Inside

variable {limit : Nat} {w₀ : Awaits} {k₀ : Cont w₀} {P : State → Prop}

theorem of_backAt {m : Machine} {s : State} (h : m.Inside limit k₀ P) (back : BackAt k₀ s m) :
    P s := by
  cases back with
  | value v => exact Cont.Below.at_base h
  | done => exact Cont.Below.at_base h

theorem advance (lasting : State.Lasting w₀ P) {m : Machine} (h : m.Inside limit k₀ P) (n : Nat)
    (inFront : ∀ j < n, ∀ s, ¬ BackAt k₀ s (m.advance limit j)) :
    (m.advance limit n).Inside limit k₀ P := by
  induction n with
  | zero => exact h
  | succ n ih =>
    rw [advance_succ]
    have here := ih fun j lt => inFront j (Nat.lt_succ_of_lt lt)
    rcases here.step lasting with ⟨s, back⟩ | next
    · exact absurd back (inFront n (Nat.lt_succ_self n) s)
    · exact next

theorem ensures (lasting : State.Lasting w₀ P) {m : Machine} (h : m.Inside limit k₀ P) :
    m.Ensures limit k₀ P := by
  intro n inFront
  have here := h.advance lasting n inFront
  refine ⟨fun s back => here.of_backAt back, fun f s failed => ?_⟩
  rw [failed] at here
  exact here

theorem advance_halt {w : Awaits} (lasting : State.Lasting w P) {m : Machine}
    (h : m.Inside limit (.halt : Cont w) P) (n : Nat) :
    (m.advance limit n).Inside limit (.halt : Cont w) P ∨
      (m.advance limit n).isOver ∧ P (m.advance limit n).state := by
  induction n with
  | zero => exact .inl h
  | succ n ih =>
    rw [advance_succ]
    rcases ih with inside | ⟨ended, holds⟩
    · rcases inside.step lasting with ⟨s, back⟩ | next
      · have holds := inside.of_backAt back
        generalize m.advance limit n = last at back
        cases back with
        | value v => exact .inr ⟨rfl, holds⟩
        | done => exact .inr ⟨rfl, holds⟩
      · exact .inl next
    · rw [step_of_isOver limit ended]
      exact .inr ⟨ended, holds⟩

theorem state_of_isOver {w : Awaits} (lasting : State.Lasting w P) {m : Machine}
    (h : m.Inside limit (.halt : Cont w) P) (n : Nat) (ended : (m.advance limit n).isOver) :
    P (m.advance limit n).state := by
  rcases h.advance_halt lasting n with inside | ⟨_, holds⟩
  · generalize m.advance limit n = last at inside ended
    cases last with
    | failed f s =>
      obtain ⟨s', same, holds⟩ := inside
      have unwound : (Cont.halt : Cont w).unwind s' = s' := by cases w <;> rfl
      rw [unwound] at same
      exact same ▸ holds
    | returned v s => exact inside.elim
    | finished s => exact inside.elim
    | eval e k s => cases ended
    | gather p values es k s => cases ended
    | value v k s => cases ended
    | run ss k s => cases ended
  · exact holds

end Inside

end Machine

end Scriptlet
