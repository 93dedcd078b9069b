import Scriptlet.Proofs.Run.Span

namespace Scriptlet

def SemanticError.ofOperands : SemanticError → Bool
  | typeMismatch .. | indexOutOfRange .. | divisionByZero | noRealResult _ | overflow _ => true
  | _ => false

def OfOperands {α : Type} (r : Except SemanticError α) : Prop :=
  ∀ e, r = .error e → e.ofOperands = true

namespace OfOperands

variable {α β : Type}

theorem ok (a : α) : OfOperands (.ok a) := fun _ => nofun

theorem error {e : SemanticError} (other : e.ofOperands = true) :
    OfOperands (.error e : Except SemanticError α) := by
  intro e' same
  cases same
  exact other

theorem passed {r : Except SemanticError α} {e : SemanticError} (h : OfOperands r)
    (found : r = .error e) : OfOperands (.error e : Except SemanticError β) :=
  error (h e found)

theorem map {r : Except SemanticError α} (h : OfOperands r) (f : α → β) : OfOperands (r.map f) := by
  cases r with
  | ok a => exact ok _
  | error e => exact h.passed rfl

theorem exactInt (op : String) (n : Int) : OfOperands (exactInt op n) := by
  unfold Scriptlet.exactInt
  split
  · exact ok _
  · exact error rfl

theorem realPower (b e : Float) : OfOperands (realPower b e) := by
  simp only [Scriptlet.realPower]
  split
  · exact error rfl
  split
  · exact error rfl
  split
  · exact error rfl
  · exact ok _

theorem onInts (op : Arithmetic) (a b : Int64) : OfOperands (op.onInts a b) := by
  cases op with
  | add | sub | mul => exact exactInt _ _
  | div =>
    simp only [Arithmetic.onInts]
    split
    · exact error rfl
    · exact ok _
  | pow =>
    simp only [Arithmetic.onInts]
    split
    · exact realPower _ _
    split
    · exact exactInt _ _
    · exact error rfl
  | intDiv =>
    simp only [Arithmetic.onInts]
    split
    · exact error rfl
    · exact exactInt _ _
  | mod =>
    simp only [Arithmetic.onInts]
    split
    · exact error rfl
    split
    · exact error rfl
    · exact exactInt _ _

theorem onReals {op : Arithmetic} {a b : Float} {r : Except SemanticError Number}
    (h : op.onReals? a b = some r) : OfOperands r := by
  cases op with
  | add | sub | mul =>
    cases h
    exact ok _
  | div =>
    cases h
    split
    · exact error rfl
    · exact ok _
  | pow =>
    cases h
    exact realPower a b
  | intDiv | mod => cases h

theorem onNumbers {op : Arithmetic} {m n : Number} {r : Except SemanticError Number}
    (h : op.onNumbers? m n = some r) : OfOperands r := by
  unfold Arithmetic.onNumbers? at h
  split at h
  · cases h
    exact onInts op _ _
  · exact onReals h

theorem arithmetic (ls : Lists) (op : Arithmetic) (a b : Value) : OfOperands (op.apply ls a b) := by
  unfold Arithmetic.apply
  split
  · exact ok _
  · exact ok _
  · simp only
    split
    · split
      · rename_i found
        exact (onNumbers found).map _
      · exact error rfl
    · exact error rfl

theorem comparison (c : Comparison) (a b : Value) : OfOperands (c.apply a b) := by
  simp only [Comparison.apply]
  split
  · exact ok _
  · split
    · cases c with
      | eq => exact ok _
      | ne => exact ok _
      | _ => exact error rfl
    · exact error rfl
  · split
    · cases c with
      | eq => exact ok _
      | ne => exact ok _
      | _ => exact error rfl
    · exact error rfl
  · split
    · split <;> exact ok _
    · exact error rfl

theorem member (ls : Lists) (item container : Value) : OfOperands (item.member ls container) := by
  unfold Value.member
  split
  · exact ok _
  · exact ok _
  · exact error rfl

theorem binary (ls : Lists) (op : BinaryOp) (a b : Value) : OfOperands (op.apply ls a b) := by
  cases op with
  | orElse | andAlso | cons =>
    simp only [BinaryOp.apply]
    split
    · exact ok _
    · exact error rfl
  | compare c => exact (comparison c a b).map _
  | member => exact (member ls a b).map _
  | arith op => exact arithmetic ls op a b

theorem unary (op : UnaryOp) (v : Value) : OfOperands (op.apply v) := by
  unfold UnaryOp.apply
  split
  · exact ok _
  · exact (exactInt _ _).map _
  · exact ok _
  · exact error rfl

theorem atIndex {at? : Nat → Option α} (length : Nat) (i : Int64) :
    OfOperands (atIndex at? length i) := by
  unfold Scriptlet.atIndex
  split
  · exact error rfl
  split
  · exact ok _
  · exact error rfl

theorem step (ls : Lists) (target index : Value) : OfOperands (target.step ls index) := by
  unfold Value.step
  split
  · split
    · exact atIndex _ _
    · exact (atIndex _ _).map _
    · exact error rfl
  · exact error rfl

theorem indexed (ls : Lists) (target : Value) (indices : List Value) :
    OfOperands (target.at ls indices) := by
  induction indices generalizing target with
  | nil => exact ok _
  | cons i is ih =>
    rw [Value.at]
    cases first : target.step ls i with
    | ok v => exact ih v
    | error e => exact (step ls target i).passed first

theorem position (v : Value) : OfOperands v.position := by
  unfold Value.position
  split
  · exact ok _
  · exact error rfl

theorem positions (vs : List Value) : OfOperands (vs.mapM Value.position) := by
  induction vs with
  | nil => exact ok _
  | cons v vs ih =>
    rw [List.mapM_cons]
    cases first : v.position with
    | error e => exact (position v).passed first
    | ok i =>
      cases rest : vs.mapM Value.position with
      | error e => exact ih.passed rest
      | ok is => exact ok _

theorem place (ls : Lists) (target : Value) (i : Int64) (is : List Int64) :
    OfOperands (target.place ls i is) := by
  induction is generalizing target i with
  | nil =>
    unfold Value.place
    split
    · exact (atIndex _ _).map _
    · exact error rfl
  | cons j is ih =>
    unfold Value.place
    split
    · split
      · exact ih _ _
      · rename_i found
        exact (atIndex _ _).passed found
    · exact error rfl

theorem place? (ls : Lists) (target : Value) (indices : List Value) :
    OfOperands (target.place? ls indices) := by
  unfold Value.place?
  split
  · rename_i found
    exact (positions indices).passed found
  · exact ok _
  · exact (place _ _ _ _).map _

end OfOperands

theorem Value.error_of_field {n : Int64} {target : Value} {e : SemanticError}
    (failed : target.field n = .error e) :
    e.ofOperands = true ∨ ∃ items, target = .tuple items ∧ e = .fieldOutOfRange n items.length := by
  unfold field at failed
  split at failed
  · rename_i items
    refine .inr ⟨items, rfl, ?_⟩
    split at failed
    · cases failed
      rfl
    split at failed
    · cases failed
    · cases failed
      rfl
  · cases failed
    exact .inl rfl

def SemanticError.ofCall : SemanticError → Bool
  | unknownFunction _ | arityMismatch .. | callDepthExceeded _ => true
  | _ => false

theorem SemanticError.ofCall_of_ofOperands {e : SemanticError} (operands : e.ofOperands = true) :
    e.ofCall = false := by
  cases e <;> first | rfl | cases operands

namespace Machine

def CallFailed : Machine → Prop
  | failed (.semantic e) _ => e.ofCall
  | _ => False

inductive Calls (f : Name) (args : List Expr) : Machine → Prop
  | expr (k : Cont .value) (s : State) : Calls f args (eval (.call f args) k s)
  | stmt (ss : List Stmt) (k : Cont .done) (s : State) : Calls f args (run (.call f args :: ss) k s)

/-- What the machine is about to do can fail with this error. -/
inductive Raises (m : Machine) : SemanticError → Prop
  | call {f : Name} {args : List Expr} {e : SemanticError} :
      m.Calls f args → e.ofCall = true → Raises m e
  | field {n : Int64} {items : List Value} {k : Cont .value} {s : State} :
      m = value (.tuple items) (.field n k) s → Raises m (.fieldOutOfRange n items.length)
  | operands {e : SemanticError} : e.ofOperands = true → Raises m e
  | variable (x : Name) : Raises m (.unknownVariable x)
  | condition (found : Kind) : Raises m (.nonBooleanCondition found)

def FailsWith (among : SemanticError → Prop) : Machine → Prop
  | failed (.semantic e) _ => among e
  | _ => True

section

variable {among : SemanticError → Prop} {s : State}

theorem failsWith_pass {k : Cont .value} {r : Except SemanticError Value}
    (errors : ∀ e, r = .error e → among e) : (pass r k s).FailsWith among := by
  cases r with
  | ok v => trivial
  | error e => exact errors e rfl

theorem failsWith_call {limit : Nat} {f : Name} {args : List Expr} {k : Cont .value}
    (errors : ∀ e, e.ofCall = true → among e) : (call limit f args k s).FailsWith among := by
  unfold call
  split
  · exact errors _ rfl
  split
  · exact errors _ rfl
  split
  · exact errors _ rfl
  · trivial

theorem failsWith_onCondition {k : Cont .done} (v : Value) {go : Bool → Machine}
    (condition : ∀ found, among (.nonBooleanCondition found))
    (goes : ∀ b, (go b).FailsWith among) : (onCondition v k s go).FailsWith among := by
  unfold onCondition
  split
  · exact goes _
  · exact condition _

end

variable {limit : Nat} {s : State} {m : Machine}

theorem raises_of_lookup {x : Name} {e : SemanticError} (failed : s.lookup x = .error e) :
    m.Raises e := by
  unfold State.lookup at failed
  split at failed
  · cases failed
  · cases failed
    exact .variable x

theorem raises_of_place? {x : Name} {indices : List Value} {e : SemanticError}
    (failed : s.place? x indices = .error e) : m.Raises e := by
  unfold State.place? at failed
  split at failed
  · rename_i found
    cases failed
    exact raises_of_lookup found
  · exact .operands (OfOperands.place? _ _ _ e failed)

theorem failsWith_stepValue (v : Value) (k : Cont .value) :
    (stepValue v k s).FailsWith (value v k s).Raises := by
  cases k with
  | unary op k => exact failsWith_pass fun e failed => .operands (OfOperands.unary op v e failed)
  | binaryRight op l k =>
    simp only [stepValue]
    split
    · trivial
    · rename_i failed
      exact .operands (OfOperands.binary _ _ _ _ _ failed)
  | field n k =>
    refine failsWith_pass fun e failed => ?_
    rcases Value.error_of_field failed with operands | ⟨items, rfl, rfl⟩
    · exact .operands operands
    · exact .field rfl
  | print k =>
    simp only [stepValue]
    split <;> trivial
  | assignAt x indices k =>
    simp only [stepValue]
    split
    · trivial
    · rename_i failed
      exact raises_of_place? failed
  | branch body other k => exact failsWith_onCondition v .condition fun _ => trivial
  | loop cond body k =>
    refine failsWith_onCondition v .condition fun b => ?_
    cases b <;> trivial
  | _ => trivial

theorem failsWith_step (running : ¬ m.isOver) : (m.step limit).FailsWith m.Raises := by
  cases m with
  | eval e k s =>
    cases e with
    | call f args => exact failsWith_call fun _ => .call (.expr k s)
    | var x => exact failsWith_pass fun _ failed => raises_of_lookup failed
    | _ => trivial
  | gather p values es k s =>
    cases es with
    | nil =>
      cases p with
      | indices target =>
        exact failsWith_pass fun e failed => .operands (OfOperands.indexed _ _ _ e failed)
      | _ => trivial
    | cons e es => trivial
  | value v k s => exact failsWith_stepValue v k
  | run ss k s =>
    cases ss with
    | nil => cases k <;> trivial
    | cons st ss =>
      cases st with
      | call f args => exact failsWith_call fun _ => .call (.stmt ss k s)
      | _ => trivial
  | _ => exact absurd rfl running

theorem not_callFailed_step (running : ¬ m.isOver) (elsewhere : ∀ f args, ¬ m.Calls f args) :
    ¬ (m.step limit).CallFailed := by
  have raises : (m.step limit).FailsWith m.Raises := failsWith_step running
  intro failed
  unfold CallFailed at failed
  split at failed
  · rename_i e s found
    rw [found] at raises
    cases raises with
    | call calls _ => exact elsewhere _ _ calls
    | operands operands =>
      rw [SemanticError.ofCall_of_ofOperands operands] at failed
      cases failed
    | _ => cases failed
  · exact failed

/-- A step makes a call, or it is the same whatever the limit and does not fail like a call. -/
theorem step_cases (m : Machine) : m.isOver ∨
    (∃ f args k, m.Calls f args ∧ ∀ limit, m.step limit = call limit f args k m.state) ∨
    ∃ next : Machine, ¬ next.CallFailed ∧ ∀ limit, m.step limit = next := by
  have plain (running : ¬ m.isOver) (elsewhere : ∀ f args, ¬ m.Calls f args)
      (same : ∀ limit, m.step limit = m.step 0) :
      ∃ next : Machine, ¬ next.CallFailed ∧ ∀ limit, m.step limit = next :=
    ⟨m.step 0, not_callFailed_step running elsewhere, same⟩
  cases m with
  | eval e k s =>
    cases e with
    | call f args => exact .inr (.inl ⟨f, args, k, .expr k s, fun _ => rfl⟩)
    | _ => exact .inr (.inr (plain nofun nofun fun _ => rfl))
  | gather p values es k s => cases es <;> exact .inr (.inr (plain nofun nofun fun _ => rfl))
  | value v k s => exact .inr (.inr (plain nofun nofun fun _ => rfl))
  | run ss k s =>
    cases ss with
    | nil => exact .inr (.inr (plain nofun nofun fun _ => rfl))
    | cons st ss =>
      cases st with
      | call f args => exact .inr (.inl ⟨f, args, _, .stmt ss k s, fun _ => rfl⟩)
      | _ => exact .inr (.inr (plain nofun nofun fun _ => rfl))
  | _ => exact .inl rfl

end Machine

end Scriptlet
