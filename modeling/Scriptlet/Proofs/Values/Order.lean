import Scriptlet.Operation
import Scriptlet.Proofs.Values.Mismatch

namespace Scriptlet

namespace Value

def IsNumber : Value → Prop
  | int _ => True
  | real x => x.isNaN = false
  | _ => False

def IsString : Value → Prop
  | str _ => True
  | _ => False

end Value

namespace Comparison

def IsTrue (c : Comparison) (a b : Value) : Prop := c.apply a b = .ok true

instance (c : Comparison) (a b : Value) : Decidable (c.IsTrue a b) :=
  inferInstanceAs (Decidable (c.apply a b = .ok true))

/-- Among these values the operators always have an answer, and speak of one total order. -/
structure Orders (among : Value → Prop) : Prop where
  answers (c : Comparison) {a b : Value} : among a → among b → ∃ r, c.apply a b = .ok r
  exactly_one {a b : Value} : among a → among b →
    ∃! c, (c = lt ∨ c = eq ∨ c = gt) ∧ c.IsTrue a b
  le_iff {a b : Value} : among a → among b → (le.IsTrue a b ↔ lt.IsTrue a b ∨ eq.IsTrue a b)
  gt_iff {a b : Value} : among a → among b → (gt.IsTrue a b ↔ lt.IsTrue b a)
  ge_iff {a b : Value} : among a → among b → (ge.IsTrue a b ↔ le.IsTrue b a)
  lt_trans {a b c : Value} : among a → among b → among c →
    lt.IsTrue a b → lt.IsTrue b c → lt.IsTrue a c
  le_trans {a b c : Value} : among a → among b → among c →
    le.IsTrue a b → le.IsTrue b c → le.IsTrue a c
  eq_refl {a : Value} : among a → eq.IsTrue a a
  eq_symm {a b : Value} : among a → among b → eq.IsTrue a b → eq.IsTrue b a
  eq_trans {a b c : Value} : among a → among b → among c →
    eq.IsTrue a b → eq.IsTrue b c → eq.IsTrue a c

def GoBy {α : Type} [Ord α] (key : Value → α) (among : Value → Prop) : Prop :=
  ∀ (c : Comparison) (a b : Value), among a → among b →
    c.apply a b = .ok (c.holds (compare (key a) (key b)))

namespace GoBy

variable {α : Type} [Ord α] {key : Value → α} {among : Value → Prop} {a b c : Value}

theorem isTrue_iff (keyed : GoBy key among) (c : Comparison) (ha : among a) (hb : among b) :
    c.IsTrue a b ↔ c.holds (compare (key a) (key b)) = true := by
  rw [IsTrue, keyed c a b ha hb, Except.ok.injEq]

theorem isTrue_lt (keyed : GoBy key among) (ha : among a) (hb : among b) :
    lt.IsTrue a b ↔ compare (key a) (key b) = .lt :=
  (keyed.isTrue_iff lt ha hb).trans Ordering.isLT_iff_eq_lt

theorem isTrue_eq (keyed : GoBy key among) (ha : among a) (hb : among b) :
    eq.IsTrue a b ↔ compare (key a) (key b) = .eq :=
  (keyed.isTrue_iff eq ha hb).trans Ordering.isEq_iff_eq_eq

theorem isTrue_gt (keyed : GoBy key among) (ha : among a) (hb : among b) :
    gt.IsTrue a b ↔ compare (key a) (key b) = .gt :=
  (keyed.isTrue_iff gt ha hb).trans Ordering.isGT_iff_eq_gt

theorem isTrue_le (keyed : GoBy key among) (ha : among a) (hb : among b) :
    le.IsTrue a b ↔ (compare (key a) (key b)).isLE := keyed.isTrue_iff le ha hb

theorem isTrue_ge (keyed : GoBy key among) (ha : among a) (hb : among b) :
    ge.IsTrue a b ↔ (compare (key a) (key b)).isGE := keyed.isTrue_iff ge ha hb

theorem exactly_one (keyed : GoBy key among) (ha : among a) (hb : among b) :
    ∃! c, (c = lt ∨ c = eq ∨ c = gt) ∧ c.IsTrue a b := by
  have only (c : Comparison) : (c = lt ∨ c = eq ∨ c = gt) ∧ c.IsTrue a b ↔
      c = match compare (key a) (key b) with
        | .lt => lt
        | .eq => eq
        | .gt => gt := by
    rw [keyed.isTrue_iff c ha hb]
    cases compare (key a) (key b) <;> cases c <;> decide
  exact ⟨_, (only _).mpr rfl, fun c => (only c).mp⟩

theorem orders [Std.TransOrd α] (keyed : GoBy key among) : Orders among where
  answers c _ _ ha hb := ⟨_, keyed c _ _ ha hb⟩
  exactly_one := keyed.exactly_one
  le_iff ha hb := by
    rw [keyed.isTrue_le ha hb, keyed.isTrue_lt ha hb, keyed.isTrue_eq ha hb]
    exact Ordering.isLE_iff_eq_lt_or_eq_eq
  gt_iff ha hb := by
    rw [keyed.isTrue_gt ha hb, keyed.isTrue_lt hb ha]
    exact Std.OrientedCmp.gt_iff_lt
  ge_iff ha hb := by
    rw [keyed.isTrue_ge ha hb, keyed.isTrue_le hb ha]
    exact Std.OrientedCmp.isGE_iff_isLE
  lt_trans ha hb hc first second := by
    rw [keyed.isTrue_lt ha hb] at first
    rw [keyed.isTrue_lt hb hc] at second
    exact (keyed.isTrue_lt ha hc).mpr (Std.TransCmp.lt_trans first second)
  le_trans ha hb hc first second := by
    rw [keyed.isTrue_le ha hb] at first
    rw [keyed.isTrue_le hb hc] at second
    exact (keyed.isTrue_le ha hc).mpr (Std.TransCmp.isLE_trans first second)
  eq_refl ha := (keyed.isTrue_eq ha ha).mpr Std.ReflCmp.compare_self
  eq_symm ha hb same := by
    rw [keyed.isTrue_eq ha hb] at same
    exact (keyed.isTrue_eq hb ha).mpr (Std.OrientedCmp.eq_comm.mp same)
  eq_trans ha hb hc first second := by
    rw [keyed.isTrue_eq ha hb] at first
    rw [keyed.isTrue_eq hb hc] at second
    exact (keyed.isTrue_eq ha hc).mpr (Std.TransCmp.eq_trans first second)

end GoBy

theorem apply_number (c : Comparison) (m n : Number) : c.apply m.toValue n.toValue =
    match m.compare? n with
    | some o => .ok (c.holds o)
    | none => .ok (c = ne) := by
  cases m <;> cases n <;> rfl

def rankOf (v : Value) : Int := ((Number.ofValue? v).bind Number.rank?).getD 0

def textOf : Value → String
  | .str s => s
  | _ => ""

theorem exists_rank {v : Value} (number : v.IsNumber) :
    ∃ n : Number, v = n.toValue ∧ n.rank? = some (rankOf v) := by
  cases v with
  | int n => exact ⟨.int n, rfl, rfl⟩
  | real x =>
    have stands : (Number.real x).quantity? ≠ none := by
      rw [Number.quantity?, if_neg (Bool.eq_false_iff.mp number)]
      split <;> exact Option.some_ne_none _
    obtain ⟨q, eq⟩ := Option.ne_none_iff_exists'.mp stands
    obtain ⟨-, r, rank, -⟩ := Number.rank?_of_quantity? eq
    refine ⟨.real x, rfl, ?_⟩
    rw [rankOf, Number.ofValue?, Option.bind_some, rank, Option.getD_some]
  | _ => exact number.elim

theorem goBy_rank : GoBy rankOf Value.IsNumber := by
  intro c a b ha hb
  obtain ⟨m, left, rank⟩ := exists_rank ha
  obtain ⟨n, right, rank'⟩ := exists_rank hb
  rw [left, right, apply_number, Number.compare?_eq, rank, rank', ← left, ← right]

theorem goBy_text : GoBy textOf Value.IsString := by
  intro c a b ha hb
  cases a with
  | str s =>
    cases b with
    | str t => rfl
    | _ => exact hb.elim
  | _ => exact ha.elim

inductive Answered : Value → Value → Prop
  | strings (s t : String) : Answered (.str s) (.str t)
  | numbers (m n : Number) : Answered m.toValue n.toValue
  | stringNumber (s : String) (n : Number) : Answered (.str s) n.toValue
  | numberString (m : Number) (t : String) : Answered m.toValue (.str t)

theorem answered {a b : Value} {r : Bool} (h : eq.apply a b = .ok r) : Answered a b := by
  cases a with
  | str s =>
    cases b with
    | str t => exact .strings s t
    | int n => exact .stringNumber s (.int n)
    | real y => exact .stringNumber s (.real y)
    | _ => cases h
  | int m =>
    cases b with
    | str t => exact .numberString (.int m) t
    | int n => exact .numbers (.int m) (.int n)
    | real y => exact .numbers (.int m) (.real y)
    | _ => cases h
  | real x =>
    cases b with
    | str t => exact .numberString (.real x) t
    | int n => exact .numbers (.real x) (.int n)
    | real y => exact .numbers (.real x) (.real y)
    | _ => cases h
  | _ => cases b <;> cases h

end Comparison

namespace Value

variable {ls : Lists}

theorem equal_of_agree {a b : Value} {same : Bool} (h : a.compareParts? ls b = agree? same) :
    a.equal ls b = same := by
  cases same with
  | false => rw [equal, h]; rfl
  | true =>
    rw [equal, h]
    show allEqual ls _ [] = true
    rw [allEqual]

theorem equal_str (s t : String) : (str s).equal ls (str t) = (s == t) := equal_of_agree rfl

theorem equal_number (m n : Number) :
    m.toValue.equal ls n.toValue = (m.compare? n == some .eq) := by
  cases m with
  | int m =>
    cases n with
    | int n =>
      refine equal_of_agree (congrArg agree? (Bool.eq_iff_iff.mpr ?_))
      rw [beq_iff_eq, beq_iff_eq, Number.compare?, Option.some.injEq,
        Std.LawfulEqOrd.compare_eq_iff_eq, Int64.toInt_inj]
    | real y => exact equal_of_agree rfl
  | real x => cases n <;> exact equal_of_agree rfl

theorem equal_number_comm (m n : Number) :
    m.toValue.equal ls n.toValue = n.toValue.equal ls m.toValue := by
  rw [equal_number, equal_number, Bool.eq_iff_iff, beq_iff_eq, beq_iff_eq, Number.compare?_eq_iff,
    Number.compare?_eq_iff]
  exact exists_congr fun x => and_comm

end Value

namespace Comparison

variable {a b : Value} {r : Bool}

theorem ne_of_eq (h : eq.apply a b = .ok r) : ne.apply a b = .ok !r := by
  cases answered h with
  | strings s t =>
    cases h
    show Except.ok (compare s t).isNe = _
    cases compare s t <;> rfl
  | numbers m n =>
    rw [apply_number] at h ⊢
    split at h
    · cases h
      rename_i o _
      cases o <;> rfl
    · cases h
      rfl
  | stringNumber s n => cases n <;> cases h <;> rfl
  | numberString m t => cases m <;> cases h <;> rfl

theorem equal_of_eq (ls : Lists) (h : eq.apply a b = .ok r) :
    a.equal ls b = r ∧ b.equal ls a = r := by
  cases answered h with
  | strings s t =>
    cases h
    have same : (compare s t).isEq = (s == t) := by
      rw [Bool.eq_iff_iff, Ordering.isEq_iff_eq_eq, Std.LawfulEqOrd.compare_eq_iff_eq, beq_iff_eq]
    rw [Value.equal_str, Value.equal_str, holds, same]
    exact ⟨rfl, Bool.beq_comm⟩
  | numbers m n =>
    rw [Value.equal_number_comm n m, Value.equal_number, and_self]
    rw [apply_number] at h
    split at h
    · cases h
      rename_i o found
      rw [found]
      cases o <;> rfl
    · cases h
      rename_i none
      rw [none]
      rfl
  | stringNumber s n => cases n <;> cases h <;> exact ⟨rfl, rfl⟩
  | numberString m t => cases m <;> cases h <;> exact ⟨rfl, rfl⟩

end Comparison

/--
The comparisons of numbers other than NaN, integers and reals mixed, speak of one total order, and
so do those of strings. Whenever `==` has an answer, NaN included, `<>` has the opposite one, and
`in` finds the one value in a list of the other just if the answer is yes.
-/
theorem comparisons_consistent : Comparison.Orders Value.IsNumber ∧
    Comparison.Orders Value.IsString ∧
    ∀ (ls : Lists) (a b : Value) (r : Bool), Comparison.eq.apply a b = .ok r →
      Comparison.ne.apply a b = .ok (!r) ∧ a.equal ls b = r ∧ b.equal ls a = r ∧
      ∀ id, (ls.get id).toList = [b] → a.member ls (.list id) = .ok r := by
  refine ⟨Comparison.goBy_rank.orders, Comparison.goBy_text.orders, fun ls a b r answer => ?_⟩
  obtain ⟨equal, equal'⟩ := Comparison.equal_of_eq ls answer
  refine ⟨Comparison.ne_of_eq answer, equal, equal', fun id alone => ?_⟩
  have found : ((ls.get id).toList.any fun v => v.equal ls a) = r := by
    rw [alone, List.any_cons, List.any_nil, Bool.or_false, equal']
  show a.member ls (.list id) = _
  cases a <;> exact congrArg Except.ok found

/-- The integer lies between two reals with no real between them; NaN is not in a list of it. -/
theorem comparisons_consistent_pastExactReals :
    let a := Value.real 9007199254740992.0
    let b := Value.int 9007199254740993
    let c := Value.real 9007199254740994.0
    let nan := Value.real (0.0 / 0.0)
    let ls : Lists := ⟨#[.singleton nan]⟩
    (a.IsNumber ∧ b.IsNumber ∧ c.IsNumber ∧ Comparison.lt.IsTrue a b ∧ Comparison.lt.IsTrue b c ∧
      Comparison.lt.IsTrue a c) ∧
    ((Value.str "a").IsString ∧ ∃! c, (c = .lt ∨ c = .eq ∨ c = .gt) ∧
      Comparison.IsTrue c (.str "a") (.str "a")) ∧
    Comparison.eq.apply nan nan = .ok false ∧ Comparison.ne.apply nan nan = .ok true ∧
      nan.member ls (.list ⟨0⟩) = .ok false := by
  intro a b c nan ls
  obtain ⟨numbers, strings, agree⟩ := comparisons_consistent
  have number : a.IsNumber ∧ b.IsNumber ∧ c.IsNumber := ⟨rfl, trivial, rfl⟩
  have first : Comparison.lt.IsTrue a b := by decide +kernel
  have second : Comparison.lt.IsTrue b c := by decide +kernel
  have answer : Comparison.eq.apply nan nan = .ok false := by decide +kernel
  obtain ⟨opposite, -, -, member⟩ := agree ls nan nan false answer
  refine ⟨⟨number.1, number.2.1, number.2.2, first, second, ?_⟩, ⟨trivial, ?_⟩,
    answer, opposite, ?_⟩
  · exact numbers.lt_trans number.1 number.2.1 number.2.2 first second
  · exact strings.exactly_one trivial trivial
  · exact member ⟨0⟩ rfl

end Scriptlet
