import Scriptlet.Operation
import Scriptlet.Proofs.Run.Elements
import Scriptlet.Proofs.Values.Mismatch

namespace Scriptlet

namespace Value

/-- What two values have in common that do not differ in themselves. -/
inductive Shape where
  | bool (b : Bool)
  | str (s : String)
  | number (q : Quantity)
  | list (length : Nat)
  | tuple (length : Nat)

namespace Shape

def kind? : Shape → Option Kind
  | bool _ => some .boolean
  | str _ => some .string
  | number _ => none
  | list _ => some .list
  | tuple _ => some .tuple

def length : Shape → Nat
  | list n | tuple n => n
  | _ => 0

end Shape

def shape? (ls : Lists) : Value → Option Shape
  | bool b => some (.bool b)
  | int n => (Number.int n).quantity?.map .number
  | real x => (Number.real x).quantity?.map .number
  | str s => some (.str s)
  | list a => some (.list (ls.get a).toList.length)
  | tuple vs => some (.tuple vs.length)

def NaNFree (ls : Lists) (v : Value) : Prop := ∀ x, v.Within ls (.real x) → x.isNaN = false

variable {ls ls' : Lists} {a b c v : Value} {s : Shape}

theorem kind?_of_shape? (shape : v.shape? ls = some s) :
    s.kind? = if Number.ofValue? v = none then some v.kind else none := by
  cases v with
  | real x =>
    obtain ⟨q, -, rfl⟩ := Option.map_eq_some_iff.mp shape
    rfl
  | _ =>
    cases shape
    rfl

theorem isSome_element?_iff (shape : v.shape? ls = some s) (i : Nat) :
    (v.element? ls i).isSome ↔ i < s.length := by
  cases v with
  | real x =>
    obtain ⟨q, -, rfl⟩ := Option.map_eq_some_iff.mp shape
    exact iff_of_false Bool.false_ne_true (Nat.not_lt_zero i)
  | list a =>
    cases shape
    exact Iff.of_eq (isSome_getElem? _ i)
  | tuple vs =>
    cases shape
    exact Iff.of_eq (isSome_getElem? _ i)
  | _ =>
    cases shape
    exact iff_of_false Bool.false_ne_true (Nat.not_lt_zero i)

theorem shape?_number (m : Number) : m.toValue.shape? ls = m.quantity?.map .number := by
  cases m <;> rfl

theorem not_mismatch_number (m n : Number) : ¬ Mismatch ls m.toValue n.toValue ↔
    ∃ s, m.toValue.shape? ls = some s ∧ n.toValue.shape? ls = some s := by
  rw [← compareParts?_eq_none_iff, compareParts?_number, not_not]
  simp only [shape?_number, Option.map_eq_some_iff]
  constructor
  · rintro ⟨q, left, right⟩
    exact ⟨.number q, ⟨q, left, rfl⟩, ⟨q, right, rfl⟩⟩
  · rintro ⟨s, ⟨q, left, rfl⟩, ⟨q', right, same⟩⟩
    cases same
    exact ⟨q, left, right⟩

theorem not_mismatch_iff (a b : Value) :
    ¬ Mismatch ls a b ↔ ∃ s, a.shape? ls = some s ∧ b.shape? ls = some s := by
  constructor
  · intro alike
    cases a with
    | bool a =>
      cases b with
      | bool b =>
        have same : a = b := not_not.mp fun ne => alike (.bool ne)
        exact ⟨.bool a, rfl, by rw [same]; rfl⟩
      | _ => exact absurd (.kind nofun (.inl rfl)) alike
    | int m =>
      cases b with
      | int n => exact (not_mismatch_number (.int m) (.int n)).mp alike
      | real y => exact (not_mismatch_number (.int m) (.real y)).mp alike
      | _ => exact absurd (.kind nofun (.inr rfl)) alike
    | real x =>
      cases b with
      | int n => exact (not_mismatch_number (.real x) (.int n)).mp alike
      | real y => exact (not_mismatch_number (.real x) (.real y)).mp alike
      | _ => exact absurd (.kind nofun (.inr rfl)) alike
    | str a =>
      cases b with
      | str b =>
        have same : a = b := not_not.mp fun ne => alike (.str ne)
        exact ⟨.str a, rfl, by rw [same]; rfl⟩
      | _ => exact absurd (.kind nofun (.inl rfl)) alike
    | list a =>
      cases b with
      | list b =>
        have same : (ls.get a).toList.length = (ls.get b).toList.length :=
          not_not.mp fun ne => alike (.list ne)
        exact ⟨.list (ls.get a).toList.length, rfl, by rw [same]; rfl⟩
      | _ => exact absurd (.kind nofun (.inl rfl)) alike
    | tuple as =>
      cases b with
      | tuple bs =>
        have same : as.length = bs.length := not_not.mp fun ne => alike (.tuple ne)
        exact ⟨.tuple as.length, rfl, by rw [same]; rfl⟩
      | _ => exact absurd (.kind nofun (.inl rfl)) alike
  · rintro ⟨s, left, right⟩ mismatch
    cases mismatch with
    | kind kinds other =>
      have same := (kind?_of_shape? left).symm.trans (kind?_of_shape? right)
      rcases other with none | none
      · rw [if_pos none] at same
        split at same
        · exact kinds (Option.some.inj same)
        · cases same
      · rw [if_pos none] at same
        split at same
        · exact kinds (Option.some.inj same)
        · cases same
    | bool ne =>
      cases left
      cases right
      exact ne rfl
    | str ne =>
      cases left
      cases right
      exact ne rfl
    | number unequal => exact (not_mismatch_number _ _).mpr ⟨s, left, right⟩ (.number unequal)
    | list lengths =>
      cases left
      exact lengths (Shape.list.inj (Option.some.inj right)).symm
    | tuple lengths =>
      cases left
      exact lengths (Shape.tuple.inj (Option.some.inj right)).symm

theorem eq_of_sameList (same : SameList a b) : a = b := by
  cases a with
  | list a =>
    cases b with
    | list b => exact congrArg list same
    | _ => exact same.elim
  | _ => exact same.elim

theorem SameList.symm (same : SameList a b) : SameList b a := by
  obtain rfl := eq_of_sameList same
  exact same

theorem equal_iff : a.equal ls b ↔ ¬ Differs ls ∅ (a, b) := by
  rw [equal_eq_allEqual, allEqual_iff, Met.pairs_empty, List.forall_mem_singleton]

/-- Two values are equal if a relation with no mismatch in it goes on from them to elements. -/
theorem equal_of_bisimulation {r : Value → Value → Prop}
    (alike : ∀ a b, r a b → ¬ Mismatch ls a b)
    (onward : ∀ a b a' b', r a b → Step ls (a, b) (a', b') → r a' b') (related : r a b) :
    a.equal ls b := by
  rw [equal_iff]
  intro differs
  generalize start : (a, b) = p at differs
  induction differs generalizing a b with
  | here _ mismatch =>
    subst start
    exact alike a b related mismatch
  | @step p q _ step _ ih =>
    subst start
    exact ih (onward a b q.1 q.2 related step) rfl

theorem not_mismatch_of_equal (equal : a.equal ls b) : ¬ Mismatch ls a b := fun mismatch =>
  equal_iff.mp equal (.here (Set.notMem_empty _) mismatch)

theorem equal_of_step {a' b' : Value} (equal : a.equal ls b) (step : Step ls (a, b) (a', b')) :
    a'.equal ls b' :=
  equal_iff.mpr fun differs => equal_iff.mp equal (.step (Set.notMem_empty _) step differs)

theorem equal_symm (equal : a.equal ls b) : b.equal ls a := by
  refine equal_of_bisimulation (r := fun b a => a.equal ls b) ?_ ?_ equal
  · intro b a equal
    rw [not_mismatch_iff]
    obtain ⟨s, left, right⟩ := (not_mismatch_iff a b).mp (not_mismatch_of_equal equal)
    exact ⟨s, right, left⟩
  · rintro b a b' a' equal ⟨other, i, left, right⟩
    exact equal_of_step equal ⟨fun same => other same.symm, i, right, left⟩

theorem equal_trans (first : a.equal ls b) (second : b.equal ls c) : a.equal ls c := by
  let r : Value → Value → Prop := fun a c => a.equal ls c ∨ ∃ b, a.equal ls b ∧ b.equal ls c
  refine equal_of_bisimulation (r := r) ?_ ?_ (.inr ⟨b, first, second⟩)
  · rintro a c (equal | ⟨b, first, second⟩)
    · exact not_mismatch_of_equal equal
    · obtain ⟨s, left, middle⟩ := (not_mismatch_iff a b).mp (not_mismatch_of_equal first)
      obtain ⟨s', middle', right⟩ := (not_mismatch_iff b c).mp (not_mismatch_of_equal second)
      have same : s = s' := Option.some.inj (middle.symm.trans middle')
      exact (not_mismatch_iff a c).mpr ⟨s, left, same ▸ right⟩
  · rintro a c a' c' (equal | ⟨b, first, second⟩) step
    · exact .inl (equal_of_step equal step)
    · by_cases same : SameList a b
      · rw [← eq_of_sameList same] at second
        exact .inl (equal_of_step second step)
      by_cases same' : SameList b c
      · rw [eq_of_sameList same'] at first
        exact .inl (equal_of_step first step)
      obtain ⟨-, i, left, right⟩ := step
      obtain ⟨s, shape, shape'⟩ := (not_mismatch_iff a b).mp (not_mismatch_of_equal first)
      have inside : i < s.length :=
        (isSome_element?_iff shape i).mp (Option.isSome_iff_exists.mpr ⟨a', left⟩)
      obtain ⟨b', middle⟩ :=
        Option.isSome_iff_exists.mp ((isSome_element?_iff shape' i).mpr inside)
      exact .inr ⟨b', equal_of_step first ⟨same, i, left, middle⟩,
        equal_of_step second ⟨same', i, middle, right⟩⟩

theorem NaNFree.equal_self (numbers : v.NaNFree ls) (ls' : Lists) : v.equal ls' v := by
  refine equal_of_bisimulation (r := fun a b => a = b ∧ a.NaNFree ls) ?_ ?_ ⟨rfl, numbers⟩
  · rintro a _ ⟨rfl, numbers⟩
    rw [not_mismatch_iff]
    suffices shaped : ∃ s, a.shape? ls' = some s from
      shaped.imp fun s shape => ⟨shape, shape⟩
    cases a with
    | real x =>
      have number : x.isNaN = false := numbers x .refl
      show ∃ s, (Number.real x).quantity?.map Shape.number = some s
      rw [Number.quantity?, number]
      simp only [Bool.false_eq_true, if_false]
      split
      · exact ⟨_, rfl⟩
      · exact ⟨_, rfl⟩
    | _ => exact ⟨_, rfl⟩
  · rintro a _ a' b' ⟨rfl, numbers⟩ ⟨other, i, left, right⟩
    refine ⟨Option.some.inj (left.symm.trans right), fun x within => numbers x ?_⟩
    cases a with
    | list a => exact absurd rfl other
    | tuple vs => exact .head (List.mem_of_getElem? left) within
    | _ => cases left

theorem member_list (x : Value) (l : ListId) : BinaryOp.member.apply ls x (.list l) =
    .ok (.value (.bool ((ls.get l).toList.any fun v => v.equal ls x))) := by
  cases x <;> rfl

theorem member_congr {x y : Value} (equal : x.equal ls y) (l : ListId) :
    BinaryOp.member.apply ls x (.list l) = BinaryOp.member.apply ls y (.list l) := by
  have each (v : Value) : v.equal ls x = v.equal ls y := by
    rw [Bool.eq_iff_iff]
    exact ⟨fun same => equal_trans same equal, fun same => equal_trans same (equal_symm equal)⟩
  simp only [member_list, each]

theorem member_cons {x : Value} (numbers : x.NaNFree ls) (items : Sequence Value) :
    BinaryOp.member.apply (ls.add (.cons x items)).2 x (.list (ls.add (.cons x items)).1) =
      .ok (.value (.bool true)) := by
  rw [member_list, Lists.get_add, Sequence.toList_cons, List.any_cons, numbers.equal_self,
    Bool.true_or]

end Value

/--
Among the values without NaN, on any graph of lists, equality is an equivalence. Equal values are
members of the same lists, and a value is a member of every list with it in front.
-/
theorem equality_is_equivalence (ls : Lists) :
    (Equivalence fun a b : {v : Value // v.NaNFree ls} => a.val.equal ls b.val = true) ∧
    (∀ (x y : Value) (l : ListId), x.equal ls y →
      BinaryOp.member.apply ls x (.list l) = BinaryOp.member.apply ls y (.list l)) ∧
    ∀ (x : Value) (l : ListId), x.NaNFree ls → ∃ r, BinaryOp.cons.apply ls x (.list l) = .ok r ∧
      BinaryOp.member.apply (r.store ls).2 x (r.store ls).1 = .ok (.value (.bool true)) := by
  refine ⟨?_, ?_, ?_⟩
  · exact ⟨fun a => a.property.equal_self ls, Value.equal_symm, Value.equal_trans⟩
  · exact fun x y l equal => Value.member_congr equal l
  · exact fun x l numbers => ⟨_, rfl, Value.member_cons numbers (ls.get l)⟩

namespace Lists

/-- `a = [1, a]`, then `b = [1.0, c]` with `c = [1, b]`, then a third cycle of three lists. -/
def threeCycles : Lists :=
  ⟨#[.ofList [.int 1, .list ⟨0⟩],
    .ofList [.real 1.0, .list ⟨2⟩], .ofList [.int 1, .list ⟨1⟩],
    .ofList [.int 1, .list ⟨4⟩], .ofList [.real 1.0, .list ⟨5⟩], .ofList [.int 1, .list ⟨3⟩]]⟩

def OnCycle (v : Value) : Prop := ∃ a : ListId, a.index < 6 ∧ v = .list a

def IsOne (v : Value) : Prop := v = .int 1 ∨ v = .real 1.0

theorem elements_threeCycles {v : Value} (cyclic : OnCycle v) :
    ∃ one next, v.elements threeCycles = [one, next] ∧ IsOne one ∧ OnCycle next := by
  obtain ⟨⟨i⟩, inside, rfl⟩ := cyclic
  change i < 6 at inside
  interval_cases i
  · exact ⟨_, _, rfl, .inl rfl, ⟨0⟩, by decide, rfl⟩
  · exact ⟨_, _, rfl, .inr rfl, ⟨2⟩, by decide, rfl⟩
  · exact ⟨_, _, rfl, .inl rfl, ⟨1⟩, by decide, rfl⟩
  · exact ⟨_, _, rfl, .inl rfl, ⟨4⟩, by decide, rfl⟩
  · exact ⟨_, _, rfl, .inr rfl, ⟨5⟩, by decide, rfl⟩
  · exact ⟨_, _, rfl, .inl rfl, ⟨3⟩, by decide, rfl⟩

theorem within_threeCycles {v u : Value} (cyclic : OnCycle v) (within : v.Within threeCycles u) :
    OnCycle u ∨ IsOne u := by
  induction within with
  | refl => exact .inl cyclic
  | tail _ holds ih =>
    rcases ih with cyclic | rfl | rfl
    · obtain ⟨one, next, elements, unit, again⟩ := elements_threeCycles cyclic
      rw [Value.Holds, elements] at holds
      rcases List.mem_pair.mp holds with rfl | rfl
      · exact .inr unit
      · exact .inl again
    · cases holds
    · cases holds

theorem naNFree_threeCycles {v : Value} (cyclic : OnCycle v) : v.NaNFree threeCycles := by
  intro x within
  rcases within_threeCycles cyclic within with ⟨a, _, same⟩ | same | same
  · cases same
  · cases same
  · cases same
    rfl

theorem shape?_threeCycles {v : Value} (cyclic : OnCycle v) :
    v.shape? threeCycles = some (.list 2) := by
  obtain ⟨one, next, elements, -, -⟩ := elements_threeCycles cyclic
  obtain ⟨a, -, rfl⟩ := cyclic
  exact congrArg (fun vs : List Value => some (Value.Shape.list vs.length)) elements

theorem element?_threeCycles {v u : Value} (cyclic : OnCycle v) {i : Nat}
    (found : v.element? threeCycles i = some u) : i = 0 ∧ IsOne u ∨ i = 1 ∧ OnCycle u := by
  obtain ⟨one, next, elements, unit, again⟩ := elements_threeCycles cyclic
  obtain ⟨a, -, rfl⟩ := cyclic
  change (threeCycles.get a).toList = [one, next] at elements
  rw [Value.element?, elements] at found
  match i with
  | 0 =>
    cases found
    exact .inl ⟨rfl, unit⟩
  | 1 =>
    cases found
    exact .inr ⟨rfl, again⟩
  | _ + 2 => cases found

theorem equal_threeCycles {a b : Value} (left : OnCycle a) (right : OnCycle b) :
    a.equal threeCycles b := by
  let r : Value → Value → Prop := fun a b => OnCycle a ∧ OnCycle b ∨ IsOne a ∧ IsOne b
  refine Value.equal_of_bisimulation (r := r) ?_ ?_ (.inl ⟨left, right⟩)
  · rintro a b (⟨left, right⟩ | ⟨left, right⟩)
    · rw [Value.not_mismatch_iff]
      exact ⟨.list 2, shape?_threeCycles left, shape?_threeCycles right⟩
    · rw [← Value.compareParts?_eq_none_iff, ← ne_eq, ← Option.isSome_iff_ne_none]
      rcases left with rfl | rfl <;> rcases right with rfl | rfl <;> decide +kernel
  · rintro a b a' b' (⟨left, right⟩ | ⟨left, _⟩) ⟨_, i, found, found'⟩
    · rcases element?_threeCycles left found with ⟨rfl, unit⟩ | ⟨rfl, again⟩
      · rcases element?_threeCycles right found' with ⟨_, unit'⟩ | ⟨other, _⟩
        · exact .inr ⟨unit, unit'⟩
        · cases other
      · rcases element?_threeCycles right found' with ⟨other, _⟩ | ⟨_, again'⟩
        · cases other
        · exact .inl ⟨again, again'⟩
    · rcases left with rfl | rfl <;> cases found

theorem equality_is_equivalence_threeCycles :
    let a := Value.list ⟨0⟩
    let b := Value.list ⟨1⟩
    let c := Value.list ⟨3⟩
    (a.NaNFree threeCycles ∧ a.equal threeCycles b ∧ b.equal threeCycles c ∧
      a.equal threeCycles c) ∧
    BinaryOp.member.apply threeCycles b (.list ⟨4⟩) =
      BinaryOp.member.apply threeCycles c (.list ⟨4⟩) ∧
    ∃ r, BinaryOp.cons.apply threeCycles a (.list ⟨1⟩) = .ok r ∧
      BinaryOp.member.apply (r.store threeCycles).2 a (r.store threeCycles).1 =
        .ok (.value (.bool true)) := by
  intro a b c
  have cyclic : OnCycle a ∧ OnCycle b ∧ OnCycle c :=
    ⟨⟨⟨0⟩, by decide, rfl⟩, ⟨⟨1⟩, by decide, rfl⟩, ⟨⟨3⟩, by decide, rfl⟩⟩
  have number {v : Value} (on : OnCycle v) := naNFree_threeCycles on
  have first : a.equal threeCycles b := equal_threeCycles cyclic.1 cyclic.2.1
  have second : b.equal threeCycles c := equal_threeCycles cyclic.2.1 cyclic.2.2
  obtain ⟨equivalence, alike, inFront⟩ := equality_is_equivalence threeCycles
  refine ⟨⟨number cyclic.1, first, second, ?_⟩, alike b c ⟨4⟩ second,
    inFront a ⟨1⟩ (number cyclic.1)⟩
  exact @Equivalence.trans _ _ equivalence ⟨a, number cyclic.1⟩ ⟨b, number cyclic.2.1⟩
    ⟨c, number cyclic.2.2⟩ first second

end Lists

end Scriptlet
