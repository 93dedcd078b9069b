import Scriptlet.Proofs.Values.Mismatch
import Scriptlet.Proofs.Values.Unfolding

namespace Scriptlet

def Literal.NaNFree : Literal → Prop
  | real x => x.isNaN = false
  | _ => True

inductive Tree.NaNFree : Tree → Prop
  | leaf {l : Literal} : l.NaNFree → NaNFree (.leaf l)
  | list {ts : List Tree} : (∀ t ∈ ts, NaNFree t) → NaNFree (.list ts)
  | tuple {ts : List Tree} : (∀ t ∈ ts, NaNFree t) → NaNFree (.tuple ts)

namespace Value

variable {ls : Lists}

def Alike (ls : Lists) (a b : Value) : Prop := ∃ t, t.NaNFree ∧ a.Unfolds ls t ∧ b.Unfolds ls t

theorem agree?_self {α : Type} [BEq α] [ReflBEq α] (a : α) : agree? (a == a) = some [] := by
  rw [agree?, BEq.refl, if_pos rfl]

theorem compareParts?_literal {l : Literal} (number : l.NaNFree) :
    l.value.compareParts? ls l.value = some [] := by
  cases l with
  | bool b => exact agree?_self b
  | int n => exact agree?_self n
  | str s => exact agree?_self s
  | real x =>
    obtain ⟨r, rank⟩ : ∃ r, (Number.real x).rank? = some r :=
      ⟨_, if_neg (Bool.eq_false_iff.mp number)⟩
    have same : ((Number.real x).compare? (.real x) == some .eq) = true := by
      rw [Number.compare?_eq, rank]
      simp only [Std.ReflCmp.compare_self, BEq.rfl]
    exact if_pos same

theorem paired?_alike {as bs : List Value} {ts : List Tree} (numbers : ∀ t ∈ ts, t.NaNFree)
    (left : List.Forall₂ (Unfolds ls) as ts) (right : List.Forall₂ (Unfolds ls) bs ts) :
    ∃ parts, paired? as bs = some parts ∧ ∀ p ∈ parts, Alike ls p.1 p.2 := by
  refine ⟨as.zip bs, if_pos (left.length_eq.trans right.length_eq.symm), ?_⟩
  induction left generalizing bs with
  | nil => simp
  | @cons a t as ts first _ ih =>
    obtain ⟨b, bs, first', rest, rfl⟩ := List.forall₂_cons_right_iff.mp right
    intro p member
    rcases List.mem_cons.mp member with rfl | member
    · exact ⟨t, numbers t List.mem_cons_self, first, first'⟩
    · exact ih (fun t member => numbers t (List.mem_cons_of_mem _ member)) rest p member

/-- Values with one tree do not differ in themselves, and their elements have the same trees. -/
theorem Alike.compareParts? {a b : Value} (alike : Alike ls a b) :
    ∃ parts, a.compareParts? ls b = some parts ∧ ∀ p ∈ parts, Alike ls p.1 p.2 := by
  obtain ⟨t, numbers, left, right⟩ := alike
  cases numbers with
  | leaf number =>
    cases left with | leaf _ eq => cases right with | leaf _ eq' =>
    subst eq eq'
    exact ⟨[], compareParts?_literal number, by simp⟩
  | list numbers =>
    obtain ⟨a, rfl, all⟩ := left.of_list
    obtain ⟨b, rfl, all'⟩ := right.of_list
    by_cases same : a = b
    · exact ⟨[], if_pos same, by simp⟩
    · rw [Value.compareParts?, if_neg same]
      exact paired?_alike numbers all all'
  | tuple numbers =>
    obtain ⟨as, rfl, all⟩ := left.of_tuple
    obtain ⟨bs, rfl, all'⟩ := right.of_tuple
    exact paired?_alike numbers all all'

theorem Alike.not_differs {avoid : Set (Value × Value)} {p : Value × Value}
    (alike : Alike ls p.1 p.2) : ¬ Differs ls avoid p := by
  intro differs
  induction differs with
  | here _ mismatch =>
    obtain ⟨parts, found, _⟩ := alike.compareParts?
    rw [← compareParts?_eq_none_iff, found] at mismatch
    cases mismatch
  | step _ step _ ih =>
    obtain ⟨parts, found, alike⟩ := alike.compareParts?
    exact ih (alike _ ((mem_of_compareParts? found _).mpr step))

theorem Alike.equal {a b : Value} (alike : Alike ls a b) : a.equal ls b := by
  rw [equal_eq_allEqual, allEqual_iff]
  intro p member
  rw [List.mem_singleton.mp member]
  exact alike.not_differs

end Value

end Scriptlet
