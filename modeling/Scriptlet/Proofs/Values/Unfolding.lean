import Mathlib
import Scriptlet.Proofs.SideBySide
import Scriptlet.Value
import Scriptlet.Value.Visited

namespace Scriptlet

inductive Tree where
  | leaf (l : Literal)
  | list (items : List Tree)
  | tuple (items : List Tree)

namespace Tree

def elements : Tree → List Tree
  | leaf _ => []
  | list ts | tuple ts => ts

noncomputable abbrev size (t : Tree) : Nat := sizeOf t

theorem size_lt_of_mem {t u : Tree} (member : u ∈ t.elements) : u.size < t.size := by
  have smaller := List.sizeOf_lt_of_mem member
  cases t with
  | leaf l => cases member
  | list ts =>
    simp only [size, elements, list.sizeOf_spec] at smaller ⊢
    omega
  | tuple ts =>
    simp only [size, elements, tuple.sizeOf_spec] at smaller ⊢
    omega

end Tree

theorem Literal.value_injective {l l' : Literal} (same : l.value = l'.value) : l = l' := by
  cases l <;> cases l' <;> cases same <;> rfl

theorem Literal.value_ne_list (l : Literal) (a : ListId) : l.value ≠ .list a := by
  cases l <;> exact Value.noConfusion

theorem Literal.value_ne_tuple (l : Literal) (vs : List Value) : l.value ≠ .tuple vs := by
  cases l <;> exact Value.noConfusion

namespace Value

/-- The value, with every list replaced by its elements. -/
inductive Unfolds (ls : Lists) : Value → Tree → Prop
  | leaf {v : Value} (l : Literal) : v = l.value → Unfolds ls v (.leaf l)
  | list {a : ListId} {ts : List Tree} : a.index < ls.size →
      (ls.get a).toList.length = ts.length →
      (∀ v t, (v, t) ∈ (ls.get a).toList.zip ts → Unfolds ls v t) → Unfolds ls (.list a) (.list ts)
  | tuple {vs : List Value} {ts : List Tree} : vs.length = ts.length →
      (∀ v t, (v, t) ∈ vs.zip ts → Unfolds ls v t) → Unfolds ls (.tuple vs) (.tuple ts)

variable {ls : Lists} {v : Value} {t t' : Tree}

theorem unfolds_leaf_iff {l : Literal} : Unfolds ls l.value t ↔ t = .leaf l := by
  constructor
  · intro unfolds
    generalize eq : l.value = v at unfolds
    cases unfolds with
    | leaf l' eq' => rw [Literal.value_injective (eq.trans eq')]
    | list => exact absurd eq (l.value_ne_list _)
    | tuple => exact absurd eq (l.value_ne_tuple _)
  · rintro rfl
    exact .leaf l rfl

theorem unfolds_list_iff {a : ListId} : Unfolds ls (.list a) t ↔
    a.index < ls.size ∧ ∃ ts, t = .list ts ∧ List.Forall₂ (Unfolds ls) (ls.get a).toList ts := by
  constructor
  · intro unfolds
    generalize eq : Value.list a = v at unfolds
    cases unfolds with
    | leaf l eq' => exact absurd (eq'.symm.trans eq.symm) (l.value_ne_list a)
    | list listed same each =>
      cases eq
      exact ⟨listed, _, rfl, List.forall₂_iff_zip.mpr ⟨same, each _ _⟩⟩
    | tuple => cases eq
  · rintro ⟨listed, ts, rfl, all⟩
    obtain ⟨same, each⟩ := List.forall₂_iff_zip.mp all
    exact .list listed same fun v t => each

theorem unfolds_tuple_iff {vs : List Value} : Unfolds ls (.tuple vs) t ↔
    ∃ ts, t = .tuple ts ∧ List.Forall₂ (Unfolds ls) vs ts := by
  constructor
  · intro unfolds
    generalize eq : Value.tuple vs = v at unfolds
    cases unfolds with
    | leaf l eq' => exact absurd (eq'.symm.trans eq.symm) (l.value_ne_tuple vs)
    | list => cases eq
    | tuple same each =>
      cases eq
      exact ⟨_, rfl, List.forall₂_iff_zip.mpr ⟨same, each _ _⟩⟩
  · rintro ⟨ts, rfl, all⟩
    obtain ⟨same, each⟩ := List.forall₂_iff_zip.mp all
    exact .tuple same fun v t => each

theorem Unfolds.of_list {ts : List Tree} (unfolds : v.Unfolds ls (.list ts)) :
    ∃ a, v = .list a ∧ List.Forall₂ (Unfolds ls) (ls.get a).toList ts := by
  cases unfolds with
  | list listed same each => exact ⟨_, rfl, List.forall₂_iff_zip.mpr ⟨same, each _ _⟩⟩

theorem Unfolds.of_tuple {ts : List Tree} (unfolds : v.Unfolds ls (.tuple ts)) :
    ∃ vs, v = .tuple vs ∧ List.Forall₂ (Unfolds ls) vs ts := by
  cases unfolds with
  | tuple same each => exact ⟨_, rfl, List.forall₂_iff_zip.mpr ⟨same, each _ _⟩⟩

theorem Unfolds.induct {motive : Value → Tree → Prop} (unfolds : v.Unfolds ls t)
    (leaf : ∀ l, motive l.value (.leaf l))
    (list : ∀ a ts, a.index < ls.size → List.Forall₂ (Unfolds ls) (ls.get a).toList ts →
      List.Forall₂ motive (ls.get a).toList ts → motive (.list a) (.list ts))
    (tuple : ∀ vs ts, List.Forall₂ (Unfolds ls) vs ts → List.Forall₂ motive vs ts →
      motive (.tuple vs) (.tuple ts)) : motive v t := by
  induction unfolds with
  | leaf l eq => exact eq ▸ leaf l
  | list listed same each ih =>
    exact list _ _ listed (List.forall₂_iff_zip.mpr ⟨same, each _ _⟩)
      (List.forall₂_iff_zip.mpr ⟨same, ih _ _⟩)
  | tuple same each ih =>
    exact tuple _ _ (List.forall₂_iff_zip.mpr ⟨same, each _ _⟩)
      (List.forall₂_iff_zip.mpr ⟨same, ih _ _⟩)

theorem eq_of_forall₂ {vs : List Value} {ts ts' : List Tree}
    (unique : List.Forall₂ (fun v t => ∀ t', Unfolds ls v t' → t = t') vs ts)
    (other : List.Forall₂ (Unfolds ls) vs ts') : ts = ts' := by
  induction unique generalizing ts' with
  | nil => rw [List.forall₂_nil_left_iff.mp other]
  | cons same _ ih =>
    obtain ⟨t', ts', first, rest, rfl⟩ := List.forall₂_cons_left_iff.mp other
    rw [same t' first, ih rest]

theorem Unfolds.unique (unfolds : v.Unfolds ls t) (other : v.Unfolds ls t') : t = t' := by
  refine unfolds.induct (motive := fun v t => ∀ t', v.Unfolds ls t' → t = t') ?_ ?_ ?_ t' other
  · intro l t' other
    exact (unfolds_leaf_iff.mp other).symm
  · intro a ts listed all ih t' other
    obtain ⟨_, ts', rfl, all'⟩ := unfolds_list_iff.mp other
    rw [eq_of_forall₂ ih all']
  · intro vs ts all ih t' other
    obtain ⟨ts', rfl, all'⟩ := unfolds_tuple_iff.mp other
    rw [eq_of_forall₂ ih all']

def elements (ls : Lists) : Value → List Value
  | list a => (ls.get a).toList
  | tuple vs => vs
  | _ => []

def Holds (ls : Lists) (v u : Value) : Prop := u ∈ v.elements ls

def Within (ls : Lists) : Value → Value → Prop := Relation.ReflTransGen (Holds ls)

/-- The lists within the value are in the table, and nothing within it is inside itself. -/
structure Acyclic (ls : Lists) (v : Value) : Prop where
  listed : ∀ a, v.Within ls (.list a) → a.index < ls.size
  irreflexive : ∀ u, v.Within ls u → ¬ Relation.TransGen (Holds ls) u u

theorem Acyclic.element {u : Value} (acyclic : v.Acyclic ls) (holds : v.Holds ls u) :
    u.Acyclic ls where
  listed a within := acyclic.listed a (.head holds within)
  irreflexive w within := acyclic.irreflexive w (.head holds within)

/-- Going down from list to list, no list comes up twice, and there are only so many. -/
theorem Acyclic.unfolds_inside (around : Std.TreeSet ListId) (v : Value) (acyclic : v.Acyclic ls)
    (inside : ∀ a ∈ around, Relation.TransGen (Holds ls) (.list a) v) : ∃ t, v.Unfolds ls t := by
  match v with
  | .bool b => exact ⟨_, .leaf (.bool b) rfl⟩
  | .int n => exact ⟨_, .leaf (.int n) rfl⟩
  | .real x => exact ⟨_, .leaf (.real x) rfl⟩
  | .str s => exact ⟨_, .leaf (.str s) rfl⟩
  | .list a =>
    have listed := acyclic.listed a .refl
    have new : around.contains a = false := by
      rw [Bool.eq_false_iff]
      exact fun seen => acyclic.irreflexive _ .refl (inside a seen)
    have fewer := unseen_insert_lt ls.ids around a ((ls.mem_ids a).mpr listed) new
    have each : ∀ u ∈ (ls.get a).toList, ∃ t, u.Unfolds ls t := by
      intro u member
      refine unfolds_inside (around.insert a) u (acyclic.element member) fun b seen => ?_
      rcases Std.TreeSet.mem_insert.mp seen with same | before
      · cases Std.LawfulEqOrd.eq_of_compare same
        exact .single member
      · exact (inside b before).tail member
    obtain ⟨ts, all⟩ := exists_forall₂ each
    exact ⟨_, unfolds_list_iff.mpr ⟨listed, ts, rfl, all⟩⟩
  | .tuple vs =>
    have each : ∀ u ∈ vs, ∃ t, u.Unfolds ls t := by
      intro u member
      have smaller := List.sizeOf_lt_of_mem member
      exact unfolds_inside around u (acyclic.element member) fun b seen =>
        (inside b seen).tail member
    obtain ⟨ts, all⟩ := exists_forall₂ each
    exact ⟨_, unfolds_tuple_iff.mpr ⟨ts, rfl, all⟩⟩
termination_by (unseen ls.ids around, sizeOf v)

theorem Unfolds.of_holds {u : Value} (unfolds : v.Unfolds ls t) (holds : v.Holds ls u) :
    ∃ t' ∈ t.elements, u.Unfolds ls t' := by
  cases t with
  | leaf l =>
    cases unfolds with
    | leaf _ eq =>
      subst eq
      cases l <;> cases holds
  | list ts =>
    obtain ⟨a, rfl, all⟩ := unfolds.of_list
    exact forall₂_exists_of_mem all holds
  | tuple ts =>
    obtain ⟨vs, rfl, all⟩ := unfolds.of_tuple
    exact forall₂_exists_of_mem all holds

theorem Unfolds.of_within {p : Tree → Prop} (pass : ∀ t, p t → ∀ t' ∈ t.elements, p t') {u : Value}
    (unfolds : v.Unfolds ls t) (holds : p t) (within : v.Within ls u) :
    ∃ t', u.Unfolds ls t' ∧ p t' := by
  induction within with
  | refl => exact ⟨t, unfolds, holds⟩
  | tail _ element ih =>
    obtain ⟨t', unfolds', holds'⟩ := ih
    obtain ⟨t'', member, unfolds''⟩ := unfolds'.of_holds element
    exact ⟨t'', unfolds'', pass t' holds' t'' member⟩

theorem acyclic_iff : v.Acyclic ls ↔ ∃ t, v.Unfolds ls t := by
  constructor
  · exact fun acyclic =>
      acyclic.unfolds_inside {} v fun _ seen => absurd seen Std.TreeSet.not_mem_emptyc
  · rintro ⟨t, unfolds⟩
    have tree {u : Value} (within : v.Within ls u) : ∃ t', u.Unfolds ls t' := by
      obtain ⟨t', unfolds', _⟩ :=
        Unfolds.of_within (p := fun _ => True) (fun _ _ _ _ => True.intro) unfolds True.intro within
      exact ⟨t', unfolds'⟩
    refine ⟨fun a within => ?_, fun u within cycle => ?_⟩
    · obtain ⟨t', unfolds'⟩ := tree within
      exact (unfolds_list_iff.mp unfolds').1
    · obtain ⟨t', unfolds'⟩ := tree within
      obtain ⟨w, element, back⟩ := Relation.TransGen.head'_iff.mp cycle
      obtain ⟨t₁, member, inner⟩ := unfolds'.of_holds element
      -- On the way back to `u` the trees stay smaller than that of `u`.
      obtain ⟨t₂, again, smaller⟩ := Unfolds.of_within (p := fun t => t.size < t'.size)
        (fun t lt t'' member => (Tree.size_lt_of_mem member).trans lt) inner
        (Tree.size_lt_of_mem member) back
      rw [unfolds'.unique again] at smaller
      exact lt_irrefl _ smaller

end Value

end Scriptlet
