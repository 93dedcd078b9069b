import Scriptlet.Proofs.Run.Knots
import Scriptlet.Proofs.SideBySide
import Scriptlet.Proofs.Values.Equivalence

namespace Scriptlet

inductive Likewise {ε α β : Type} (r : α → β → Prop) : Except ε α → Except ε β → Prop
  | ok {a : α} {b : β} : r a b → Likewise r (.ok a) (.ok b)
  | error (e : ε) : Likewise r (.error e) (.error e)

theorem Likewise.mono {ε α β : Type} {r r' : α → β → Prop} {a : Except ε α} {b : Except ε β}
    (alike : Likewise r a b) (more : ∀ a b, r a b → r' a b) : Likewise r' a b := by
  cases alike with
  | ok related => exact .ok (more _ _ related)
  | error e => exact .error e

namespace Value

/-- The values are the same but for their lists, and these are related. -/
inductive Twins (r : ListId → ListId → Prop) : Value → Value → Prop
  | leaf {v w : Value} (l : Literal) : v = l.value → w = l.value → Twins r v w
  | list {a b : ListId} : r a b → Twins r (.list a) (.list b)
  | tuple {vs ws : List Value} : vs.length = ws.length →
      (∀ v w, (v, w) ∈ vs.zip ws → Twins r v w) → Twins r (.tuple vs) (.tuple ws)

namespace Twins

variable {r r' : ListId → ListId → Prop} {v w : Value} {vs ws : List Value}

theorem literal (l : Literal) : Twins r l.value l.value := .leaf l rfl rfl

theorem of_forall₂ (all : List.Forall₂ (Twins r) vs ws) : Twins r (.tuple vs) (.tuple ws) :=
  .tuple all.length_eq fun _ _ => List.forall₂_zip all

theorem induct {motive : Value → Value → Prop} (twins : Twins r v w)
    (leaf : ∀ l : Literal, motive l.value l.value)
    (list : ∀ a b, r a b → motive (.list a) (.list b))
    (tuple : ∀ vs ws, List.Forall₂ (Twins r) vs ws → List.Forall₂ motive vs ws →
      motive (.tuple vs) (.tuple ws)) : motive v w := by
  induction twins with
  | leaf l left right =>
    subst left right
    exact leaf l
  | list related => exact list _ _ related
  | tuple same each ih =>
    exact tuple _ _ (List.forall₂_iff_zip.mpr ⟨same, each _ _⟩)
      (List.forall₂_iff_zip.mpr ⟨same, ih _ _⟩)

theorem mono (more : ∀ a b, r a b → r' a b) (twins : Twins r v w) : Twins r' v w :=
  twins.induct .literal (fun a b related => .list (more a b related)) fun _ _ _ => .of_forall₂

theorem symm (twins : Twins r v w) : Twins (flip r) w v :=
  twins.induct (motive := fun v w => Twins (flip r) w v) .literal (fun _ _ related => .list related)
    fun _ _ _ all => .of_forall₂ all.flip

theorem of_list {a : ListId} (twins : Twins r (.list a) w) : ∃ b, w = .list b ∧ r a b := by
  cases twins with
  | leaf l left => exact absurd left.symm (l.value_ne_list a)
  | list related => exact ⟨_, rfl, related⟩

theorem self {ls : Lists} : (v : Value) → (∀ a, v.Within ls (.list a) → r a a) → Twins r v v
  | .bool b, _ => .literal (.bool b)
  | .int n, _ => .literal (.int n)
  | .real x, _ => .literal (.real x)
  | .str s, _ => .literal (.str s)
  | .list a, each => .list (each a .refl)
  | .tuple vs, each => .of_forall₂ <| List.forall₂_same.mpr fun u mem =>
    self u fun a within => each a (.head mem within)

end Twins

end Value

/-- Which list of the one table has its twin where in the other: at most one, with twins in it. -/
structure Pairing (ls ls' : Lists) where
  rel : ListId → ListId → Prop
  listed : ∀ {a b}, rel a b → a.index < ls.size ∧ b.index < ls'.size
  unique : ∀ {a b c d}, rel a b → rel c d → (a = c ↔ b = d)
  elements : ∀ {a b}, rel a b → List.Forall₂ (Value.Twins rel) (ls.get a).toList (ls'.get b).toList

namespace Pairing

variable {ls ls' ls₁ ls₁' ls₂ ls₂' : Lists}

/-- The lists have stayed as they were and have their old twins; only new lists have new ones. -/
structure Extends (p : Pairing ls ls') (q : Pairing ls₁ ls₁') : Prop where
  left : ls.GrowTo ls₁
  right : ls'.GrowTo ls₁'
  kept : ∀ a b, p.rel a b → q.rel a b
  new : ∀ a b, q.rel a b → p.rel a b ∨ ls.size ≤ a.index ∧ ls'.size ≤ b.index

theorem Extends.refl (p : Pairing ls ls') : p.Extends p where
  left := .refl ls
  right := .refl ls'
  kept _ _ := id
  new _ _ := .inl

theorem Extends.trans {p : Pairing ls ls'} {q : Pairing ls₁ ls₁'} {u : Pairing ls₂ ls₂'}
    (first : p.Extends q) (second : q.Extends u) : p.Extends u where
  left := first.left.trans second.left
  right := first.right.trans second.right
  kept a b related := second.kept a b (first.kept a b related)
  new a b related := by
    rcases second.new a b related with before | ⟨left, right⟩
    · exact first.new a b before
    · exact .inr ⟨first.left.size_le.trans left, first.right.size_le.trans right⟩

def symm (p : Pairing ls ls') : Pairing ls' ls where
  rel := flip p.rel
  listed related := (p.listed related).symm
  unique first second := (p.unique first second).symm
  elements related := ((p.elements related).imp fun _ _ => Value.Twins.symm).flip

def add (p : Pairing ls ls') {xs ys : Sequence Value}
    (twins : List.Forall₂ (Value.Twins p.rel) xs.toList ys.toList) :
    Pairing (ls.add xs).2 (ls'.add ys).2 where
  rel a b := p.rel a b ∨ a = (ls.add xs).1 ∧ b = (ls'.add ys).1
  listed := by
    rintro a b (related | ⟨rfl, rfl⟩)
    · have old := p.listed related
      exact ⟨(ls.growTo_add xs a old.1).1, (ls'.growTo_add ys b old.2).1⟩
    · rw [Lists.size_add, Lists.size_add]
      exact ⟨Nat.lt_succ_self _, Nat.lt_succ_self _⟩
  unique := by
    have apart {a b : ListId} (related : p.rel a b) :
        a ≠ (ls.add xs).1 ∧ b ≠ (ls'.add ys).1 := by
      have old := p.listed related
      refine ⟨?_, ?_⟩
      · rintro rfl
        exact lt_irrefl _ old.1
      · rintro rfl
        exact lt_irrefl _ old.2
    rintro a b c d (first | ⟨rfl, rfl⟩) (second | ⟨rfl, rfl⟩)
    · exact p.unique first second
    · exact iff_of_false (apart first).1 (apart first).2
    · exact iff_of_false (apart second).1.symm (apart second).2.symm
    · exact iff_of_true rfl rfl
  elements := by
    have old {as bs : List Value} (all : List.Forall₂ (Value.Twins p.rel) as bs) :
        List.Forall₂ (Value.Twins fun a b => p.rel a b ∨ a = (ls.add xs).1 ∧ b = (ls'.add ys).1)
          as bs :=
      all.imp fun _ _ => Value.Twins.mono fun _ _ => .inl
    rintro a b (related | ⟨rfl, rfl⟩)
    · have inside := p.listed related
      rw [(ls.growTo_add xs a inside.1).2, (ls'.growTo_add ys b inside.2).2]
      exact old (p.elements related)
    · rw [Lists.get_add, Lists.get_add]
      exact old twins

theorem extends_add (p : Pairing ls ls') {xs ys : Sequence Value}
    (twins : List.Forall₂ (Value.Twins p.rel) xs.toList ys.toList) : p.Extends (p.add twins) where
  left := ls.growTo_add xs
  right := ls'.growTo_add ys
  kept _ _ := .inl
  new a b := by
    rintro (related | ⟨rfl, rfl⟩)
    · exact .inl related
    · exact .inr ⟨le_rfl, le_rfl⟩

def ofSame (root : Value → Prop)
    (same : ∀ v a, root v → v.Within ls (.list a) →
      a.index < ls.size ∧ a.index < ls'.size ∧ ls'.get a = ls.get a) : Pairing ls ls' where
  rel a b := a = b ∧ ∃ v, root v ∧ v.Within ls (.list a)
  listed := by
    rintro a b ⟨rfl, v, chosen, within⟩
    obtain ⟨left, right, _⟩ := same v a chosen within
    exact ⟨left, right⟩
  unique := by
    rintro a b c d ⟨rfl, _⟩ ⟨rfl, _⟩
    exact Iff.rfl
  elements := by
    rintro a b ⟨rfl, v, chosen, within⟩
    rw [(same v a chosen within).2.2, List.forall₂_same]
    exact fun u mem => .self u fun b inside => ⟨rfl, v, chosen, within.trans (.head mem inside)⟩

theorem twins_ofSame {root : Value → Prop}
    (same : ∀ v a, root v → v.Within ls (.list a) →
      a.index < ls.size ∧ a.index < ls'.size ∧ ls'.get a = ls.get a) {v : Value}
    (chosen : root v) : v.Twins (ofSame root same).rel v :=
  .self v fun _ within => ⟨rfl, v, chosen, within⟩

end Pairing

namespace Value.Twins

variable {ls ls' : Lists} {p : Pairing ls ls'} {a a' b b' v v' w w' : Value}

theorem holds {u : Value} (twins : v.Twins p.rel w) (holds : v.Holds ls u) :
    ∃ u', u.Twins p.rel u' := by
  cases twins with
  | leaf l left =>
    subst left
    exact absurd holds (not_holds_literal l)
  | list related =>
    obtain ⟨u', _, twins⟩ := forall₂_exists_of_mem (p.elements related) holds
    exact ⟨u', twins⟩
  | tuple same each =>
    obtain ⟨u', _, twins⟩ := forall₂_exists_of_mem (List.forall₂_iff_zip.mpr ⟨same, each _ _⟩) holds
    exact ⟨u', twins⟩

theorem listed (twins : v.Twins p.rel w) : v.Listed ls := by
  intro a within
  induction within using Relation.ReflTransGen.head_induction_on generalizing w with
  | refl =>
    obtain ⟨b, _, related⟩ := twins.of_list
    exact (p.listed related).1
  | head holds _ ih =>
    obtain ⟨u', twins⟩ := twins.holds holds
    exact ih twins

theorem shape?_eq (twins : v.Twins p.rel w) : w.shape? ls' = v.shape? ls := by
  cases twins with
  | leaf l left right =>
    subst left right
    cases l <;> rfl
  | list related =>
    show some (Shape.list _) = some (Shape.list _)
    rw [(p.elements related).length_eq]
  | tuple same each =>
    show some (Shape.tuple _) = some (Shape.tuple _)
    rw [same]

theorem element? (twins : v.Twins p.rel w) (i : Nat) :
    Option.Rel (Twins p.rel) (v.element? ls i) (w.element? ls' i) := by
  cases twins with
  | leaf l left right =>
    subst left right
    cases l <;> exact .none
  | list related => exact forall₂_getElem? (p.elements related) i
  | tuple same each => exact forall₂_getElem? (List.forall₂_iff_zip.mpr ⟨same, each _ _⟩) i

theorem sameList (first : v.Twins p.rel w) (second : v'.Twins p.rel w') (same : SameList v v') :
    SameList w w' := by
  obtain rfl := eq_of_sameList same
  cases v with
  | list a =>
    obtain ⟨b, rfl, related⟩ := first.of_list
    obtain ⟨c, rfl, related'⟩ := second.of_list
    exact (p.unique related related').mp rfl
  | _ => exact same.elim

theorem equal_of_equal (first : v.Twins p.rel w) (second : v'.Twins p.rel w')
    (equal : v.equal ls v') : w.equal ls' w' := by
  refine equal_of_bisimulation
    (r := fun w w' => ∃ v v', v.Twins p.rel w ∧ v'.Twins p.rel w' ∧ v.equal ls v') ?_ ?_
    ⟨v, v', first, second, equal⟩
  · rintro w w' ⟨v, v', first, second, equal⟩
    obtain ⟨s, left, right⟩ := (not_mismatch_iff v v').mp (not_mismatch_of_equal equal)
    exact (not_mismatch_iff w w').mpr
      ⟨s, first.shape?_eq.trans left, second.shape?_eq.trans right⟩
  · rintro w w' u u' ⟨v, v', first, second, equal⟩ ⟨other, i, left, right⟩
    have here := first.element? i
    have here' := second.element? i
    rw [left] at here
    rw [right] at here'
    generalize found : v.element? ls i = o at here
    generalize found' : v'.element? ls i = o' at here'
    cases here with
    | some twins =>
      cases here' with
      | some twins' =>
        have other : ¬SameList v v' := fun same => other (first.sameList second same)
        exact ⟨_, _, twins, twins', equal_of_step equal ⟨other, i, found, found'⟩⟩

theorem equal_eq (first : v.Twins p.rel w) (second : v'.Twins p.rel w') :
    v.equal ls v' = w.equal ls' w' := by
  rw [Bool.eq_iff_iff]
  exact ⟨first.equal_of_equal second, equal_of_equal (p := p.symm) first.symm second.symm⟩

end Value.Twins

inductive Result.Twins (r : ListId → ListId → Prop) : Result → Result → Prop
  | value {v w : Value} : v.Twins r w → Twins r (.value v) (.value w)
  | list {xs ys : Sequence Value} : List.Forall₂ (Value.Twins r) xs.toList ys.toList →
      Twins r (.list xs) (.list ys)

namespace Likewise

variable {ls ls' : Lists} {p : Pairing ls ls'} {a a' b b' v v' w w' : Value}

theorem unary (op : UnaryOp) (twins : v.Twins p.rel w) :
    Likewise (Value.Twins p.rel) (op.apply v) (op.apply w) := by
  cases twins with
  | leaf l left right =>
    subst left right
    cases result : op.apply l.value with
    | error e => exact .error e
    | ok u =>
      obtain ⟨l', rfl⟩ := UnaryOp.exists_literal result
      exact .ok (.literal l')
  | list => cases op <;> exact .error _
  | tuple => cases op <;> exact .error _

theorem comparison_eq (c : Comparison) (first : a.Twins p.rel a') (second : b.Twins p.rel b') :
    c.apply a b = c.apply a' b' := by
  cases first with
  | leaf l left right =>
    subst left right
    cases second with
    | leaf l' left right => rw [left, right]
    | list => cases l <;> rfl
    | tuple => cases l <;> rfl
  | list =>
    cases second with
    | leaf l left right =>
      subst left right
      cases l <;> rfl
    | _ => rfl
  | tuple =>
    cases second with
    | leaf l left right =>
      subst left right
      cases l <;> rfl
    | _ => rfl

theorem apply_literals (op : BinaryOp) (ls ls' : Lists) (l l' : Literal) :
    op.apply ls' l.value l'.value = op.apply ls l.value l'.value := by
  cases op with
  | arith op => cases op <;> cases l <;> cases l' <;> rfl
  | cons => cases l' <;> rfl
  | member => cases l <;> cases l' <;> rfl
  | _ => rfl

theorem literals (op : BinaryOp) (l l' : Literal) : Likewise (Result.Twins p.rel)
    (op.apply ls l.value l'.value) (op.apply ls' l.value l'.value) := by
  rw [apply_literals op ls ls']
  cases applied : op.apply ls l.value l'.value with
  | error e => exact .error e
  | ok r =>
    have stems := BinaryOp.stems_apply applied
    cases r with
    | value u =>
      obtain ⟨l, rfl⟩ := stems
      exact .ok (.value (.literal l))
    | list items =>
      refine .ok (.list (List.forall₂_same.mpr fun u mem => ?_))
      rcases stems u mem with within | within
      · rw [Value.eq_of_within_literal within]
        exact .literal l
      · rw [Value.eq_of_within_literal within]
        exact .literal l'

theorem any_equal (item : v.Twins p.rel w) {vs ws : List Value}
    (all : List.Forall₂ (Value.Twins p.rel) vs ws) :
    (vs.any fun u => u.equal ls v) = ws.any fun u => u.equal ls' w := by
  induction all with
  | nil => rfl
  | cons first _ ih => rw [List.any_cons, List.any_cons, ih, first.equal_eq item]

theorem arithmetic (op : Arithmetic) (first : a.Twins p.rel a') (second : b.Twins p.rel b') :
    Likewise (Result.Twins p.rel) (op.apply ls a b) (op.apply ls' a' b') := by
  cases first with
  | leaf l left right =>
    subst left right
    cases second with
    | leaf l' left right =>
      subst left right
      exact literals (.arith op) l l'
    | _ => cases op <;> cases l <;> exact .error _
  | list related =>
    cases second with
    | leaf l left right =>
      subst left right
      cases op <;> cases l <;> exact .error _
    | list related' =>
      cases op with
      | add =>
        refine .ok (.list ?_)
        rw [Sequence.toList_append, Sequence.toList_append]
        exact List.rel_append (p.elements related) (p.elements related')
      | _ => exact .error _
    | tuple => cases op <;> exact .error _
  | tuple =>
    cases second with
    | leaf l left right =>
      subst left right
      cases op <;> cases l <;> exact .error _
    | _ => cases op <;> exact .error _

theorem member (first : a.Twins p.rel a') (second : b.Twins p.rel b') :
    Likewise (Result.Twins p.rel) (BinaryOp.member.apply ls a b)
      (BinaryOp.member.apply ls' a' b') := by
  cases second with
  | list related =>
    rw [Value.member_list, Value.member_list, any_equal first (p.elements related)]
    exact .ok (.value (.literal (.bool _)))
  | leaf l left right =>
    subst left right
    cases first with
    | leaf l' left right =>
      subst left right
      exact literals .member l' l
    | _ => cases l <;> exact .error _
  | tuple =>
    cases first with
    | leaf l left right =>
      subst left right
      cases l <;> exact .error _
    | _ => exact .error _

theorem cons (first : a.Twins p.rel a') (second : b.Twins p.rel b') :
    Likewise (Result.Twins p.rel) (BinaryOp.cons.apply ls a b) (BinaryOp.cons.apply ls' a' b') := by
  cases second with
  | leaf l left right =>
    subst left right
    cases l <;> exact .error _
  | list related =>
    refine .ok (.list ?_)
    rw [Sequence.toList_cons, Sequence.toList_cons]
    exact .cons first (p.elements related)
  | tuple => exact .error _

theorem binary (op : BinaryOp) (first : a.Twins p.rel a') (second : b.Twins p.rel b') :
    Likewise (Result.Twins p.rel) (op.apply ls a b) (op.apply ls' a' b') := by
  cases op with
  | compare c =>
    show Likewise _ ((c.apply a b).map _) ((c.apply a' b').map _)
    rw [comparison_eq c first second]
    cases c.apply a' b' with
    | error e => exact .error e
    | ok t => exact .ok (.value (.literal (.bool t)))
  | cons => exact cons first second
  | member => exact member first second
  | arith op => exact arithmetic op first second
  | orElse | andAlso =>
    cases first with
    | leaf l left right =>
      subst left right
      cases second with
      | leaf l' left right =>
        subst left right
        exact literals _ l l'
      | _ => cases l <;> exact .error _
    | _ =>
      cases second with
      | leaf l left right =>
        subst left right
        exact .error _
      | _ => exact .error _

theorem element {a b : ListId} (related : p.rel a b) (i : Int64) :
    Likewise (Value.Twins p.rel) (ls.elementAt a i) (ls'.elementAt b i) := by
  have all := p.elements related
  have here := forall₂_getElem? all i.toInt.toNat
  have size : (ls.get a).size = (ls'.get b).size := by
    rw [← Sequence.length_toList, ← Sequence.length_toList, all.length_eq]
  simp only [Lists.elementAt, atIndex, Sequence.get?_eq, size]
  split
  · exact .error _
  · generalize (ls.get a).toList[i.toInt.toNat]? = o at here
    generalize (ls'.get b).toList[i.toInt.toNat]? = o' at here
    cases here with
    | some twins => exact .ok twins
    | none => exact .error _

theorem step {i j : Value} (target : v.Twins p.rel w) (index : i.Twins p.rel j) :
    Likewise (Value.Twins p.rel) (v.step ls i) (w.step ls' j) := by
  cases index with
  | leaf l left right =>
    subst left right
    cases l with
    | int n =>
      cases target with
      | leaf l left right =>
        subst left right
        cases l with
        | str s =>
          show Likewise _ ((atIndex (Text.characterAt? s) s.length n).map _)
            ((atIndex (Text.characterAt? s) s.length n).map _)
          cases atIndex (Text.characterAt? s) s.length n with
          | error e => exact .error e
          | ok c => exact .ok (.literal (.str c.toString))
        | _ => exact .error _
      | list related => exact element related n
      | tuple => exact .error _
    | _ => exact .error _
  | list => exact .error _
  | tuple => exact .error _

theorem indexed {is js : List Value} (target : v.Twins p.rel w)
    (indices : List.Forall₂ (Value.Twins p.rel) is js) :
    Likewise (Value.Twins p.rel) (v.at ls is) (w.at ls' js) := by
  induction indices generalizing v w with
  | nil => exact .ok target
  | @cons i j is js index _ ih =>
    have first := step target index
    rw [Value.at, Value.at]
    generalize v.step ls i = o at first
    generalize w.step ls' j = o' at first
    cases first with
    | ok twins => exact ih twins
    | error e => exact .error e

theorem field (n : Int64) (target : v.Twins p.rel w) :
    Likewise (Value.Twins p.rel) (v.field n) (w.field n) := by
  cases target with
  | leaf l left right =>
    subst left right
    cases l <;> exact .error _
  | list => exact .error _
  | @tuple vs ws same each =>
    have here := forall₂_getElem? (List.forall₂_iff_zip.mpr ⟨same, each _ _⟩) (n.toInt.toNat - 1)
    simp only [Value.field, same]
    split
    · exact .error _
    · generalize vs[n.toInt.toNat - 1]? = o at here
      generalize ws[n.toInt.toNat - 1]? = o' at here
      cases here with
      | some twins => exact .ok twins
      | none => exact .error _

end Likewise

namespace Value.Twins

variable {ls ls' : Lists} {p : Pairing ls ls'}

theorem textWithin_eq {v w : Value} (twins : v.Twins p.rel w)
    (around around' : Std.TreeSet ListId)
    (same : ∀ a b, p.rel a b → around.contains a = around'.contains b) :
    v.textWithin ls around = w.textWithin ls' around' := by
  cases twins with
  | leaf l left right =>
    subst left right
    exact String.toList_injective
      ((textWithin_literal ls around l).trans (textWithin_literal ls' around' l).symm)
  | @list a b related =>
    rw [textWithin_list, textWithin_list, same a b related]
    split
    · rfl
    rename_i new
    have fewer : unseen ls.ids (around.insert a) < unseen ls.ids around :=
      unseen_insert_lt _ _ _ ((ls.mem_ids a).mpr (p.listed related).1)
        ((same a b related).trans (Bool.eq_false_iff.mpr new))
    have inner : ∀ c d, p.rel c d →
        (around.insert a).contains c = (around'.insert b).contains d := by
      intro c d related'
      have here : (compare a c == .eq) = (compare b d == .eq) := by
        rw [Bool.eq_iff_iff, beq_iff_eq, beq_iff_eq, Std.LawfulEqOrd.compare_eq_iff_eq,
          Std.LawfulEqOrd.compare_eq_iff_eq]
        exact p.unique related related'
      rw [Std.TreeSet.contains_insert, Std.TreeSet.contains_insert, here, same c d related']
    have texts := map_eq_map_of_forall₂ ((p.elements related).imp fun u u' twins =>
      twins.textWithin_eq (around.insert a) (around'.insert b) inner)
    rw [texts]
  | @tuple vs ws lengths each =>
    have all := List.forall₂_iff_zip.mpr ⟨lengths, each _ _⟩
    have texts := map_eq_map_of_forall₂ (forall₂_imp_mem all fun u mem u' _ twins =>
      have smaller := List.sizeOf_lt_of_mem mem
      twins.textWithin_eq around around' same)
    rw [textWithin_tuple, textWithin_tuple, texts, lengths]
termination_by (unseen ls.ids around, sizeOf v)

theorem display_eq {v w : Value} (twins : v.Twins p.rel w) : v.display ls = w.display ls' := by
  have same : v.repr ls = w.repr ls' := twins.textWithin_eq {} {} fun _ _ _ => rfl
  cases twins with
  | leaf l left right =>
    subst left right
    cases l with
    | str s => rfl
    | _ => exact same
  | list => exact same
  | tuple => exact same

end Value.Twins

theorem Value.Listed.display_eq {ls ls' : Lists} {v : Value} (listed : v.Listed ls)
    (grow : ls.GrowTo ls') : v.display ls' = v.display ls := by
  have same : ∀ w a, w = v → w.Within ls (.list a) →
      a.index < ls.size ∧ a.index < ls'.size ∧ ls'.get a = ls.get a := by
    rintro _ a rfl within
    exact ⟨listed a within, grow a (listed a within)⟩
  exact (Pairing.twins_ofSame same rfl).display_eq.symm

end Scriptlet
