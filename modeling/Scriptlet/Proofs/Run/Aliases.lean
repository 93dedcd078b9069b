import Scriptlet.Proofs.Run.Places

namespace Scriptlet

namespace Value

/-- On its way from `target`, indexing meets the element of the list `a` at `i`. -/
def Meets (ls : Lists) (target : Value) (indices : List Value) (a : ListId) (i : Int64) : Prop :=
  ∃ path rest, indices = path ++ .int i :: rest ∧ target.at ls path = .ok (.list a)

variable {ls ls' : Lists} {target u : Value} {a : ListId} {i : Int64}

theorem meets_cons_iff {index : Value} {indices : List Value} :
    target.Meets ls (index :: indices) a i ↔
      target = .list a ∧ index = .int i ∨
        ∃ u, target.step ls index = .ok u ∧ u.Meets ls indices a i := by
  constructor
  · rintro ⟨path, rest, split, leads⟩
    cases path with
    | nil =>
      cases split
      cases leads
      exact .inl ⟨rfl, rfl⟩
    | cons j path =>
      obtain ⟨rfl, tail⟩ := List.cons.inj split
      obtain ⟨u, first, further⟩ := at_cons_eq_ok_iff.mp leads
      exact .inr ⟨u, first, path, rest, tail, further⟩
  · rintro (⟨rfl, rfl⟩ | ⟨u, first, path, rest, rfl, further⟩)
    · exact ⟨[], indices, rfl, rfl⟩
    · exact ⟨index :: path, rest, rfl, at_cons_eq_ok_iff.mpr ⟨u, first, further⟩⟩

theorem not_meets_nil : ¬target.Meets ls [] a i := by
  rintro ⟨path, rest, split, -⟩
  cases path <;> cases split

theorem not_meets_cons {index : Value} {indices : List Value}
    (first : target.step ls index = .ok u) (here : target = .list a → index ≠ .int i)
    (further : ¬u.Meets ls indices a i) : ¬target.Meets ls (index :: indices) a i := by
  intro meets
  rcases meets_cons_iff.mp meets with ⟨list, same⟩ | ⟨w, first', meets⟩
  · exact here list same
  · cases first.symm.trans first'
    exact further meets

/-- Indexing finds the same where all elements that it meets are the same. -/
theorem at_congr {indices : List Value}
    (same : ∀ a i, target.Meets ls indices a i → ls'.elementAt a i = ls.elementAt a i) :
    target.at ls' indices = target.at ls indices := by
  induction indices generalizing target with
  | nil => rfl
  | cons index indices ih =>
    have first : target.step ls' index = target.step ls index := by
      cases index with
      | int i =>
        cases target with
        | list a => exact same a i (meets_cons_iff.mpr (.inl ⟨rfl, rfl⟩))
        | _ => rfl
      | _ => rfl
    rw [Value.at, Value.at, first]
    cases found : target.step ls index with
    | error e => rfl
    | ok u => exact ih fun a i meets => same a i (meets_cons_iff.mpr (.inr ⟨u, found, meets⟩))

end Value

namespace Lists

variable {ls : Lists} {a b : ListId} {i j : Int64} {v : Value}

theorem elementAt_set_self (inside : ls.InRange a i) (v : Value) :
    (ls.set a i.toInt.toNat v).elementAt a i = .ok v := by
  obtain ⟨u, element⟩ := id inside
  have nonneg := (elementAt_eq_ok_iff.mp element).1
  rw [elementAt_eq_ok_iff, getElem?_get_set inside, if_pos ⟨rfl, rfl⟩]
  exact ⟨nonneg, rfl⟩

theorem elementAt_set_of_ne (inside : ls.InRange a i) (v : Value) (other : ¬(b = a ∧ j = i)) :
    (ls.set a i.toInt.toNat v).elementAt b j = ls.elementAt b j := by
  have size := size_get_set inside v b
  simp only [elementAt, atIndex, Sequence.get?_eq, size]
  split
  · rfl
  rename_i nonneg
  have nonneg' := (inRange_iff.mp inside).1
  have apart : ¬(b = a ∧ j.toInt.toNat = i.toInt.toNat) := by
    rintro ⟨rfl, same⟩
    exact other ⟨rfl, Int64.toInt_inj.mp (by omega)⟩
  rw [getElem?_get_set inside, if_neg apart]

theorem at_set {w : Value} {indices : List Value} (inside : ls.InRange a i) (v : Value)
    (apart : ¬w.Meets ls indices a i) :
    w.at (ls.set a i.toInt.toNat v) indices = w.at ls indices := by
  refine Value.at_congr fun b j meets => elementAt_set_of_ne inside v ?_
  rintro ⟨rfl, rfl⟩
  exact apart meets

theorem at_set_self {w : Value} {path : List Value} (inside : ls.InRange a i) (v : Value)
    (leads : w.at ls path = .ok (.list a)) (apart : ¬w.Meets ls path a i) :
    w.at (ls.set a i.toInt.toNat v) (path ++ [.int i]) = .ok v := by
  have leads' := (at_set inside v apart).trans leads
  exact Value.at_append_eq_ok_iff.mpr
    ⟨.list a, leads', Value.at_cons_eq_ok_iff.mpr ⟨v, elementAt_set_self inside v, rfl⟩⟩

theorem inside_itself_of_meets {w : Value} {path : List Value}
    (leads : w.at ls path = .ok (.list a)) (meets : w.Meets ls path a i) :
    Relation.TransGen (Value.Holds ls) (.list a) (.list a) := by
  obtain ⟨before, after, rfl, first⟩ := meets
  obtain ⟨u, here, further⟩ := Value.at_append_eq_ok_iff.mp leads
  cases first.symm.trans here
  obtain ⟨u, element, further⟩ := Value.at_cons_eq_ok_iff.mp further
  have holds : (Value.list a).Holds ls u :=
    List.mem_of_getElem? (elementAt_eq_ok_iff.mp element).2
  have within : u.Within ls (.list a) :=
    (Value.within_of_at further).resolve_right fun ⟨l, same⟩ => l.value_ne_list a same.symm
  exact .head' holds within

end Lists

/--
After an assignment the same indices lead to the new value, unless the way to the replaced element
met that element itself; then a list on the way was inside itself. All that led to the element
without meeting it before lead to the new value too, whatever that is, and all that did not meet the
element find, or fail to find, what they did.
-/
theorem assigned_reads_back (ls : Lists) (target : Value) (indices : List Value) (v : Value)
    (indexed : indices ≠ []) (assigned : (ls.assign target indices v).1 = .ok ()) :
    let ls' := (ls.assign target indices v).2
    ∃ path i a, indices = path ++ [.int i] ∧ target.at ls path = .ok (.list a) ∧
      ls.InRange a i ∧ ls' = ls.set a i.toInt.toNat v ∧
      (¬target.Meets ls path a i → target.at ls' indices = .ok v) ∧
      ((∀ k < indices.length, ∀ b, target.at ls (indices.take k) = .ok (.list b) →
        ¬Relation.TransGen (Value.Holds ls) (.list b) (.list b)) → ¬target.Meets ls path a i) ∧
      (∀ (w : Value) way, w.at ls way = .ok (.list a) → ¬w.Meets ls way a i →
        w.at ls' (way ++ [.int i]) = .ok v) ∧
      ∀ (w : Value) way, ¬w.Meets ls way a i → w.at ls' way = w.at ls way := by
  intro ls'
  obtain ⟨path, i, a, split, leads, inside, lists⟩ := Lists.set_of_assign indexed assigned
  have lists : ls' = ls.set a i.toInt.toNat v := lists
  refine ⟨path, i, a, split, leads, inside, lists, fun apart => ?_, fun acyclic meets => ?_, ?_, ?_⟩
  · rw [lists, split]
    exact Lists.at_set_self inside v leads apart
  · have last : path.length < indices.length := by
      rw [split, List.length_append]
      exact Nat.lt_succ_self _
    have leads' : target.at ls (indices.take path.length) = .ok (.list a) := by
      rw [split, List.take_left]
      exact leads
    exact acyclic _ last a leads' (Lists.inside_itself_of_meets leads meets)
  · rw [lists]
    exact fun w way => Lists.at_set_self inside v
  · rw [lists]
    exact fun w way => Lists.at_set inside v

theorem assigned_reads_back_shared :
    let a := Value.list ⟨0⟩
    let b := Value.list ⟨1⟩
    let indices := [Value.int 0, .int 0]
    let ls' := (Lists.shared.assign a indices a).2
    (indices ≠ [] ∧ (Lists.shared.assign a indices a).1 = .ok ()) ∧
    a.at ls' indices = .ok a ∧ a.at ls' [.int 2, .int 1, .int 0] = .ok a ∧
    b.at ls' [.int 0] = .ok a ∧ a.at ls' [.int 1, .int 1, .int 0] = .ok (.str "x") := by
  intro a b indices ls'
  have indexed : indices ≠ [] := List.cons_ne_nil _ _
  obtain ⟨path, i, l, split, leads, -, -, reads, -, aliases, others⟩ :=
    assigned_reads_back .shared a indices a indexed rfl
  have split : [Value.int 0] ++ [.int 0] = path ++ [.int i] := split
  obtain ⟨rfl, last⟩ := List.append_inj' split rfl
  cases last
  cases leads
  have apart : a ≠ .list ⟨1⟩ := fun same => absurd (Value.list.inj same) (by decide)
  have next : Value.int 1 ≠ .int 0 := fun same => absurd (Value.int.inj same) (by decide)
  have straight : ¬a.Meets .shared [.int 0] ⟨1⟩ 0 :=
    Value.not_meets_cons rfl (absurd · apart) Value.not_meets_nil
  have around : ¬a.Meets .shared [.int 2, .int 1] ⟨1⟩ 0 :=
    Value.not_meets_cons rfl (absurd · apart)
      (Value.not_meets_cons rfl (absurd · apart) Value.not_meets_nil)
  have beside : ¬a.Meets .shared [.int 1, .int 1, .int 0] ⟨1⟩ 0 :=
    Value.not_meets_cons rfl (absurd · apart)
      (Value.not_meets_cons rfl (fun _ => next)
        (Value.not_meets_cons rfl nofun Value.not_meets_nil))
  exact ⟨⟨indexed, rfl⟩, reads straight, aliases a [.int 2, .int 1] rfl around,
    aliases b [] rfl Value.not_meets_nil, others a [.int 1, .int 1, .int 0] beside⟩

-- The way to the element meets it: `a[0][0] = 5` for `a = [a]` leaves `a` without a list at 0.
example : (Value.list ⟨0⟩).at (Lists.assign ⟨#[.singleton (.list ⟨0⟩)]⟩ (.list ⟨0⟩)
    [.int 0, .int 0] (.int 5)).2 [.int 0, .int 0] = .error (.typeMismatch "[]" [.integer]) := rfl

end Scriptlet
