import Scriptlet.Proofs.Run.Origins

namespace Scriptlet

namespace Value

variable {ls : Lists} {target : Value}

theorem exists_place?_iff {indices : List Value} (indexed : indices ≠ []) :
    (∃ place, target.place? ls indices = .ok place) ↔ (∃ u, target.at ls indices = .ok u) ∧
      ∀ k < indices.length, ∃ b, target.at ls (indices.take k) = .ok (.list b) := by
  constructor
  · rintro ⟨place, found⟩
    cases place with
    | none => exact absurd (place?_eq_none_iff.mp found) indexed
    | some place =>
      obtain ⟨path, i, rfl, leads, ⟨u, element⟩, -⟩ := place?_eq_some_iff.mp found
      refine ⟨⟨u, at_append_eq_ok_iff.mpr ⟨_, leads, at_cons_eq_ok_iff.mpr ⟨u, element, rfl⟩⟩⟩, ?_⟩
      intro k before
      rw [List.length_append, List.length_singleton, Nat.lt_succ_iff] at before
      rw [List.take_append_of_le_length before]
      rw [← List.take_append_drop k path, at_append_eq_ok_iff] at leads
      obtain ⟨w, first, rest⟩ := leads
      obtain ⟨b, rfl⟩ := list_of_at rest
      exact ⟨b, first⟩
  · rintro ⟨⟨u, found⟩, levels⟩
    obtain ⟨path, i, rfl⟩ : ∃ path i, indices = path ++ [i] :=
      ⟨_, _, (List.dropLast_append_getLast indexed).symm⟩
    obtain ⟨a, level⟩ := levels path.length (by simp)
    rw [List.take_left] at level
    obtain ⟨w, leads, last⟩ := at_append_eq_ok_iff.mp found
    cases level.symm.trans leads
    obtain ⟨_, step, _⟩ := at_cons_eq_ok_iff.mp last
    obtain ⟨i, rfl, ⟨_, same, element⟩ | ⟨_, _, string, _⟩⟩ := step_eq_ok step
    · cases same
      exact ⟨some (a, i.toInt.toNat),
        place?_eq_some_iff.mpr ⟨path, i, rfl, leads, ⟨_, element⟩, rfl⟩⟩
    · cases string

end Value

namespace Lists

variable {ls : Lists} {target v : Value} {indices : List Value}

/-- An assignment to an element of `target`: whether it is possible, and the lists after it. -/
def assign (ls : Lists) (target : Value) (indices : List Value) (v : Value) :
    Except SemanticError Unit × Lists :=
  match target.place? ls indices with
  | .ok place => (.ok (), ls.write place v)
  | .error e => (.error e, ls)

theorem assign_of_ok {place : Option (ListId × Nat)}
    (found : target.place? ls indices = .ok place) :
    ls.assign target indices v = (.ok (), ls.write place v) := by
  rw [assign, found]

theorem assign_of_error {e : SemanticError} (failed : target.place? ls indices = .error e) :
    ls.assign target indices v = (.error e, ls) := by
  rw [assign, failed]

theorem assign_eq_ok_iff :
    (ls.assign target indices v).1 = .ok () ↔ ∃ place, target.place? ls indices = .ok place := by
  cases found : target.place? ls indices with
  | ok place =>
    rw [assign_of_ok found]
    exact iff_of_true rfl ⟨place, rfl⟩
  | error e =>
    rw [assign_of_error found]
    exact iff_of_false nofun nofun

theorem eq_of_assign_eq_error {e : SemanticError}
    (failed : (ls.assign target indices v).1 = .error e) : (ls.assign target indices v).2 = ls := by
  cases found : target.place? ls indices with
  | ok place =>
    rw [assign_of_ok found] at failed
    cases failed
  | error e => rw [assign_of_error found]

theorem set_of_assign (indexed : indices ≠ [])
    (assigned : (ls.assign target indices v).1 = .ok ()) :
    ∃ path i a, indices = path ++ [.int i] ∧ target.at ls path = .ok (.list a) ∧ ls.InRange a i ∧
      (ls.assign target indices v).2 = ls.set a i.toInt.toNat v := by
  obtain ⟨place, found⟩ := assign_eq_ok_iff.mp assigned
  rw [assign_of_ok found]
  cases place with
  | none => exact absurd (Value.place?_eq_none_iff.mp found) indexed
  | some place =>
    obtain ⟨a, n⟩ := place
    obtain ⟨path, i, split, leads, inside, rfl⟩ := Value.place?_eq_some_iff.mp found
    exact ⟨path, i, a, split, leads, inside, rfl⟩

variable {a : ListId} {i : Int64}

theorem InRange.listed (inside : ls.InRange a i) :
    a.index < ls.size ∧ i.toInt.toNat < (ls.get a).toList.length := by
  obtain ⟨u, element⟩ := inside
  obtain ⟨listed, inside⟩ := listed_of_get?_eq_some (elementAt_eq_ok_iff.mp element).2
  exact ⟨listed, (Sequence.length_toList _).symm ▸ inside⟩

theorem getElem?_get_set (inside : ls.InRange a i) (v : Value) (b : ListId) (m : Nat) :
    ((ls.set a i.toInt.toNat v).get b).toList[m]? =
      if b = a ∧ m = i.toInt.toNat then some v else (ls.get b).toList[m]? := by
  obtain ⟨listed, inside⟩ := inside.listed
  rw [toList_get_set listed]
  by_cases same : b = a
  · rw [if_pos same, List.getElem?_set, same]
    by_cases here : i.toInt.toNat = m
    · rw [if_pos here, if_pos inside, if_pos ⟨rfl, here.symm⟩]
    · rw [if_neg here, if_neg fun both => here both.2.symm]
  · rw [if_neg same, if_neg fun both => same both.1]

theorem size_get_set (inside : ls.InRange a i) (v : Value) (b : ListId) :
    ((ls.set a i.toInt.toNat v).get b).size = (ls.get b).size := by
  rw [← Sequence.length_toList, toList_get_set inside.listed.1, ← Sequence.length_toList]
  split
  · rename_i same
    rw [List.length_set, same]
  · rfl

end Lists

namespace Machine

theorem step_assignAt {s : State} {x : Name} {target : Value} (limit : Nat) (v : Value)
    (indices : List Value) (k : Cont .done) (bound : s.lookup x = .ok target) :
    (value v (.assignAt x indices k) s).step limit =
      match s.lists.assign target indices v with
      | (.ok (), ls) => run [] k { s with lists := ls }
      | (.error e, _) => reject e k s := by
  have place : s.place? x indices = target.place? s.lists indices := by
    rw [State.place?, bound]
  show stepValue v (.assignAt x indices k) s = _
  simp only [stepValue, place, Lists.assign]
  cases target.place? s.lists indices <;> rfl

end Machine

/--
An assignment succeeds if and only if indexing with the same indices does and all that the indices
are applied to are lists. If it fails, all lists are as they were. If it succeeds, the last index
tells the one element that is replaced in the list that the other indices lead to, and every other
element of that list and of all others is as it was. A machine that is about to assign goes on with
these lists, or is rejected and keeps them.
-/
theorem assignment_agrees_with_indexing (ls : Lists) (target : Value) (indices : List Value)
    (v : Value) (indexed : indices ≠ []) :
    let result := (ls.assign target indices v).1
    let ls' := (ls.assign target indices v).2
    (result = .ok () ↔ (∃ u, target.at ls indices = .ok u) ∧
      ∀ k < indices.length, ∃ b, target.at ls (indices.take k) = .ok (.list b)) ∧
    (∀ e, result = .error e → ls' = ls) ∧
    (result = .ok () → ∃ path i a, indices = path ++ [.int i] ∧
      target.at ls path = .ok (.list a) ∧ ls.InRange a i ∧ ls'.size = ls.size ∧
      (∀ b, (ls'.get b).size = (ls.get b).size) ∧
      ∀ b m, (ls'.get b).toList[m]? =
        if b = a ∧ m = i.toInt.toNat then some v else (ls.get b).toList[m]?) ∧
    ∀ limit (s : State) x k, s.lists = ls → s.lookup x = .ok target →
      let next := (Machine.value v (.assignAt x indices k) s).step limit
      next.state.lists = ls' ∧ (result = .ok () → next = .run [] k { s with lists := ls' }) ∧
      ∀ e, result = .error e → next = .reject e k s := by
  intro result ls'
  have fails (e : SemanticError) (failed : result = .error e) : ls' = ls :=
    Lists.eq_of_assign_eq_error failed
  refine ⟨Lists.assign_eq_ok_iff.trans (Value.exists_place?_iff indexed), fails, ?_, ?_⟩
  · intro succeeds
    obtain ⟨path, i, a, split, leads, inside, lists⟩ := Lists.set_of_assign indexed succeeds
    have lists : ls' = ls.set a i.toInt.toNat v := lists
    rw [lists]
    exact ⟨path, i, a, split, leads, inside, Lists.size_set _ _, Lists.size_get_set inside v,
      Lists.getElem?_get_set inside v⟩
  · rintro limit s x k rfl bound next
    have step : next = _ := Machine.step_assignAt limit v indices k bound
    have parts : s.lists.assign target indices v = (result, ls') := rfl
    rw [parts] at step
    cases outcome : result with
    | ok done =>
      rw [outcome] at step
      rw [step]
      exact ⟨rfl, fun _ => rfl, nofun⟩
    | error e =>
      rw [outcome] at step
      rw [step]
      refine ⟨(Machine.lists_reject e k).trans (fails e outcome).symm, nofun, ?_⟩
      rintro _ ⟨⟩
      rfl

/-- `a = [b, b, a]` with `b = [7, "xyz"]`. -/
def Lists.shared : Lists :=
  ⟨#[.ofList [.list ⟨1⟩, .list ⟨1⟩, .list ⟨0⟩], .ofList [.int 7, .str "xyz"]]⟩

theorem assignment_agrees_with_indexing_shared :
    let a := Value.list ⟨0⟩
    let element := [Value.int 2, .int 1, .int 0]
    let character := [Value.int 1, .int 1, .int 0]
    (element ≠ [] ∧ (Lists.shared.assign a element a).1 = .ok ()) ∧
    character ≠ [] ∧ a.at .shared character = .ok (.str "x") ∧
      (Lists.shared.assign a character a).1 ≠ .ok () := by
  intro a element character
  have indexed : element ≠ [] := List.cons_ne_nil _ _
  have indexed' : character ≠ [] := List.cons_ne_nil _ _
  obtain ⟨succeeds, -⟩ := assignment_agrees_with_indexing .shared a element a indexed
  obtain ⟨succeeds', -⟩ := assignment_agrees_with_indexing .shared a character a indexed'
  refine ⟨⟨indexed, succeeds.mpr ⟨⟨.int 7, rfl⟩, ?_⟩⟩, indexed', rfl, ?_⟩
  · intro k before
    change k < 3 at before
    interval_cases k
    · exact ⟨⟨0⟩, rfl⟩
    · exact ⟨⟨0⟩, rfl⟩
    · exact ⟨⟨1⟩, rfl⟩
  · intro assigned
    obtain ⟨b, level⟩ := (succeeds'.mp assigned).2 2 (by decide)
    cases level

end Scriptlet
