import Mathlib
import Scriptlet.Operation.Container

namespace Scriptlet

namespace Lists

variable {ls : Lists} {a : ListId}

theorem elementAt_eq_ok_iff {i : Int64} {v : Value} :
    ls.elementAt a i = .ok v ↔ 0 ≤ i.toInt ∧ (ls.get a).toList[i.toInt.toNat]? = some v := by
  rw [elementAt, atIndex]
  split
  · rename_i negative
    exact ⟨nofun, fun inside => absurd negative (by omega)⟩
  · rename_i nonneg
    rw [Sequence.get?_eq]
    split
    · rename_i u found
      rw [found, Except.ok.injEq, Option.some.injEq]
      exact (and_iff_right (by omega)).symm
    · rename_i missing
      rw [missing]
      exact ⟨nofun, fun inside => nomatch inside.2⟩

def InRange (ls : Lists) (a : ListId) (i : Int64) : Prop := ∃ v, ls.elementAt a i = .ok v

theorem inRange_iff {i : Int64} :
    ls.InRange a i ↔ 0 ≤ i.toInt ∧ i.toInt < (ls.get a).size := by
  simp only [InRange, elementAt_eq_ok_iff, exists_and_left]
  refine and_congr_right fun nonneg => ?_
  rw [← Option.isSome_iff_exists, isSome_getElem?, Sequence.length_toList]
  omega

theorem listed_of_get?_eq_some {n : Nat} {v : Value} (found : (ls.get a).toList[n]? = some v) :
    a.index < ls.size ∧ n < (ls.get a).size := by
  obtain ⟨inside, _⟩ := List.getElem?_eq_some_iff.mp found
  rw [Sequence.length_toList] at inside
  exact ⟨ls.lt_size_of_mem a v (List.mem_of_getElem? found), inside⟩

end Lists

namespace Value

variable {ls : Lists} {target u : Value}

theorem at_cons_eq_ok_iff {i : Value} {is : List Value} :
    target.at ls (i :: is) = .ok u ↔ ∃ v, target.step ls i = .ok v ∧ v.at ls is = .ok u := by
  rw [Value.at]
  cases target.step ls i with
  | error e => exact ⟨nofun, fun ⟨_, stuck, _⟩ => nomatch stuck⟩
  | ok v =>
    refine ⟨fun found => ⟨v, rfl, found⟩, ?_⟩
    rintro ⟨w, same, found⟩
    cases same
    exact found

theorem at_append_eq_ok_iff {is js : List Value} :
    target.at ls (is ++ js) = .ok u ↔ ∃ v, target.at ls is = .ok v ∧ v.at ls js = .ok u := by
  induction is generalizing target with
  | nil =>
    refine ⟨fun found => ⟨target, rfl, found⟩, ?_⟩
    rintro ⟨v, same, found⟩
    cases same
    exact found
  | cons i is ih =>
    rw [List.cons_append, at_cons_eq_ok_iff]
    simp only [ih, at_cons_eq_ok_iff]
    tauto

theorem step_eq_ok {index : Value} (found : target.step ls index = .ok u) :
    ∃ i, index = .int i ∧ ((∃ a, target = .list a ∧ ls.elementAt a i = .ok u) ∨
      ∃ s s', target = .str s ∧ u = .str s') := by
  unfold step at found
  split at found
  · rename_i i
    refine ⟨i, rfl, ?_⟩
    split at found
    · rename_i a
      exact .inl ⟨a, rfl, found⟩
    · rename_i s
      cases char : atIndex (Text.characterAt? s) s.length i with
      | error e =>
        rw [char] at found
        cases found
      | ok c =>
        rw [char] at found
        cases found
        exact .inr ⟨s, _, rfl, rfl⟩
    · cases found
  · cases found

theorem list_of_at {is : List Value} {a : ListId} (found : target.at ls is = .ok (.list a)) :
    ∃ b, target = .list b := by
  induction is generalizing target with
  | nil =>
    cases found
    exact ⟨a, rfl⟩
  | cons i is ih =>
    obtain ⟨v, first, rest⟩ := at_cons_eq_ok_iff.mp found
    obtain ⟨b, rfl⟩ := ih rest
    obtain ⟨_, _, ⟨c, rfl, _⟩ | ⟨_, _, _, string⟩⟩ := step_eq_ok first
    · exact ⟨c, rfl⟩
    · cases string

theorem positions_of_at {is : List Value} (found : target.at ls is = .ok u) :
    ∃ ps : List Int64, is = ps.map .int := by
  induction is generalizing target with
  | nil => exact ⟨[], rfl⟩
  | cons i is ih =>
    obtain ⟨v, first, rest⟩ := at_cons_eq_ok_iff.mp found
    obtain ⟨p, rfl, _⟩ := step_eq_ok first
    obtain ⟨ps, rfl⟩ := ih rest
    exact ⟨p :: ps, rfl⟩

theorem mapM_position_map (ps : List Int64) : (ps.map .int).mapM position = .ok ps := by
  induction ps with
  | nil => rfl
  | cons p ps ih =>
    rw [List.map_cons, List.mapM_cons, ih]
    rfl

theorem eq_map_of_mapM_position {is : List Value} {ps : List Int64}
    (integers : is.mapM position = .ok ps) : is = ps.map .int := by
  induction is generalizing ps with
  | nil =>
    cases integers
    rfl
  | cons i is ih =>
    rw [List.mapM_cons] at integers
    cases i with
    | int p =>
      cases rest : is.mapM position with
      | error e =>
        rw [rest] at integers
        cases integers
      | ok qs =>
        rw [rest] at integers
        cases integers
        rw [ih rest, List.map_cons]
    | _ => cases integers

theorem place_nil_eq_ok_iff {i : Int64} {a : ListId} {n : Nat} : target.place ls i [] = .ok (a, n) ↔
    target = .list a ∧ ls.InRange a i ∧ n = i.toInt.toNat := by
  cases target with
  | list b =>
    rw [place]
    constructor
    · intro found
      cases element : ls.elementAt b i with
      | error e =>
        rw [element] at found
        cases found
      | ok v =>
        rw [element] at found
        cases found
        exact ⟨rfl, ⟨v, element⟩, rfl⟩
    · rintro ⟨same, ⟨v, element⟩, rfl⟩
      cases same
      rw [element]
      rfl
  | _ => exact ⟨nofun, fun ⟨same, _⟩ => nomatch same⟩

theorem place_cons_eq_ok_iff {i j : Int64} {is : List Int64} {p : ListId × Nat} :
    target.place ls i (j :: is) = .ok p ↔
      ∃ b v, target = .list b ∧ ls.elementAt b i = .ok v ∧ v.place ls j is = .ok p := by
  cases target with
  | list b =>
    rw [place]
    constructor
    · intro found
      split at found
      · rename_i v element
        exact ⟨b, v, rfl, element, found⟩
      · cases found
    · rintro ⟨_, v, same, element, found⟩
      cases same
      rwa [element]
  | _ => exact ⟨nofun, fun ⟨_, _, same, _⟩ => nomatch same⟩

/-- The last of the positions is one in the list that the others lead to. -/
theorem place_eq_ok_iff {i : Int64} {is : List Int64} {a : ListId} {n : Nat} :
    target.place ls i is = .ok (a, n) ↔ ∃ path last, i :: is = path ++ [last] ∧
      target.at ls (path.map .int) = .ok (.list a) ∧ ls.InRange a last ∧ n = last.toInt.toNat := by
  induction is generalizing target i with
  | nil =>
    rw [place_nil_eq_ok_iff]
    constructor
    · rintro ⟨rfl, inside, same⟩
      exact ⟨[], i, rfl, rfl, inside, same⟩
    · rintro ⟨path, last, split, found, inside, same⟩
      obtain ⟨rfl, rfl⟩ : path = [] ∧ last = i := by
        simpa [List.singleton_eq_append_iff] using split
      cases found
      exact ⟨rfl, inside, same⟩
  | cons j is ih =>
    rw [place_cons_eq_ok_iff]
    constructor
    · rintro ⟨b, v, rfl, element, found⟩
      obtain ⟨path, last, split, rest, inside, same⟩ := ih.mp found
      exact ⟨i :: path, last, congrArg (i :: ·) split, at_cons_eq_ok_iff.mpr ⟨v, element, rest⟩,
        inside, same⟩
    · rintro ⟨path, last, split, found, inside, same⟩
      cases path with
      | nil => cases split
      | cons p path =>
        obtain ⟨rfl, tail⟩ := List.cons.inj split
        obtain ⟨v, first, rest⟩ := at_cons_eq_ok_iff.mp found
        obtain ⟨b, rfl⟩ := list_of_at found
        exact ⟨b, v, rfl, first, ih.mpr ⟨path, last, tail, rest, inside, same⟩⟩

theorem place?_eq_none_iff {indices : List Value} :
    target.place? ls indices = .ok none ↔ indices = [] := by
  constructor
  · intro found
    unfold place? at found
    split at found
    · cases found
    · rename_i integers
      exact eq_map_of_mapM_position integers
    · rename_i i is _
      cases placed : target.place ls i is with
      | error e =>
        rw [placed] at found
        cases found
      | ok p =>
        rw [placed] at found
        cases found
  · rintro rfl
    rfl

theorem place?_eq_some_iff {indices : List Value} {a : ListId} {n : Nat} :
    target.place? ls indices = .ok (some (a, n)) ↔ ∃ path i, indices = path ++ [.int i] ∧
      target.at ls path = .ok (.list a) ∧ ls.InRange a i ∧ n = i.toInt.toNat := by
  constructor
  · intro found
    unfold place? at found
    split at found
    · cases found
    · cases found
    · rename_i i is integers
      cases placed : target.place ls i is with
      | error e =>
        rw [placed] at found
        cases found
      | ok p =>
        rw [placed] at found
        cases found
        obtain ⟨path, last, split, rest, inside, same⟩ := place_eq_ok_iff.mp placed
        refine ⟨path.map .int, last, ?_, rest, inside, same⟩
        rw [eq_map_of_mapM_position integers, split, List.map_append]
        rfl
  · rintro ⟨path, last, rfl, found, inside, rfl⟩
    obtain ⟨path, rfl⟩ := positions_of_at found
    obtain ⟨i, is, split⟩ : ∃ i is, i :: is = path ++ [last] := by
      cases path with
      | nil => exact ⟨_, _, rfl⟩
      | cons p path => exact ⟨_, _, rfl⟩
    have placed := place_eq_ok_iff.mpr ⟨path, last, split, found, inside, rfl⟩
    have integers : (path.map int ++ [int last]).mapM position = .ok (i :: is) := by
      have mapped := mapM_position_map (i :: is)
      rw [split, List.map_append] at mapped
      rw [split]
      exact mapped
    rw [place?, integers]
    exact congrArg (Except.map some) placed

end Value

end Scriptlet
