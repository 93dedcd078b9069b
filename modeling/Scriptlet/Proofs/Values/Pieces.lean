import Scriptlet.Proofs.Values.TreeText

namespace Scriptlet

namespace Piece

def Has (ls : Lists) : Piece → Piece → Prop
  | text _, _ => False
  | value around v, p => p ∈ (unfold ls around v).2

def Covers (ls : Lists) : Piece → Piece → Prop := Relation.ReflTransGen (Has ls)

variable {ls : Lists} {around around' : Std.TreeSet ListId} {v u : Value}

theorem mem_of_value_mem_separated {vs : List Value}
    (mem : value around' u ∈ separated around vs) : u ∈ vs ∧ around' = around := by
  rcases mem_separated mem with other | ⟨w, listed, same⟩
  · cases other
  · cases same
    exact ⟨listed, rfl⟩

theorem Has.holds (has : (value around v).Has ls (value around' u)) :
    v.Holds ls u ∧ ∀ b ∈ around', b ∈ around ∨ v = .list b := by
  cases v with
  | list a =>
    simp only [Has, unfold] at has
    split at has
    · cases has
    · rcases List.mem_append.mp has with mem | mem
      · obtain ⟨listed, rfl⟩ := mem_of_value_mem_separated mem
        refine ⟨listed, fun b seen => ?_⟩
        rcases Std.TreeSet.mem_insert.mp seen with same | before
        · exact .inr (congrArg Value.list (Std.LawfulEqOrd.eq_of_compare same))
        · exact .inl before
      · cases List.mem_singleton.mp mem
  | tuple vs =>
    rcases List.mem_append.mp has with mem | mem
    · obtain ⟨listed, rfl⟩ := mem_of_value_mem_separated mem
      exact ⟨listed, fun b seen => .inl seen⟩
    · cases List.mem_singleton.mp mem
  | _ => cases has

theorem Covers.within {p : Piece} (covers : (value around v).Covers ls p) :
    ∀ {around' u}, p = value around' u → v.Within ls u ∧
      ∀ b ∈ around', b ∈ around ∨
        v.Within ls (.list b) ∧ Relation.TransGen (Value.Holds ls) (.list b) u := by
  induction covers with
  | refl =>
    rintro _ _ ⟨⟩
    exact ⟨.refl, fun b seen => .inl seen⟩
  | @tail q p _ has ih =>
    rintro around' u rfl
    cases q with
    | text s => exact has.elim
    | value between w =>
      obtain ⟨within, outer⟩ := ih rfl
      obtain ⟨holds, inner⟩ := has.holds
      refine ⟨within.tail holds, fun b seen => ?_⟩
      rcases inner b seen with before | rfl
      · exact (outer b before).imp_right fun ⟨whole, path⟩ => ⟨whole, path.tail holds⟩
      · exact .inr ⟨within, .single holds⟩

end Piece

namespace Value

variable {ls : Lists} {v : Value}

/-- Somewhere in the text of the value stands `[...]` for a list. -/
def ShowsDots (ls : Lists) (v : Value) : Prop :=
  ∃ around a, (Piece.value {} v).Covers ls (.value around (.list a)) ∧
    (Piece.unfold ls around (.list a)).1 = "[...]"

theorem dots_iff {around : Std.TreeSet ListId} {a : ListId} :
    (Piece.unfold ls around (.list a)).1 = "[...]" ↔ a ∈ around := by
  rw [Piece.unfold, ← Std.TreeSet.contains_iff_mem]
  split
  · exact iff_of_true rfl ‹_›
  · exact iff_of_false (show "[" ≠ "[...]" by decide) ‹_›

theorem Acyclic.not_showsDots (acyclic : v.Acyclic ls) : ¬ v.ShowsDots ls := by
  rintro ⟨around, a, covers, dots⟩
  rcases (covers.within rfl).2 a (dots_iff.mp dots) with outside | ⟨within, cycle⟩
  · exact Std.TreeSet.not_mem_emptyc outside
  · exact acyclic.irreflexive _ within cycle

end Value

end Scriptlet
