import Scriptlet.Value
import Scriptlet.Value.Visited

namespace Scriptlet

inductive Piece where
  | text (s : String)
  | value (around : Std.TreeSet ListId) (v : Value)

namespace Piece

def separated (around : Std.TreeSet ListId) (vs : List Value) : List Piece :=
  (vs.map (value around)).intersperse (text ", ")

def unfold (ls : Lists) (around : Std.TreeSet ListId) : Value → String × List Piece
  | .bool b => (if b then "True" else "False", [])
  | .int n => (toString n.toInt, [])
  | .real x => (Decimal.printed.text x, [])
  | .str s => (Text.literal s, [])
  | .list a =>
    if around.contains a then ("[...]", [])
    else ("[", separated (around.insert a) (ls.get a).toList ++ [text "]"])
  | .tuple vs => ("(", separated around vs ++ [text (if vs.length = 1 then ",)" else ")")])

theorem mem_separated {around : Std.TreeSet ListId} {vs : List Value} {p : Piece}
    (mem : p ∈ separated around vs) : p = text ", " ∨ ∃ v ∈ vs, p = value around v := by
  induction vs with
  | nil => cases mem
  | cons v vs ih =>
    cases vs with
    | nil => exact .inr ⟨v, List.mem_cons_self, List.mem_singleton.1 mem⟩
    | cons w ws =>
      rcases List.mem_cons.1 mem with here | mem
      · exact .inr ⟨v, List.mem_cons_self, here⟩
      · rcases List.mem_cons.1 mem with here | mem
        · exact .inl here
        · rcases ih mem with sep | ⟨u, hu, rfl⟩
          · exact .inl sep
          · exact .inr ⟨u, List.mem_cons_of_mem _ hu, rfl⟩

noncomputable def extent (ls : Lists) : Piece → Nat × Nat
  | text _ => (0, 0)
  | value around v => (unseen ls.ids around, sizeOf v + 1)

abbrev Smaller : Nat × Nat → Nat × Nat → Prop := Prod.Lex (· < ·) (· < ·)

theorem text_smaller (ls : Lists) (around : Std.TreeSet ListId) (s : String) (v : Value) :
    Smaller ((text s).extent ls) ((value around v).extent ls) := by
  rcases Nat.eq_zero_or_pos (unseen ls.ids around) with zero | pos
  · rw [extent, extent, zero]
    exact Prod.Lex.right _ (Nat.succ_pos _)
  · exact Prod.Lex.left _ _ pos

theorem smaller_of_mem_unfold {ls : Lists} {around : Std.TreeSet ListId} {v : Value} {p : Piece}
    (mem : p ∈ (unfold ls around v).2) :
    Smaller (p.extent ls) ((value around v).extent ls) := by
  cases v with
  | list a =>
    simp only [unfold] at mem
    split at mem
    · cases mem
    · next new =>
      rcases List.mem_append.1 mem with mem | mem
      · rcases mem_separated mem with rfl | ⟨u, hu, rfl⟩
        · exact text_smaller ..
        · refine Prod.Lex.left _ _ (unseen_insert_lt _ _ _ ?_ (Bool.eq_false_iff.2 new))
          exact (ls.mem_ids a).2 (ls.lt_size_of_mem a u hu)
      · rw [List.mem_singleton.1 mem]
        exact text_smaller ..
  | tuple vs =>
    rcases List.mem_append.1 mem with mem | mem
    · rcases mem_separated mem with rfl | ⟨u, hu, rfl⟩
      · exact text_smaller ..
      · have := List.sizeOf_lt_of_mem hu
        exact Prod.Lex.right _ (by simp only [Value.tuple.sizeOf_spec]; omega)
    · rw [List.mem_singleton.1 mem]
      exact text_smaller ..
  | _ => cases mem

def parts (ls : Lists) : Piece → List String
  | text s => [s]
  | value around v =>
    (unfold ls around v).1 :: (unfold ls around v).2.attach.flatMap fun ⟨p, _⟩ => parts ls p
termination_by p => p.extent ls
decreasing_by exact smaller_of_mem_unfold ‹_›

theorem parts_text (ls : Lists) (s : String) : (text s).parts ls = [s] := by
  rw [parts]

theorem parts_value (ls : Lists) (around : Std.TreeSet ListId) (v : Value) :
    (value around v).parts ls =
      (unfold ls around v).1 :: (unfold ls around v).2.flatMap (parts ls) := by
  rw [parts, List.flatMap_subtype (g := parts ls) fun _ _ => rfl, List.unattach_attach]

/--
Writes pieces one after the other at the end of a text. What is still to be written is kept in a
list, so that values may nest as deeply as they like.
-/
def write (ls : Lists) (out : String) : List Piece → String
  | [] => out
  | text s :: rest => write ls (out ++ s) rest
  | value around v :: rest =>
    let u := unfold ls around v
    write ls (out ++ u.1) (u.2 ++ rest)
termination_by ps => (ps.flatMap (parts ls)).length
decreasing_by
  · simp only [List.flatMap_cons, parts_text, List.length_append, List.length_singleton]
    omega
  · simp only [List.flatMap_cons, List.flatMap_append, parts_value, List.length_append,
      List.length_cons]
    omega

theorem write_eq (ls : Lists) (out : String) (ps : List Piece) :
    write ls out ps = out ++ String.join (ps.flatMap (parts ls)) := by
  fun_induction write ls out ps with
  | case1 out => simp
  | case2 out s rest ih => rw [ih]; simp [parts_text, String.append_assoc]
  | case3 out around v rest u ih =>
    rw [ih]
    simp [parts_value, u, String.append_assoc]

end Piece

namespace Value

def textWithin (ls : Lists) (around : Std.TreeSet ListId) (v : Value) : String :=
  Piece.write ls "" [.value around v]

theorem textWithin_eq (ls : Lists) (around : Std.TreeSet ListId) (v : Value) :
    v.textWithin ls around = String.join ((Piece.value around v).parts ls) := by
  rw [textWithin, Piece.write_eq, List.flatMap_singleton, String.empty_append]

theorem join_separated (ls : Lists) (around : Std.TreeSet ListId) (vs : List Value) :
    String.join ((Piece.separated around vs).flatMap (Piece.parts ls)) =
      ", ".intercalate (vs.map (textWithin ls around)) := by
  induction vs with
  | nil => rfl
  | cons v vs ih =>
    cases vs with
    | nil =>
      rw [List.map_singleton, String.intercalate_singleton, textWithin_eq]
      exact congrArg String.join (List.flatMap_singleton ..)
    | cons w ws =>
      have step : Piece.separated around (v :: w :: ws) =
          .value around v :: .text ", " :: Piece.separated around (w :: ws) := rfl
      simp only [step, List.flatMap_cons, String.join_append, Piece.parts_text,
        List.singleton_append, String.join_cons, ih, ← textWithin_eq, List.map_cons,
        String.intercalate_cons_cons, String.append_assoc]

/-- A list around itself shows as dots, any other as its elements between brackets. -/
theorem textWithin_list (ls : Lists) (around : Std.TreeSet ListId) (a : ListId) :
    (list a).textWithin ls around =
      if around.contains a then "[...]"
      else "[" ++ ", ".intercalate
        ((ls.get a).toList.map (textWithin ls (around.insert a))) ++ "]" := by
  rw [textWithin_eq, Piece.parts_value, Piece.unfold]
  split
  · rfl
  · rw [List.flatMap_append, String.join_cons, String.join_append, join_separated,
      List.flatMap_singleton, Piece.parts_text, String.append_assoc]
    rfl

theorem textWithin_tuple (ls : Lists) (around : Std.TreeSet ListId) (vs : List Value) :
    (tuple vs).textWithin ls around =
      "(" ++ ", ".intercalate (vs.map (textWithin ls around)) ++
        if vs.length = 1 then ",)" else ")" := by
  rw [textWithin_eq, Piece.parts_value, Piece.unfold, List.flatMap_append, String.join_cons,
    String.join_append, join_separated, List.flatMap_singleton, Piece.parts_text,
    String.append_assoc, String.join_cons, String.join_nil, String.append_empty]

def repr (ls : Lists) (v : Value) : String := v.textWithin ls {}

/-- The text of a value on a line of its own: a string is shown as it is. -/
def display (ls : Lists) : Value → String
  | str s => s
  | v => v.repr ls

end Value

end Scriptlet
