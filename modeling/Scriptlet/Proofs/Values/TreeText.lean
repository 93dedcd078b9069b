import Scriptlet.Proofs.Values.Unfolding
import Scriptlet.Value.Text

namespace Scriptlet

def Literal.text : Literal → List Char
  | bool b => (if b then "True" else "False").toList
  | int n => (toString n.toInt).toList
  | real x => (Decimal.printed.text x).toList
  | str s => (Text.literal s).toList

namespace Tree

mutual

def text : Tree → List Char
  | leaf l => l.text
  | list ts => '[' :: [',', ' '].intercalate (textsOf ts) ++ [']']
  | tuple ts =>
    '(' :: [',', ' '].intercalate (textsOf ts) ++ if ts.length = 1 then [',', ')'] else [')']

def textsOf : List Tree → List (List Char)
  | [] => []
  | t :: ts => t.text :: textsOf ts

end

@[simp] theorem textsOf_eq (ts : List Tree) : textsOf ts = ts.map text := by
  induction ts with
  | nil => rfl
  | cons t ts ih => rw [textsOf, ih, List.map_cons]

end Tree

namespace Value

variable {ls : Lists} {v : Value} {t : Tree}

theorem textWithin_literal (ls : Lists) (around : Std.TreeSet ListId) (l : Literal) :
    (l.value.textWithin ls around).toList = l.text := by
  rw [textWithin_eq, Piece.parts_value]
  have alone (s : String) : (String.join (s :: [].flatMap (Piece.parts ls))).toList = s.toList := by
    rw [List.flatMap_nil, String.join_cons, String.join_nil, String.append_empty]
  cases l <;> exact alone _

/-- No list around the value unfolds to a tree that would fit inside that of the value. -/
def Outside (ls : Lists) (around : Std.TreeSet ListId) (t : Tree) : Prop :=
  ∀ a ∈ around, ∀ u, Unfolds ls (.list a) u → t.size < u.size

theorem texts_eq {around : Std.TreeSet ListId} {vs : List Value} {ts : List Tree}
    (same : List.Forall₂ (fun v t => (v.textWithin ls around).toList = t.text) vs ts) :
    (", ".intercalate (vs.map (textWithin ls around))).toList =
      [',', ' '].intercalate (ts.map Tree.text) := by
  rw [String.toList_intercalate]
  have texts : (vs.map (textWithin ls around)).map String.toList = ts.map Tree.text := by
    induction same with
    | nil => rfl
    | cons first _ ih => simp [first, ih]
  rw [texts]
  rfl

theorem Unfolds.textWithin_eq (unfolds : v.Unfolds ls t) :
    ∀ around, Outside ls around t → (v.textWithin ls around).toList = t.text := by
  refine unfolds.induct (motive := fun v t => ∀ around, Outside ls around t →
    (v.textWithin ls around).toList = t.text) ?_ ?_ ?_
  · intro l around _
    exact textWithin_literal ls around l
  · intro a ts listed all ih around outside
    have whole : Unfolds ls (.list a) (.list ts) := unfolds_list_iff.mpr ⟨listed, ts, rfl, all⟩
    -- Around itself, the list would unfold to a tree larger than its own.
    have new : around.contains a = false := by
      rw [Bool.eq_false_iff]
      exact fun seen => lt_irrefl _ (outside a seen _ whole)
    have inner : ∀ t ∈ ts, Outside ls (around.insert a) t := by
      intro t member b seen u unfolds
      have smaller := Tree.size_lt_of_mem (t := .list ts) member
      rcases Std.TreeSet.mem_insert.mp seen with same | before
      · cases Std.LawfulEqOrd.eq_of_compare same
        rwa [whole.unique unfolds] at smaller
      · exact smaller.trans (outside b before u unfolds)
    have texts : List.Forall₂ (fun v t => (v.textWithin ls (around.insert a)).toList = t.text)
        (ls.get a).toList ts :=
      forall₂_imp_mem ih fun _ _ t member same => same _ (inner t member)
    rw [textWithin_list, new]
    simp only [Bool.false_eq_true, if_false, String.toList_append, texts_eq texts, Tree.text,
      Tree.textsOf_eq]
    rfl
  · intro vs ts all ih around outside
    have inner : ∀ t ∈ ts, Outside ls around t := fun t member b seen u unfolds =>
      (Tree.size_lt_of_mem (t := .tuple ts) member).trans (outside b seen u unfolds)
    have texts : List.Forall₂ (fun v t => (v.textWithin ls around).toList = t.text) vs ts :=
      forall₂_imp_mem ih fun _ _ t member same => same _ (inner t member)
    rw [textWithin_tuple, all.length_eq]
    simp only [String.toList_append, texts_eq texts, Tree.text, Tree.textsOf_eq]
    split <;> rfl

theorem Unfolds.repr_eq (unfolds : v.Unfolds ls t) : (v.repr ls).toList = t.text :=
  unfolds.textWithin_eq {} fun _ seen => absurd seen Std.TreeSet.not_mem_emptyc

end Value

end Scriptlet
