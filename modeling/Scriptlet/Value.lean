import Scriptlet.Error
import Scriptlet.Sequence

namespace Scriptlet

/-- The identity of a list: its place in the table of lists. -/
structure ListId where
  index : Nat
  deriving DecidableEq, Repr

instance : Ord ListId := ⟨compareOn ListId.index⟩

instance : Std.TransOrd ListId := inferInstanceAs (Std.TransCmp (compareOn ListId.index))

instance : Std.LawfulEqOrd ListId where
  eq_of_compare {a b} h := by
    cases a
    cases b
    exact congrArg ListId.mk (Nat.compare_eq_eq.1 h)

inductive Value where
  | bool (b : Bool)
  | int (n : Int64)
  | real (x : Float)
  | str (s : String)
  | list (id : ListId)
  | tuple (items : List Value)

instance : Inhabited Value := ⟨.bool false⟩

def Value.kind : Value → Kind
  | bool _ => .boolean
  | int _ => .integer
  | real _ => .real
  | str _ => .string
  | list _ => .list
  | tuple _ => .tuple

def Literal.value : Literal → Value
  | bool b => .bool b
  | int n => .int n
  | real x => .real x
  | str s => .str s

structure Lists where
  contents : Array (Sequence Value)
  deriving Inhabited

namespace Lists

def empty : Lists := ⟨#[]⟩

def size (ls : Lists) : Nat := ls.contents.size

/-- The elements of a list; an identity outside the table stands for an empty list. -/
def get (ls : Lists) (id : ListId) : Sequence Value := ls.contents[id.index]?.getD .empty

def add (ls : Lists) (items : Sequence Value) : ListId × Lists :=
  (⟨ls.size⟩, ⟨ls.contents.push items⟩)

def set (ls : Lists) (id : ListId) (i : Nat) (v : Value) : Lists :=
  ⟨ls.contents.modify id.index (·.set i v)⟩

theorem toList_get_eq_nil (ls : Lists) (id : ListId) (h : ls.size ≤ id.index) :
    (ls.get id).toList = [] := by
  simp only [get, Array.getElem?_eq_none_iff.2 h, Option.getD_none, Sequence.toList_empty]

theorem lt_size_of_mem (ls : Lists) (id : ListId) (v : Value) (mem : v ∈ (ls.get id).toList) :
    id.index < ls.size :=
  Nat.lt_of_not_le fun h => List.ne_nil_of_mem mem (ls.toList_get_eq_nil id h)

def ids (ls : Lists) : List ListId := (List.range ls.size).map ListId.mk

theorem mem_ids (ls : Lists) (id : ListId) : id ∈ ls.ids ↔ id.index < ls.size := by
  constructor
  · rintro h
    obtain ⟨i, hi, rfl⟩ := List.mem_map.1 h
    exact List.mem_range.1 hi
  · exact fun h => List.mem_map.2 ⟨id.index, List.mem_range.2 h, rfl⟩

end Lists

end Scriptlet
