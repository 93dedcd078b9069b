import Scriptlet.Proofs.Printing.Unambiguous
import Scriptlet.Proofs.Values.Evaluation

namespace Scriptlet

namespace Value

inductive Writing where
  | value (v : Value)
  | elements (before : Nat) (vs : List Value)

/-- A call, with the lists that are open before it, its text, and the lists that are open then. -/
inductive Writes (ls : Lists) : Finset ListId → Writing → String → Finset ListId → Prop
  | leaf {o : Finset ListId} {v : Value} (l : Literal) : v = l.value →
      Writes ls o (.value v) (.ofList l.text) o
  | again {o : Finset ListId} {a : ListId} : a ∈ o → Writes ls o (.value (.list a)) "[...]" o
  | list {o o' : Finset ListId} {a : ListId} {s : String} : a ∉ o →
      Writes ls (insert a o) (.elements 0 (ls.get a).toList) s o' →
      Writes ls o (.value (.list a)) ("[" ++ s ++ "]") (o'.erase a)
  | tuple {o o' : Finset ListId} {vs : List Value} {s : String} :
      Writes ls o (.elements 0 vs) s o' →
      Writes ls o (.value (.tuple vs)) ("(" ++ s ++ if vs.length = 1 then ",)" else ")") o'
  | nil {o : Finset ListId} {n : Nat} : Writes ls o (.elements n []) "" o
  | cons {o o' o'' : Finset ListId} {n : Nat} {v : Value} {vs : List Value} {s s' : String} :
      Writes ls o (.value v) s o' → Writes ls o' (.elements (n + 1) vs) s' o'' →
      Writes ls o (.elements n (v :: vs)) ((if 0 < n then ", " else "") ++ s ++ s') o''

variable {ls : Lists} {o : Finset ListId}

theorem Writes.unique {w : Writing} {s s' : String} {o₁ o₂ : Finset ListId}
    (h : Writes ls o w s o₁) (h' : Writes ls o w s' o₂) : s' = s ∧ o₂ = o₁ := by
  induction h generalizing s' o₂ with
  | leaf l eq =>
    cases h' with
    | leaf l' eq' =>
      rw [Literal.value_injective (eq.symm.trans eq')]
      exact ⟨rfl, rfl⟩
    | again _ => exact absurd eq.symm (l.value_ne_list _)
    | list _ _ => exact absurd eq.symm (l.value_ne_list _)
    | tuple _ => exact absurd eq.symm (l.value_ne_tuple _)
  | again seen =>
    cases h' with
    | leaf l eq => exact absurd eq.symm (l.value_ne_list _)
    | again _ => exact ⟨rfl, rfl⟩
    | list new _ => exact absurd seen new
  | list new _ ih =>
    cases h' with
    | leaf l eq => exact absurd eq.symm (l.value_ne_list _)
    | again seen => exact absurd seen new
    | list _ run =>
      obtain ⟨rfl, rfl⟩ := ih run
      exact ⟨rfl, rfl⟩
  | tuple _ ih =>
    cases h' with
    | leaf l eq => exact absurd eq.symm (l.value_ne_tuple _)
    | tuple run =>
      obtain ⟨rfl, rfl⟩ := ih run
      exact ⟨rfl, rfl⟩
  | nil =>
    cases h'
    exact ⟨rfl, rfl⟩
  | cons _ _ ih ihRest =>
    cases h' with
    | cons run rest =>
      obtain ⟨rfl, rfl⟩ := ih run
      obtain ⟨rfl, rfl⟩ := ihRest rest
      exact ⟨rfl, rfl⟩

def WritesEach (ls : Lists) (o : Finset ListId) (vs : List Value) (ss : List String) : Prop :=
  List.Forall₂ (fun v s => Writes ls o (.value v) s o) vs ss

variable {vs : List Value} {ss : List String}

theorem writes_more (each : WritesEach ls o vs ss) {n : Nat} (pos : 0 < n) :
    Writes ls o (.elements n vs) (String.join (ss.map fun s => ", " ++ s)) o := by
  induction each generalizing n with
  | nil => exact .nil
  | cons first _ ih =>
    have whole := first.cons (ih (Nat.succ_pos n))
    rwa [if_pos pos, ← String.join_cons] at whole

theorem intercalate_cons (s : String) (ss : List String) :
    ", ".intercalate (s :: ss) = s ++ String.join (ss.map fun s => ", " ++ s) := by
  induction ss generalizing s with
  | nil => rw [String.intercalate_singleton, List.map_nil, String.join_nil, String.append_empty]
  | cons t ss ih =>
    rw [String.intercalate_cons_cons, ih, List.map_cons, String.join_cons]
    simp only [String.append_assoc]

theorem writes_elements (each : WritesEach ls o vs ss) :
    Writes ls o (.elements 0 vs) (", ".intercalate ss) o := by
  cases each with
  | nil => exact .nil
  | cons first rest =>
    have whole := first.cons (writes_more rest Nat.one_pos)
    rw [if_neg (Nat.lt_irrefl 0), String.empty_append] at whole
    rwa [intercalate_cons]

theorem writesEach_map {text : Value → String}
    (each : ∀ v ∈ vs, Writes ls o (.value v) (text v) o) : WritesEach ls o vs (vs.map text) := by
  rw [WritesEach, List.forall₂_map_right_iff, List.forall₂_same]
  exact each

theorem writes_textWithin (ls : Lists) (o : Finset ListId) (around : Std.TreeSet ListId)
    (same : ∀ a, a ∈ around ↔ a ∈ o) (v : Value) :
    Writes ls o (.value v) (v.textWithin ls around) o := by
  have literal (l : Literal) (eq : v = l.value) :
      Writes ls o (.value v) (v.textWithin ls around) o := by
    have written : Writes ls o (.value v) (.ofList l.text) o := .leaf l eq
    rwa [← textWithin_literal ls around l, String.ofList_toList, ← eq] at written
  match v with
  | .bool b => exact literal (.bool b) rfl
  | .int n => exact literal (.int n) rfl
  | .real x => exact literal (.real x) rfl
  | .str s => exact literal (.str s) rfl
  | .list a =>
    rw [textWithin_list]
    by_cases seen : a ∈ o
    · rw [if_pos (Std.TreeSet.mem_iff_contains.mp ((same a).mpr seen))]
      exact .again seen
    · have new : around.contains a = false := by
        rw [Bool.eq_false_iff]
        exact fun found => seen ((same a).mp (Std.TreeSet.mem_iff_contains.mpr found))
      have inner : ∀ b, b ∈ around.insert a ↔ b ∈ insert a o := by
        intro b
        rw [Std.TreeSet.mem_insert, Finset.mem_insert, same b,
          Std.LawfulEqOrd.compare_eq_iff_eq, eq_comm]
      have each : ∀ u ∈ (ls.get a).toList, Writes ls (insert a o) (.value u)
          (u.textWithin ls (around.insert a)) (insert a o) := fun u member =>
        writes_textWithin ls (insert a o) (around.insert a) inner u
      have written := Writes.list seen (writes_elements (writesEach_map each))
      rw [Finset.erase_insert seen] at written
      rwa [new, if_neg Bool.false_ne_true]
  | .tuple vs =>
    rw [textWithin_tuple]
    have each : ∀ u ∈ vs, Writes ls o (.value u) (u.textWithin ls around) o := fun u member =>
      writes_textWithin ls o around same u
    exact .tuple (writes_elements (writesEach_map each))
termination_by (unseen ls.ids around, sizeOf v)
decreasing_by
  -- Lists go down because one more is open, tuples because their elements are smaller.
  · have listed := (ls.mem_ids a).mpr (ls.lt_size_of_mem a u member)
    exact Prod.Lex.left _ _ (unseen_insert_lt _ _ _ listed new)
  · have smaller := List.sizeOf_lt_of_mem member
    apply Prod.Lex.right
    simp only [tuple.sizeOf_spec]
    omega

theorem exists_around (o : Finset ListId) :
    ∃ around : Std.TreeSet ListId, ∀ a, a ∈ around ↔ a ∈ o := by
  refine ⟨.ofList o.toList, fun a => ?_⟩
  rw [Std.TreeSet.mem_ofList, List.contains_iff_mem, Finset.mem_toList]

theorem exists_writes (ls : Lists) (o : Finset ListId) (w : Writing) : ∃ s, Writes ls o w s o := by
  obtain ⟨around, same⟩ := exists_around o
  have each (vs : List Value) : WritesEach ls o vs (vs.map (textWithin ls around)) :=
    writesEach_map fun v _ => writes_textWithin ls o around same v
  cases w with
  | value v => exact ⟨_, writes_textWithin ls o around same v⟩
  | elements n vs =>
    by_cases first : n = 0
    · subst first
      exact ⟨_, writes_elements (each vs)⟩
    · exact ⟨_, writes_more (each vs) (Nat.pos_of_ne_zero first)⟩

theorem Writes.append {n : Nat} {us vs : List Value} {s s' : String} {o' o'' : Finset ListId}
    (first : Writes ls o (.elements n us) s o')
    (rest : Writes ls o' (.elements (n + us.length) vs) s' o'') :
    Writes ls o (.elements n (us ++ vs)) (s ++ s') o'' := by
  induction us generalizing n o s with
  | nil =>
    cases first
    rwa [String.empty_append]
  | cons u us ih =>
    cases first with
    | cons head tail =>
      rw [List.length_cons, Nat.add_comm us.length, ← Nat.add_assoc] at rest
      have whole := head.cons (ih tail rest)
      rwa [← String.append_assoc] at whole

def listId? : Value → Option ListId
  | list a => some a
  | _ => none

theorem listId?_eq_some_iff {v : Value} {a : ListId} : v.listId? = some a ↔ v = list a := by
  cases v <;> simp [listId?]

def opened (vs : List Value) : Finset ListId := (vs.filterMap listId?).toFinset

theorem mem_opened {a : ListId} : a ∈ opened vs ↔ list a ∈ vs := by
  simp [opened, listId?_eq_some_iff]

theorem opened_list (a : ListId) (vs : List Value) :
    opened (list a :: vs) = insert a (opened vs) := by
  ext b
  simp [mem_opened]

theorem opened_tuple (us vs : List Value) : opened (tuple us :: vs) = opened vs := by
  ext b
  simp [mem_opened]

def opening : Value → String
  | list _ => "["
  | tuple _ => "("
  | _ => ""

def closing : Value → String
  | list _ => "]"
  | tuple vs => if vs.length = 1 then ",)" else ")"
  | _ => ""

/-- Where a value is written within another: the containers around it, the innermost first, and the
text before and after it. -/
inductive Occurs (ls : Lists) (v : Value) : List Value → String → Value → String → Prop
  | here : Occurs ls v [] "" v ""
  | inside {around us ws : List Value} {before after s s' : String} {c u : Value} :
      Occurs ls v around before c after → (∀ a, c = .list a → .list a ∉ around) →
      c.elements ls = us ++ u :: ws →
      Writes ls (opened (c :: around)) (.elements 0 us) s (opened (c :: around)) →
      Writes ls (opened (c :: around)) (.elements (us.length + 1) ws) s' (opened (c :: around)) →
      Occurs ls v (c :: around) (before ++ c.opening ++ s ++ if 0 < us.length then ", " else "") u
        (s' ++ c.closing ++ after)

theorem writes_repr (ls : Lists) (v : Value) : Writes ls ∅ (.value v) (v.repr ls) ∅ := by
  apply writes_textWithin
  intro a
  exact iff_of_false Std.TreeSet.not_mem_emptyc (Finset.notMem_empty a)

theorem writes_container {around us ws : List Value} {c u : Value} {s : String}
    (new : ∀ a, c = .list a → .list a ∉ around) (elements : c.elements ls = us ++ u :: ws)
    (inner : Writes ls (opened (c :: around)) (.elements 0 (us ++ u :: ws)) s
      (opened (c :: around))) :
    Writes ls (opened around) (.value c) (c.opening ++ s ++ c.closing) (opened around) := by
  cases c with
  | list a =>
    have other : a ∉ opened around := mem_opened.not.mpr (new a rfl)
    rw [← elements, opened_list] at inner
    have written := Writes.list other inner
    rwa [Finset.erase_insert other] at written
  | tuple vs =>
    rw [← elements, opened_tuple] at inner
    exact .tuple inner
  | _ => exact absurd elements.symm (List.append_ne_nil_of_right_ne_nil us (List.cons_ne_nil u ws))

theorem Occurs.repr_eq {v u : Value} {around : List Value} {before after : String}
    (occurs : Occurs ls v around before u after) :
    ∃ s, Writes ls (opened around) (.value u) s (opened around) ∧
      v.repr ls = before ++ s ++ after := by
  induction occurs with
  | here => exact ⟨v.repr ls, writes_repr ls v, by rw [String.empty_append, String.append_empty]⟩
  | @inside around us ws before after s s' c u _ new elements first rest ih =>
    obtain ⟨whole, written, eq⟩ := ih
    obtain ⟨t, middle⟩ := exists_writes ls (opened (c :: around)) (.value u)
    refine ⟨t, middle, ?_⟩
    rw [← Nat.zero_add us.length] at rest
    have again := writes_container new elements (first.append (middle.cons rest))
    rw [eq, (again.unique written).1]
    simp only [String.append_assoc, Nat.zero_add]

theorem Writes.exists_head {v : Value} {s : String} {o' : Finset ListId}
    (written : Writes ls o (.value v) s o') : ∃ c, s.toList.head? = some c ∧ c ≠ '.' := by
  cases written with
  | leaf l eq =>
    obtain ⟨c, head, -, other⟩ := l.exists_head
    exact ⟨c, by rw [String.toList_ofList, head], fun same => other (same ▸ List.mem_cons_self)⟩
  | again _ => exact ⟨'[', rfl, by decide⟩
  | list _ _ => exact ⟨'[', by simp, by decide⟩
  | tuple _ => exact ⟨'(', by simp, by decide⟩

theorem WritesEach.intercalate_ne_dots (each : WritesEach ls o vs ss) :
    ", ".intercalate ss ≠ "..." := by
  intro same
  have dots := congrArg (fun s => s.toList.head?) same
  cases each with
  | nil => simp at dots
  | cons first rest =>
    obtain ⟨c, head, other⟩ := first.exists_head
    rw [intercalate_cons] at dots
    simp only [String.toList_append, head?_append_of_some head] at dots
    exact other (Option.some.inj dots)

theorem exists_writesEach (ls : Lists) (o : Finset ListId) (vs : List Value) :
    ∃ ss, WritesEach ls o vs ss := exists_forall₂ fun v _ => exists_writes ls o (.value v)

theorem Writes.eq_of_notMem {a : ListId} {s : String} {o' : Finset ListId} (new : a ∉ o)
    (written : Writes ls o (.value (.list a)) s o') :
    ∃ ss, WritesEach ls (insert a o) (ls.get a).toList ss ∧
      s = "[" ++ ", ".intercalate ss ++ "]" := by
  obtain ⟨ss, each⟩ := exists_writesEach ls (insert a o) (ls.get a).toList
  exact ⟨ss, each, ((Writes.list new (writes_elements each)).unique written).1⟩

theorem Writes.eq_dots_iff {a : ListId} {s : String} {o' : Finset ListId}
    (written : Writes ls o (.value (.list a)) s o') : s = "[...]" ↔ a ∈ o := by
  by_cases seen : a ∈ o
  · exact iff_of_true ((Writes.again seen).unique written).1 seen
  · refine iff_of_false ?_ seen
    obtain ⟨ss, each, rfl⟩ := written.eq_of_notMem seen
    intro same
    apply each.intercalate_ne_dots
    have inner : "[" ++ ", ".intercalate ss ++ "]" = "[" ++ "..." ++ "]" := same
    exact (String.append_right_inj _).mp ((String.append_left_inj _).mp inner)

theorem Occurs.exists_inside {v c u : Value} {around us ws : List Value} {before after : String}
    (occurs : Occurs ls v around before c after) (new : ∀ a, c = .list a → .list a ∉ around)
    (elements : c.elements ls = us ++ u :: ws) :
    ∃ before' after', Occurs ls v (c :: around) before' u after' := by
  obtain ⟨s, first⟩ := exists_writes ls (opened (c :: around)) (.elements 0 us)
  obtain ⟨s', rest⟩ := exists_writes ls (opened (c :: around)) (.elements (us.length + 1) ws)
  exact ⟨_, _, .inside occurs new elements first rest⟩

theorem display_of_ne_str {v : Value} (other : ∀ s, v ≠ .str s) : v.display ls = v.repr ls := by
  cases v with
  | str s => exact absurd rfl (other s)
  | _ => rfl

end Value

/--
Whatever lists are open, the writer comes to one end, with one text, and the same lists are open
then. With none it writes the text of a value. In its place within that text, a list is dots if it
is one of the containers around it, and its elements between brackets if not, these with the list
itself around them as well. Where no list is inside itself, it does not matter which are shared.
-/
theorem written_with_open_lists (ls : Lists) (v : Value) :
    (∀ o w, ∃ s, ∀ s' o', Value.Writes ls o w s' o' ↔ s' = s ∧ o' = o) ∧
    Value.Writes ls ∅ (.value v) (v.repr ls) ∅ ∧
    ((∀ s, v ≠ .str s) → v.display ls = v.repr ls) ∧
    (∀ around before c after, v.Occurs ls around before c after →
      (∀ a, c = .list a → .list a ∉ around) → ∀ us u ws, c.elements ls = us ++ u :: ws →
      ∃ before' after', v.Occurs ls (c :: around) before' u after') ∧
    (∀ around before u after, v.Occurs ls around before u after →
      let o := Value.opened around
      ∃ s, Value.Writes ls o (.value u) s o ∧ v.repr ls = before ++ s ++ after ∧
        ∀ a, u = .list a → (s = "[...]" ↔ .list a ∈ around) ∧
          (.list a ∉ around → ∃ ss, Value.WritesEach ls (insert a o) (ls.get a).toList ss ∧
            s = "[" ++ ", ".intercalate ss ++ "]")) ∧
    (v.Acyclic ls → ∃ t, v.Unfolds ls t ∧ ∀ ls' w, Value.Unfolds ls' w t →
      v.repr ls = w.repr ls' ∧ v.display ls = w.display ls') := by
  refine ⟨?once, Value.writes_repr ls v, Value.display_of_ne_str, ?elements, ?places, ?trees⟩
  case once =>
    intro o w
    obtain ⟨s, written⟩ := Value.exists_writes ls o w
    refine ⟨s, fun s' o' => ⟨written.unique, ?_⟩⟩
    rintro ⟨rfl, rfl⟩
    exact written
  case elements => exact fun _ _ _ _ occurs new _ _ _ elements => occurs.exists_inside new elements
  case places =>
    intro around before u after occurs o
    obtain ⟨s, written, eq⟩ := occurs.repr_eq
    refine ⟨s, written, eq, ?_⟩
    rintro a rfl
    constructor
    · rw [written.eq_dots_iff]
      exact Value.mem_opened
    · exact fun new => written.eq_of_notMem (Value.mem_opened.not.mpr new)
  case trees =>
    intro acyclic
    obtain ⟨t, unfolds⟩ := Value.acyclic_iff.mp acyclic
    refine ⟨t, unfolds, fun ls' w again => ⟨?_, unfolds.display_eq again⟩⟩
    exact String.toList_injective (unfolds.repr_eq.trans again.repr_eq.symm)

example : (Value.list ⟨1⟩).repr
    ⟨#[.ofList [.int 1], .ofList [.list ⟨0⟩, .list ⟨0⟩, .list ⟨1⟩]]⟩ = "[[1], [1], [...]]" := by cbv

namespace Value

/-- `x = [y, y, x]` with `y = [1]`. -/
def twice : Lists := ⟨#[.ofList [.int 1], .ofList [.list ⟨0⟩, .list ⟨0⟩, .list ⟨1⟩]]⟩

theorem written_with_open_lists_twice :
    (∃ before s after, (list ⟨1⟩).repr twice = before ++ s ++ after ∧ s ≠ "[...]" ∧
      ∃ ss, WritesEach twice (insert ⟨0⟩ (opened [list ⟨1⟩])) [.int 1] ss ∧
        s = "[" ++ ", ".intercalate ss ++ "]") ∧
    (∃ before after, (list ⟨1⟩).repr twice = before ++ "[...]" ++ after) ∧
    (list ⟨0⟩).display twice = (list ⟨0⟩).display ⟨#[.ofList [.int 1]]⟩ := by
  obtain ⟨-, -, -, elements, places, -⟩ := written_with_open_lists twice (list ⟨1⟩)
  obtain ⟨-, -, -, -, -, trees⟩ := written_with_open_lists twice (list ⟨0⟩)
  have new : ∀ a, list ⟨1⟩ = .list a → .list a ∉ ([] : List Value) := fun _ _ => List.not_mem_nil
  have row (ls : Lists) (listed : 0 < ls.size) (one : (ls.get ⟨0⟩).toList = [.int 1]) :
      (list ⟨0⟩).Unfolds ls (.list [.leaf (.int 1)]) :=
    unfolds_list_iff.mpr ⟨listed, _, rfl, one ▸ .cons (.leaf _ rfl) .nil⟩
  have inner := row twice (by decide) rfl
  refine ⟨?second, ?third, ?tree⟩
  case second =>
    obtain ⟨before, after, second⟩ :=
      elements [] _ _ _ .here new [.list ⟨0⟩] (.list ⟨0⟩) [.list ⟨1⟩] rfl
    obtain ⟨s, -, eq, dots⟩ := places _ before _ after second
    have apart : list ⟨0⟩ ∉ [list ⟨1⟩] := by simp
    obtain ⟨only, full⟩ := dots ⟨0⟩ rfl
    exact ⟨before, s, after, eq, only.not.mpr apart, full apart⟩
  case third =>
    obtain ⟨before, after, third⟩ :=
      elements [] _ _ _ .here new [.list ⟨0⟩, .list ⟨0⟩] (.list ⟨1⟩) [] rfl
    obtain ⟨s, -, eq, dots⟩ := places _ before _ after third
    exact ⟨before, after, (dots ⟨1⟩ rfl).1.mpr List.mem_cons_self ▸ eq⟩
  case tree =>
    obtain ⟨t, unfolds, alike⟩ := trees (acyclic_iff.mpr ⟨_, inner⟩)
    rw [unfolds.unique inner] at alike
    exact (alike _ _ (row ⟨#[.ofList [.int 1]]⟩ (by decide) rfl)).2

end Value

end Scriptlet
