import Scriptlet.Proofs.Printing.OneWay
import Scriptlet.Proofs.Values.TreeEquality

namespace Scriptlet

open Echo

namespace Tree.PrintsBack

theorem element {t u : Tree} (back : t.PrintsBack) (member : u ∈ t.elements) : u.PrintsBack := by
  cases back with
  | leaf => cases member
  | list each => exact each u member
  | tuple _ each => exact each u member

theorem naNFree {t : Tree} (back : t.PrintsBack) : t.NaNFree := by
  induction back with
  | @leaf l back =>
    cases l with
    | real x => exact .leaf back.1
    | _ => exact .leaf True.intro
  | list _ ih => exact .list ih
  | tuple _ _ ih => exact .tuple ih

end Tree.PrintsBack

namespace Value

variable {ls : Lists} {v : Value} {t : Tree}

theorem Unfolds.printsBack_iff (unfolds : v.Unfolds ls t) : t.PrintsBack ↔
    (∀ l : Literal, v.Within ls l.value → l.PrintsBack) ∧ ¬ v.Within ls (.tuple []) := by
  constructor
  · intro back
    have inner {u : Value} (within : v.Within ls u) : ∃ t', u.Unfolds ls t' ∧ t'.PrintsBack :=
      unfolds.of_within (fun _ back _ member => back.element member) back within
    constructor
    · intro l within
      obtain ⟨t', unfolds', back'⟩ := inner within
      rw [unfolds_leaf_iff.mp unfolds'] at back'
      cases back' with
      | leaf back' => exact back'
    · intro within
      obtain ⟨t', unfolds', back'⟩ := inner within
      obtain ⟨ts, rfl, all⟩ := unfolds_tuple_iff.mp unfolds'
      cases back' with
      | tuple ne => exact ne (List.forall₂_nil_left_iff.mp all)
  · rintro ⟨literals, full⟩
    refine unfolds.induct (motive := fun v t =>
      (∀ l : Literal, v.Within ls l.value → l.PrintsBack) → ¬ v.Within ls (.tuple []) →
        t.PrintsBack) ?_ ?_ ?_ literals full
    · exact fun l literals _ => .leaf (literals l .refl)
    · intro a ts _ _ ih literals full
      refine .list fun t member => ?_
      obtain ⟨u, element, back⟩ := forall₂_exists_of_mem ih.flip member
      exact back (fun l within => literals l (.head element within))
        fun within => full (.head element within)
    · intro vs ts all ih literals full
      have ne : ts ≠ [] := by
        rintro rfl
        rw [List.forall₂_nil_right_iff.mp all] at full
        exact full .refl
      refine .tuple ne fun t member => ?_
      obtain ⟨u, element, back⟩ := forall₂_exists_of_mem ih.flip member
      exact back (fun l within => literals l (.head element within))
        fun within => full (.head element within)

/-- The values, each with its own table of lists, are the same tree. -/
def SameTree (ls : Lists) (v : Value) (ls' : Lists) (w : Value) : Prop :=
  ∃ t, v.Unfolds ls t ∧ w.Unfolds ls' t

theorem equal_of_sameTree {w : Value} (unfolds : v.Unfolds ls t) (back : t.PrintsBack) {ls' : Lists}
    (same : w.Unfolds ls' t) (grow : ls.GrowTo ls') : w.equal ls' v :=
  Alike.equal ⟨t, back.naNFree, same, unfolds.grow grow⟩

theorem equal_eq_false_of_strings {a b : ListId} {s s' : String}
    (left : (ls.get a).toList = [.str s]) (right : (ls.get b).toList = [.str s']) (ne : s ≠ s') :
    (list a).equal ls (list b) = false := by
  have other : a ≠ b := by
    rintro rfl
    rw [left] at right
    cases right
    exact ne rfl
  have parts : (list a).compareParts? ls (list b) = some [(.str s, .str s')] := by
    rw [compareParts?, if_neg other, left, right]
    rfl
  have differ : (Value.str s).compareParts? ls (.str s') = none :=
    if_neg (by simpa using ne)
  rw [equal, parts]
  simp only
  rw [allEqual]
  split
  · rename_i met
    cases met
  · split
    · rename_i found
      cases differ.symm.trans found
    · rfl

end Value

section

variable {ls heap : Lists} {limit : Nat}

theorem Tree.PrintsBack.ends {t : Tree} (back : t.PrintsBack) {v : Value} (unfolds : v.Unfolds ls t)
    (limit : Nat) (heap : Lists) : ∃ s w,
      Ends limit heap (echo (v.repr ls)) (.finished s) ∧ s.lookup? "x" = some w ∧
      w.Unfolds s.lists t ∧ heap.GrowTo s.lists ∧
      s.output.bytes = (v.display ls ++ "\n").toUTF8 := by
  obtain ⟨w, s, run, bound, again, grow, output⟩ := (back.yields limit).echo heap
  have read := parse_echo back.proper (unfolds.repr_eq ▸ back.speltAs)
  exact ⟨s, w, .of_parse read run, bound, again, grow, unfolds.display_eq again ▸ output⟩

theorem exists_speltAs_ne {s : String} (lost : ¬ (Literal.str s).PrintsBack)
    (oneKind : ¬ ('\'' ∈ s.toList ∧ '"' ∈ s.toList)) :
    ∃ s', s' ≠ s ∧ SpeltAs (Literal.str s).text (Phrase.literal (.str s')).tokens := by
  have quote := Text.quoteMark_cases s.toList
  have closed := Text.notMem_flatMap_shown quote (Text.quoteMark_notMem oneKind)
  refine ⟨String.ofList (s.toList.flatMap (Text.shown (Text.quoteMark s.toList))), ?_, ?_⟩
  · rintro same
    have shown : s.toList.flatMap (Text.shown (Text.quoteMark s.toList)) = s.toList := by
      rw [← String.toList_ofList (l := s.toList.flatMap _), same]
    refine lost ⟨fun c escaped member => ?_, oneKind⟩
    have special : c ∈ Text.special (Text.quoteMark s.toList) :=
      List.mem_append_left [Text.quoteMark s.toList] escaped
    exact Text.flatMap_shown_ne quote special member shown
  · rw [Literal.text, Text.toList_literal]
    exact speltAs_quoted quote closed

theorem Single.ends_str {a : ListId} {s : String} (single : Single ls a (.str s))
    (lost : ¬ (Literal.str s).PrintsBack) (oneKind : ¬ ('\'' ∈ s.toList ∧ '"' ∈ s.toList)) :
    ∃ t w, Ends limit heap (echo ((Value.list a).repr ls)) (.finished t) ∧
      t.lookup? "x" = some w ∧ ¬ (Value.list a).SameTree ls t.lists w ∧
      (ls.GrowTo heap → w.equal t.lists (.list a) = false) := by
  obtain ⟨s', ne, spelt⟩ := exists_speltAs_ne lost oneKind
  have yields : (Expr.list [.literal (.str s')]).Yields limit (.list [.leaf (.str s')]) :=
    .list (.cons (.literal _) .nil)
  obtain ⟨w, t, run, bound, unfolds, grow, _⟩ := yields.echo heap
  refine ⟨t, w, .of_parse (single.parse_eq (.literal _) spelt) run, bound, ?_, fun known => ?_⟩
  · rintro ⟨u, left, right⟩
    have same := (left.unique single.unfolds).symm.trans (right.unique unfolds)
    cases same
    exact ne rfl
  · obtain ⟨b, rfl, elements⟩ := unfolds.of_list
    obtain ⟨u, rest, first, none, eq⟩ := List.forall₂_cons_right_iff.mp elements
    rw [List.forall₂_nil_right_iff.mp none] at eq
    cases first with
    | leaf _ value =>
      subst value
      have kept := (known.trans grow a (Value.unfolds_list_iff.mp single.unfolds).1).2
      exact Value.equal_eq_false_of_strings eq (kept ▸ single.elements) ne

end

/--
The program in which `x` is bound to the text of a value and printed. If the value is a tree of
literals that print back, without an empty tuple, the program ends with the same tree in `x`, equal
to the value among whose lists it runs, and prints the value. A list of a literal that does not
print back is never obtained again.
-/
theorem printed_value_reads_back (ls heap : Lists) (limit : Nat) :
    (∀ v : Value, v.Acyclic ls → (∀ l : Literal, v.Within ls l.value → l.PrintsBack) →
      ¬ v.Within ls (.tuple []) → ∃ s w,
        Ends limit heap (echo (v.repr ls)) (.finished s) ∧ s.lookup? "x" = some w ∧
        v.SameTree ls s.lists w ∧ (ls.GrowTo heap → w.equal s.lists v) ∧
        s.output.bytes = (v.display ls ++ "\n").toUTF8) ∧
    ∀ (l : Literal) (a : ListId), ¬ l.PrintsBack → (ls.get a).toList = [l.value] →
      Fails limit heap (echo ((Value.list a).repr ls)) ∨ ∃ s w,
        Ends limit heap (echo ((Value.list a).repr ls)) (.finished s) ∧ s.lookup? "x" = some w ∧
        ¬ (Value.list a).SameTree ls s.lists w ∧
        (ls.GrowTo heap → w.equal s.lists (.list a) = false) := by
  constructor
  · intro v acyclic literals full
    obtain ⟨t, unfolds⟩ := Value.acyclic_iff.mp acyclic
    have back := unfolds.printsBack_iff.mpr ⟨literals, full⟩
    obtain ⟨s, w, ends, bound, again, grow, output⟩ := back.ends unfolds limit heap
    exact ⟨s, w, ends, bound, ⟨t, unfolds, again⟩,
      fun known => Value.equal_of_sameTree unfolds back again (known.trans grow), output⟩
  · intro l a lost elements
    have single : Single ls a l := ⟨elements⟩
    cases l with
    | bool b => exact absurd True.intro lost
    | int n =>
      obtain rfl : n = Int64.minValue := not_not.mp lost
      exact .inl single.fails_int
    | real x => exact .inl (single.fails_real lost)
    | str s =>
      by_cases both : '\'' ∈ s.toList ∧ '"' ∈ s.toList
      · exact .inl (single.fails_str both.1 both.2)
      · exact .inr (single.ends_str lost both)

namespace Value

/-- `(-5, [True, "it's", (-0.5,)])`, in a table with the list of the smallest integer. -/
def nested : Lists × Value :=
  let half := Float.ofBits 0xBFE0000000000000
  (⟨#[.ofList [.bool true, .str "it's", .tuple [.real half]], .ofList [.int Int64.minValue]]⟩,
    .tuple [.int (-5), .list ⟨0⟩])

theorem exists_unfolds_nested : ∃ t : Tree, nested.2.Unfolds nested.1 t ∧ t.PrintsBack := by
  let half := Float.ofBits 0xBFE0000000000000
  have real : (Literal.real half).PrintsBack := by decide +kernel
  refine ⟨.tuple [.leaf (.int (-5)),
    .list [.leaf (.bool true), .leaf (.str "it's"), .tuple [.leaf (.real half)]]], ?_, ?_⟩
  · refine unfolds_tuple_iff.mpr ⟨_, rfl, .cons (.leaf _ rfl) (.cons ?_ .nil)⟩
    refine unfolds_list_iff.mpr ⟨by decide, _, rfl, ?_⟩
    refine .cons (.leaf (.bool true) rfl) (.cons (.leaf (.str "it's") rfl) (.cons ?_ .nil))
    exact unfolds_tuple_iff.mpr ⟨_, rfl, .cons (.leaf (.real half) rfl) .nil⟩
  · have inner : (Tree.tuple [.leaf (.real half)]).PrintsBack :=
      .tuple (by simp) (List.forall_mem_singleton.mpr (.leaf real))
    have items : (Tree.list [.leaf (.bool true), .leaf (.str "it's"),
        .tuple [.leaf (.real half)]]).PrintsBack := by
      refine .list fun u member => ?_
      rcases List.mem_cons.mp member with rfl | member
      · exact .leaf True.intro
      rcases List.mem_pair.mp member with rfl | rfl
      · exact .leaf ⟨by simp, by simp⟩
      · exact inner
    refine .tuple (by simp) fun u member => ?_
    rcases List.mem_pair.mp member with rfl | rfl
    · exact .leaf (by decide)
    · exact items

theorem printed_value_reads_back_nested : nested.2.Acyclic nested.1 ∧
    (∃ s w, Ends 1000 nested.1 (echo (nested.2.repr nested.1)) (.finished s) ∧
      s.lookup? "x" = some w ∧ w.equal s.lists nested.2 ∧
      s.output.bytes = (nested.2.display nested.1 ++ "\n").toUTF8) ∧
    ¬ (Literal.int Int64.minValue).PrintsBack ∧
    (Fails 1000 nested.1 (echo ((list ⟨1⟩).repr nested.1)) ∨
      ∃ s w, Ends 1000 nested.1 (echo ((list ⟨1⟩).repr nested.1)) (.finished s) ∧
        s.lookup? "x" = some w ∧ w.equal s.lists (.list ⟨1⟩) = false) := by
  obtain ⟨t, unfolds, back⟩ := exists_unfolds_nested
  obtain ⟨literals, full⟩ := unfolds.printsBack_iff.mp back
  have acyclic := acyclic_iff.mpr ⟨t, unfolds⟩
  obtain ⟨good, bad⟩ := printed_value_reads_back nested.1 nested.1 1000
  obtain ⟨s, w, ends, bound, _, equal, output⟩ := good nested.2 acyclic literals full
  have lost : ¬ (Literal.int Int64.minValue).PrintsBack := fun back => back rfl
  refine ⟨acyclic, ⟨s, w, ends, bound, equal (.refl _), output⟩, lost, ?_⟩
  rcases bad (.int Int64.minValue) ⟨1⟩ lost rfl with fails | ⟨s, w, ends, bound, _, differ⟩
  · exact .inl fails
  · exact .inr ⟨s, w, ends, bound, differ (.refl _)⟩

end Value

end Scriptlet
