import Scriptlet.Proofs.Values.Mismatch

namespace Scriptlet

namespace Value

inductive Comparison where
  | equal (a b : Value)
  | allEqual (as bs : List Value)
  | all (pairs : List (Value × Value))

abbrev Comparing := Finset (ListId × ListId)

def BothNested : Value → Value → Prop
  | list _, list _ => True
  | tuple _, tuple _ => True
  | _, _ => False

/-- A call, with what is being compared before it, its result, and what is being compared then. -/
inductive Compares (ls : Lists) : Comparing → Comparison → Bool → Comparing → Prop
  | same {c : Comparing} {a : ListId} : Compares ls c (.equal (.list a) (.list a)) true c
  | again {c : Comparing} {a b : ListId} : a ≠ b → (a, b) ∈ c →
      Compares ls c (.equal (.list a) (.list b)) true c
  | lists {c c' : Comparing} {a b : ListId} {r : Bool} : a ≠ b → (a, b) ∉ c →
      Compares ls (insert (a, b) c) (.allEqual (ls.get a).toList (ls.get b).toList) r c' →
      Compares ls c (.equal (.list a) (.list b)) r (c'.erase (a, b))
  | tuples {c c' : Comparing} {as bs : List Value} {r : Bool} :
      Compares ls c (.allEqual as bs) r c' → Compares ls c (.equal (.tuple as) (.tuple bs)) r c'
  | leaves {c : Comparing} {a b : Value} : ¬ BothNested a b →
      Compares ls c (.equal a b) (a.compareParts? ls b).isSome c
  | unlike {c : Comparing} {as bs : List Value} : as.length ≠ bs.length →
      Compares ls c (.allEqual as bs) false c
  | elements {c c' : Comparing} {as bs : List Value} {r : Bool} : as.length = bs.length →
      Compares ls c (.all (as.zip bs)) r c' → Compares ls c (.allEqual as bs) r c'
  | nil {c : Comparing} : Compares ls c (.all []) true c
  | stop {c c' : Comparing} {a b : Value} {rest : List (Value × Value)} :
      Compares ls c (.equal a b) false c' → Compares ls c (.all ((a, b) :: rest)) false c'
  | next {c c' c'' : Comparing} {a b : Value} {rest : List (Value × Value)} {r : Bool} :
      Compares ls c (.equal a b) true c' → Compares ls c' (.all rest) r c'' →
      Compares ls c (.all ((a, b) :: rest)) r c''

variable {ls : Lists} {c : Comparing}

theorem Compares.unique {t : Comparison} {r r' : Bool} {c₁ c₂ : Comparing}
    (h : Compares ls c t r c₁) (h' : Compares ls c t r' c₂) : r' = r ∧ c₂ = c₁ := by
  induction h generalizing r' c₂ with
  | same =>
    cases h' with
    | same => exact ⟨rfl, rfl⟩
    | again other _ => exact absurd rfl other
    | lists other _ _ => exact absurd rfl other
    | leaves flat => exact absurd trivial flat
  | again other seen =>
    cases h' with
    | same => exact absurd rfl other
    | again _ _ => exact ⟨rfl, rfl⟩
    | lists _ new _ => exact absurd seen new
    | leaves flat => exact absurd trivial flat
  | lists other new _ ih =>
    cases h' with
    | same => exact absurd rfl other
    | again _ seen => exact absurd seen new
    | lists _ _ run =>
      obtain ⟨rfl, rfl⟩ := ih run
      exact ⟨rfl, rfl⟩
    | leaves flat => exact absurd trivial flat
  | tuples _ ih =>
    cases h' with
    | tuples run => exact ih run
    | leaves flat => exact absurd trivial flat
  | leaves flat =>
    cases h' with
    | leaves _ => exact ⟨rfl, rfl⟩
    | _ => exact absurd trivial flat
  | unlike lengths =>
    cases h' with
    | unlike _ => exact ⟨rfl, rfl⟩
    | elements same _ => exact absurd same lengths
  | elements lengths _ ih =>
    cases h' with
    | unlike other => exact absurd lengths other
    | elements _ run => exact ih run
  | nil =>
    cases h'
    exact ⟨rfl, rfl⟩
  | stop _ ih =>
    cases h' with
    | stop run => exact ih run
    | next run _ => exact absurd (ih run).1.symm Bool.false_ne_true
  | next _ _ ih ihRest =>
    cases h' with
    | stop run => exact absurd (ih run).1 Bool.false_ne_true
    | next run rest =>
      obtain ⟨-, rfl⟩ := ih run
      exact ihRest rest

theorem compares_all {D : Value × Value → Prop} {pairs : List (Value × Value)}
    (each : ∀ q ∈ pairs, ∃ r, Compares ls c (.equal q.1 q.2) r c ∧ (r = false ↔ D q)) :
    ∃ r, Compares ls c (.all pairs) r c ∧ (r = false ↔ ∃ q ∈ pairs, D q) := by
  induction pairs with
  | nil => exact ⟨true, .nil, by simp⟩
  | cons q rest ih =>
    obtain ⟨r, run, result⟩ := each q List.mem_cons_self
    cases r with
    | false =>
      refine ⟨false, .stop run, ?_⟩
      simp only [List.mem_cons, exists_eq_or_imp, ← result, true_or]
    | true =>
      obtain ⟨r, rest, result'⟩ := ih fun q mem => each q (List.mem_cons_of_mem _ mem)
      refine ⟨r, .next run rest, ?_⟩
      simp only [List.mem_cons, exists_eq_or_imp, ← result, ← result', Bool.true_eq_false, false_or]

def Comparing.pairs (c : Comparing) : Set (Value × Value) :=
  {p | ∃ a b, p = (list a, list b) ∧ (a, b) ∈ c}

theorem compares_allEqual {avoid : Set (Value × Value)} {a b : Value} {as bs : List Value}
    (nested : a.compareParts? ls b = paired? as bs) (new : (a, b) ∉ avoid)
    (more : avoid ⊆ c.pairs) (within : c.pairs ⊆ insert (a, b) avoid)
    (each : ∀ q ∈ as.zip bs, ∃ r, Compares ls c (.equal q.1 q.2) r c ∧
      (r = false ↔ Differs ls c.pairs q)) :
    ∃ r, Compares ls c (.allEqual as bs) r c ∧ (r = false ↔ Differs ls avoid (a, b)) := by
  by_cases lengths : as.length = bs.length
  · have found : a.compareParts? ls b = some (as.zip bs) := nested.trans (if_pos lengths)
    have alike : ¬ Mismatch ls a b := by
      rw [← compareParts?_eq_none_iff, found]
      exact nofun
    obtain ⟨r, run, result⟩ := compares_all each
    refine ⟨r, .elements lengths run, ?_⟩
    rw [result, Differs.iff_step new more within, or_iff_right alike]
    refine exists_congr fun q => and_congr_left fun _ => ?_
    exact mem_of_compareParts? found q
  · have mismatch : Mismatch ls a b :=
      (compareParts?_eq_none_iff a b).mp (nested.trans (if_neg lengths))
    exact ⟨false, .unlike lengths, iff_of_true rfl (.here new mismatch)⟩

theorem card_sdiff_insert_lt {p : ListId × ListId} (listed : p ∈ ls.pairs) (new : p ∉ c) :
    (ls.pairs.toFinset \ insert p c).card < (ls.pairs.toFinset \ c).card := by
  rw [Finset.sdiff_insert]
  apply Finset.card_erase_lt_of_mem
  exact Finset.mem_sdiff.mpr ⟨List.mem_toFinset.mpr listed, new⟩

theorem Comparing.pairs_insert (c : Comparing) (a b : ListId) :
    Comparing.pairs (insert (a, b) c) = insert (list a, list b) c.pairs := by
  ext p
  simp only [pairs, Finset.mem_insert, Set.mem_ofPred_eq, Set.mem_insert_iff]
  constructor
  · rintro ⟨x, y, rfl, same | seen⟩
    · cases same
      exact .inl rfl
    · exact .inr ⟨x, y, rfl, seen⟩
  · rintro (rfl | ⟨x, y, rfl, seen⟩)
    · exact ⟨a, b, rfl, .inl rfl⟩
    · exact ⟨x, y, rfl, .inr seen⟩

theorem Comparing.mem_pairs_iff {a b : ListId} : (list a, list b) ∈ c.pairs ↔ (a, b) ∈ c := by
  constructor
  · rintro ⟨x, y, same, seen⟩
    cases same
    exact seen
  · exact fun seen => ⟨a, b, rfl, seen⟩

theorem not_differs_self (avoid : Set (Value × Value)) (a : ListId) :
    ¬ Differs ls avoid (list a, list a) := by
  intro h
  cases h with
  | here _ mismatch =>
    rw [← compareParts?_eq_none_iff, compareParts?, if_pos rfl] at mismatch
    cases mismatch
  | step _ step _ => exact step.1 rfl

theorem differs_of_leaves {avoid : Set (Value × Value)} {a b : Value} (flat : ¬ BothNested a b)
    (new : (a, b) ∉ avoid) : (a.compareParts? ls b).isSome = false ↔ Differs ls avoid (a, b) := by
  rw [Differs.iff_step new (Set.Subset.refl _) (Set.subset_insert _ _),
    ← compareParts?_eq_none_iff, Option.isSome_eq_false_iff, Option.isNone_iff_eq_none]
  constructor
  · exact .inl
  · rintro (none | ⟨q, ⟨_, i, left, right⟩, _⟩)
    · exact none
    · cases a with
      | list a =>
        cases b with
        | list b => exact absurd trivial flat
        | _ => rfl
      | tuple as =>
        cases b with
        | tuple bs => exact absurd trivial flat
        | _ => rfl
      | _ => cases left

/-- The recursion ends with the pairs that it began with, and finds what differs beyond these. -/
theorem exists_compares (ls : Lists) (c : Comparing) (a b : Value) :
    ∃ r, Compares ls c (.equal a b) r c ∧ (r = false ↔ Differs ls c.pairs (a, b)) := by
  by_cases nested : BothNested a b
  · cases a with
    | list a =>
      cases b with
      | list b =>
        by_cases same : a = b
        · subst same
          exact ⟨true, .same, iff_of_false nofun (not_differs_self _ a)⟩
        by_cases seen : (a, b) ∈ c
        · refine ⟨true, .again same seen, iff_of_false nofun fun h => ?_⟩
          exact h.not_mem (Comparing.mem_pairs_iff.mpr seen)
        · have new : (list a, list b) ∉ c.pairs := fun h => seen (Comparing.mem_pairs_iff.mp h)
          have pairs := c.pairs_insert a b
          have parts : (list a).compareParts? ls (list b) =
              paired? (ls.get a).toList (ls.get b).toList := if_neg same
          obtain ⟨r, run, result⟩ := compares_allEqual parts new
            (pairs ▸ Set.subset_insert _ _) pairs.le
            fun q mem => exists_compares ls (insert (a, b) c) q.1 q.2
          have done := Compares.lists same seen run
          rw [Finset.erase_insert seen] at done
          exact ⟨r, done, result⟩
      | _ => exact nested.elim
    | tuple as =>
      cases b with
      | tuple bs =>
        have new : (tuple as, tuple bs) ∉ c.pairs := by
          rintro ⟨x, y, same, _⟩
          cases same
        obtain ⟨r, run, result⟩ := compares_allEqual rfl new (Set.Subset.refl _)
          (Set.subset_insert _ _) fun q mem => exists_compares ls c q.1 q.2
        exact ⟨r, .tuples run, result⟩
      | _ => exact nested.elim
    | _ => exact nested.elim
  · refine ⟨_, .leaves nested, differs_of_leaves nested ?_⟩
    rintro ⟨x, y, same, _⟩
    cases same
    exact nested trivial
termination_by ((ls.pairs.toFinset \ c).card, sizeOf a)
decreasing_by
  · have left := ls.lt_size_of_mem a q.1 (List.of_mem_zip mem).1
    have right := ls.lt_size_of_mem b q.2 (List.of_mem_zip mem).2
    exact Prod.Lex.left _ _ (card_sdiff_insert_lt ((ls.mem_pairs _).mpr ⟨left, right⟩) seen)
  · have smaller := List.sizeOf_lt_of_mem (List.of_mem_zip mem).1
    apply Prod.Lex.right
    simp only [tuple.sizeOf_spec]
    omega

end Value

/--
Two values are unequal just if some path of positions leads, not through one and the same list, to
a pair that differs in itself. The recursion that compares them comes to one end, whatever pairs are
being compared further up; these are then still the same, and with none of them its result is
whether the values are equal.
-/
theorem unequal_iff_leads_to_mismatch (ls : Lists) (a b : Value) :
    (a.equal ls b = false ↔ ∃ path c d, Value.Leads ls path (a, b) (c, d) ∧ c.Mismatch ls d) ∧
    (∀ comparing, ∃ r, ∀ r' comparing', Value.Compares ls comparing (.equal a b) r' comparing' ↔
      r' = r ∧ comparing' = comparing) ∧
    Value.Compares ls ∅ (.equal a b) (a.equal ls b) ∅ := by
  refine ⟨a.equal_eq_false_iff b, fun comparing => ?_, ?_⟩
  · obtain ⟨r, run, -⟩ := Value.exists_compares ls comparing a b
    refine ⟨r, fun r' comparing' => ⟨run.unique, ?_⟩⟩
    rintro ⟨rfl, rfl⟩
    exact run
  · obtain ⟨r, run, result⟩ := Value.exists_compares ls ∅ a b
    have none : Value.Comparing.pairs ∅ = ∅ := by
      ext p
      simp [Value.Comparing.pairs]
    rw [none, Value.differs_iff_leads, ← a.equal_eq_false_iff b] at result
    have same : a.equal ls b = r := by
      cases r with
      | false => exact result.mp rfl
      | true => exact (Bool.not_eq_false _).mp fun unequal => nomatch result.mpr unequal
    rwa [same]

-- `a = [a]`, and `b = [c]` with `c = [b]`.
example : (Value.list ⟨0⟩).equal
    ⟨#[.ofList [.list ⟨0⟩], .ofList [.list ⟨2⟩], .ofList [.list ⟨1⟩]]⟩ (.list ⟨1⟩) := by cbv

end Scriptlet
