import Scriptlet.Proofs.Values.Quantity
import Scriptlet.Value.Equality

namespace Scriptlet

namespace Value

inductive Mismatch (ls : Lists) : Value → Value → Prop
  | kind {a b : Value} : a.kind ≠ b.kind →
      (Number.ofValue? a = none ∨ Number.ofValue? b = none) → Mismatch ls a b
  | bool {a b : Bool} : a ≠ b → Mismatch ls (.bool a) (.bool b)
  | str {a b : String} : a ≠ b → Mismatch ls (.str a) (.str b)
  | number {m n : Number} : (¬ ∃ x, m.quantity? = some x ∧ n.quantity? = some x) →
      Mismatch ls m.toValue n.toValue
  | list {a b : ListId} : (ls.get a).toList.length ≠ (ls.get b).toList.length →
      Mismatch ls (.list a) (.list b)
  | tuple {as bs : List Value} : as.length ≠ bs.length → Mismatch ls (.tuple as) (.tuple bs)

def element? (ls : Lists) : Value → Nat → Option Value
  | list a, i => (ls.get a).toList[i]?
  | tuple vs, i => vs[i]?
  | _, _ => none

def SameList : Value → Value → Prop
  | list a, list b => a = b
  | _, _ => False

def Step (ls : Lists) (p q : Value × Value) : Prop :=
  ¬ SameList p.1 p.2 ∧ ∃ i, p.1.element? ls i = some q.1 ∧ p.2.element? ls i = some q.2

/-- The path leads from one pair of values to another, not through one and the same list. -/
inductive Leads (ls : Lists) : List Nat → Value × Value → Value × Value → Prop
  | here (p : Value × Value) : Leads ls [] p p
  | element {i : Nat} {path : List Nat} {a b a' b' : Value} {q : Value × Value} :
      ¬ SameList a b → a.element? ls i = some a' → b.element? ls i = some b' →
      Leads ls path (a', b') q → Leads ls (i :: path) (a, b) q

variable {ls : Lists}

theorem agree?_eq_none_iff {same : Bool} : agree? same = none ↔ same = false := by
  cases same <;> simp [agree?]

theorem paired?_eq_none_iff {as bs : List Value} :
    paired? as bs = none ↔ as.length ≠ bs.length := by
  rw [paired?]
  split <;> simp_all

theorem compareParts?_number (m n : Number) : m.toValue.compareParts? ls n.toValue = none ↔
    ¬ ∃ x, m.quantity? = some x ∧ n.quantity? = some x := by
  rw [← Number.compare?_eq_iff]
  cases m with
  | int m =>
    cases n with
    | int n =>
      have same : (Number.int m).compare? (.int n) = some .eq ↔ m = n := by
        show some (compare m.toInt n.toInt) = some .eq ↔ _
        rw [Option.some.injEq, Std.LawfulEqOrd.compare_eq_iff_eq, Int64.toInt_inj]
      rw [same]
      exact agree?_eq_none_iff.trans beq_eq_false_iff_ne
    | real y => exact agree?_eq_none_iff.trans beq_eq_false_iff_ne
  | real x => cases n <;> exact agree?_eq_none_iff.trans beq_eq_false_iff_ne

theorem compareParts?_eq_none_iff (a b : Value) :
    a.compareParts? ls b = none ↔ Mismatch ls a b := by
  constructor
  · intro differ
    cases a with
    | bool a =>
      cases b with
      | bool b => exact .bool (beq_eq_false_iff_ne.mp (agree?_eq_none_iff.mp differ))
      | _ => exact .kind nofun (.inl rfl)
    | int m =>
      cases b with
      | int n => exact .number ((compareParts?_number (.int m) (.int n)).mp differ)
      | real y => exact .number ((compareParts?_number (.int m) (.real y)).mp differ)
      | _ => exact .kind nofun (.inr rfl)
    | real x =>
      cases b with
      | int n => exact .number ((compareParts?_number (.real x) (.int n)).mp differ)
      | real y => exact .number ((compareParts?_number (.real x) (.real y)).mp differ)
      | _ => exact .kind nofun (.inr rfl)
    | str a =>
      cases b with
      | str b => exact .str (beq_eq_false_iff_ne.mp (agree?_eq_none_iff.mp differ))
      | _ => exact .kind nofun (.inl rfl)
    | list a =>
      cases b with
      | list b =>
        rw [compareParts?] at differ
        split at differ
        · cases differ
        · exact .list (paired?_eq_none_iff.mp differ)
      | _ => exact .kind nofun (.inl rfl)
    | tuple as =>
      cases b with
      | tuple bs => exact .tuple (paired?_eq_none_iff.mp differ)
      | _ => exact .kind nofun (.inl rfl)
  · intro mismatch
    cases mismatch with
    | kind kinds other =>
      cases a <;> cases b <;> first | rfl | exact absurd rfl kinds | (cases other <;> contradiction)
    | bool ne => exact agree?_eq_none_iff.mpr (beq_eq_false_iff_ne.mpr ne)
    | str ne => exact agree?_eq_none_iff.mpr (beq_eq_false_iff_ne.mpr ne)
    | number unequal => exact (compareParts?_number _ _).mpr unequal
    | @list a b lengths =>
      have other : a ≠ b := by
        rintro rfl
        exact lengths rfl
      rw [compareParts?, if_neg other]
      exact paired?_eq_none_iff.mpr lengths
    | tuple lengths => exact paired?_eq_none_iff.mpr lengths

theorem mem_of_paired? {as bs : List Value} {parts : List (Value × Value)}
    (alike : paired? as bs = some parts) (q : Value × Value) :
    q ∈ parts ↔ ∃ i : Nat, as[i]? = some q.1 ∧ bs[i]? = some q.2 := by
  rw [paired?] at alike
  split at alike
  · rw [← Option.some.inj alike, List.mem_iff_getElem?]
    simp only [List.getElem?_zip_eq_some]
  · cases alike

theorem mem_of_compareParts? {a b : Value} {parts : List (Value × Value)}
    (alike : a.compareParts? ls b = some parts) (q : Value × Value) :
    q ∈ parts ↔ Step ls (a, b) q := by
  have leaf (agree : ∃ same, agree? same = some parts) (nothing : ∀ i, a.element? ls i = none) :
      q ∈ parts ↔ Step ls (a, b) q := by
    obtain ⟨same, agree⟩ := agree
    simp [Step, eq_nil_of_agree? agree, nothing]
  cases a with
  | list a =>
    cases b with
    | list b =>
      rw [compareParts?] at alike
      split at alike
      · rename_i same
        rw [← Option.some.inj alike]
        exact ⟨nofun, fun step => absurd same step.1⟩
      · rename_i other
        rw [mem_of_paired? alike]
        exact ⟨fun found => ⟨other, found⟩, fun step => step.2⟩
    | _ => cases alike
  | tuple as =>
    cases b with
    | tuple bs =>
      rw [mem_of_paired? alike]
      exact ⟨fun found => ⟨not_false, found⟩, fun step => step.2⟩
    | _ => cases alike
  | bool a =>
    cases b with
    | bool b => exact leaf ⟨_, alike⟩ fun _ => rfl
    | _ => cases alike
  | str a =>
    cases b with
    | str b => exact leaf ⟨_, alike⟩ fun _ => rfl
    | _ => cases alike
  | int m =>
    cases b with
    | int n => exact leaf ⟨_, alike⟩ fun _ => rfl
    | real y => exact leaf ⟨_, alike⟩ fun _ => rfl
    | _ => cases alike
  | real x =>
    cases b with
    | int n => exact leaf ⟨_, alike⟩ fun _ => rfl
    | real y => exact leaf ⟨_, alike⟩ fun _ => rfl
    | _ => cases alike

inductive Differs (ls : Lists) (avoid : Set (Value × Value)) : Value × Value → Prop
  | here {p : Value × Value} : p ∉ avoid → Mismatch ls p.1 p.2 → Differs ls avoid p
  | step {p q : Value × Value} : p ∉ avoid → Step ls p q → Differs ls avoid q → Differs ls avoid p

theorem differs_iff_leads (p : Value × Value) : Differs ls ∅ p ↔
    ∃ path c d, Leads ls path p (c, d) ∧ Mismatch ls c d := by
  constructor
  · intro h
    induction h with
    | @here p _ mismatch => exact ⟨[], p.1, p.2, .here p, mismatch⟩
    | step _ step _ ih =>
      obtain ⟨other, i, left, right⟩ := step
      obtain ⟨path, c, d, leads, mismatch⟩ := ih
      exact ⟨i :: path, c, d, .element other left right leads, mismatch⟩
  · rintro ⟨path, c, d, leads, mismatch⟩
    generalize target : (c, d) = q at leads
    induction leads with
    | here p =>
      rw [← target]
      exact .here (Set.notMem_empty _) mismatch
    | element other left right _ ih =>
      exact .step (Set.notMem_empty _) ⟨other, _, left, right⟩ (ih target)

namespace Differs

variable {avoid avoid' : Set (Value × Value)} {p q : Value × Value}

theorem not_mem (h : Differs ls avoid p) : p ∉ avoid := by
  cases h <;> assumption

theorem mono (fewer : avoid ⊆ avoid') (h : Differs ls avoid' p) : Differs ls avoid p := by
  induction h with
  | here new mismatch => exact .here (fun seen => new (fewer seen)) mismatch
  | step new step _ ih => exact .step (fun seen => new (fewer seen)) step ih

theorem after_last (within : avoid' ⊆ insert p avoid) (h : Differs ls avoid q) :
    Differs ls avoid' q ∨ Mismatch ls p.1 p.2 ∨ ∃ r, Step ls p r ∧ Differs ls avoid' r := by
  -- From the difference backwards, the first visit to `p` is the last one.
  induction h with
  | @here q new mismatch =>
    by_cases same : q = p
    · rw [same] at mismatch
      exact .inr (.inl mismatch)
    · exact .inl (.here (fun seen => (within seen).elim same new) mismatch)
  | @step q r new step _ ih =>
    rcases ih with rest | found
    · by_cases same : q = p
      · rw [same] at step
        exact .inr (.inr ⟨r, step, rest⟩)
      · exact .inl (.step (fun seen => (within seen).elim same new) step rest)
    · exact .inr found

/-- To find a difference from `p` on, `p` itself may be left out once it was met. -/
theorem iff_step (new : p ∉ avoid) (more : avoid ⊆ avoid') (within : avoid' ⊆ insert p avoid) :
    Differs ls avoid p ↔ Mismatch ls p.1 p.2 ∨ ∃ q, Step ls p q ∧ Differs ls avoid' q := by
  constructor
  · intro h
    cases h with
    | here _ mismatch => exact .inl mismatch
    | step _ step rest =>
      rcases rest.after_last within with rest | found
      · exact .inr ⟨_, step, rest⟩
      · exact found
  · rintro (mismatch | ⟨q, step, rest⟩)
    · exact .here new mismatch
    · exact .step new step (rest.mono more)

theorem iff_without (new : p ∉ avoid) (more : avoid ⊆ avoid') (within : avoid' ⊆ insert p avoid)
    (none : ¬ Differs ls avoid p) : Differs ls avoid' q ↔ Differs ls avoid q := by
  constructor
  · exact fun h => h.mono more
  · intro h
    rcases h.after_last within with rest | found
    · exact rest
    · exact absurd ((iff_step new more within).mpr found) none

end Differs

def Met.pairs (met : Met) : Set (Value × Value) := {p | met.has p.1 p.2}

theorem Met.pairs_empty : (∅ : Met).pairs = ∅ := by
  ext ⟨a, b⟩
  cases a <;> cases b <;> simp [Met.pairs, Met.has]

theorem Met.contains_insert (met : Met) (p q : ListId × ListId) :
    (met.insert p).contains q ↔ p = q ∨ met.contains q := by
  rw [Std.TreeSet.contains_insert, Bool.or_eq_true, beq_iff_eq, Std.LawfulEqOrd.compare_eq_iff_eq]

theorem Met.pairs_subset_add (met : Met) (a b : Value) : met.pairs ⊆ (met.add a b).pairs := by
  rintro ⟨c, d⟩ seen
  unfold Met.add
  split
  · cases c with
    | list c =>
      cases d with
      | list d => exact (met.contains_insert _ _).mpr (.inr seen)
      | _ => cases seen
    | _ => cases seen
  · exact seen

theorem Met.pairs_add_subset (met : Met) (a b : Value) :
    (met.add a b).pairs ⊆ insert (a, b) met.pairs := by
  rintro ⟨c, d⟩ seen
  unfold Met.add at seen
  split at seen
  · cases c with
    | list c =>
      cases d with
      | list d =>
        rcases (met.contains_insert _ _).mp seen with same | seen
        · cases same
          exact .inl rfl
        · exact .inr seen
      | _ => cases seen
    | _ => cases seen
  · exact .inr seen

theorem allEqual_iff (met : Met) (pairs : List (Value × Value)) :
    allEqual ls met pairs ↔ ∀ p ∈ pairs, ¬ Differs ls met.pairs p := by
  fun_induction allEqual ls met pairs with
  | case1 met => simp
  | case2 met a b rest seen ih =>
    rw [ih, List.forall_mem_cons]
    exact ⟨fun all => ⟨fun h => h.not_mem seen, all⟩, fun all => all.2⟩
  | case3 met a b rest new parts found ih =>
    have more := met.pairs_subset_add a b
    have within := met.pairs_add_subset a b
    have alike : ¬ Mismatch ls a b := by
      rw [← compareParts?_eq_none_iff, found]
      exact nofun
    have here : (∀ q ∈ parts, ¬ Differs ls (met.add a b).pairs q) ↔
        ¬ Differs ls met.pairs (a, b) := by
      rw [Differs.iff_step new more within, or_iff_right alike, not_exists]
      refine forall_congr' fun q => ?_
      rw [mem_of_compareParts? found, not_and]
    rw [ih, List.forall_mem_append, List.forall_mem_cons, here]
    refine and_congr_right fun none => forall₂_congr fun q _ => not_congr ?_
    exact Differs.iff_without new more within none
  | case4 met a b rest new none =>
    have mismatch := (compareParts?_eq_none_iff a b).mp none
    exact ⟨nofun, fun all => absurd (.here new mismatch) (all (a, b) List.mem_cons_self)⟩

theorem equal_eq_allEqual (a b : Value) : a.equal ls b = allEqual ls ∅ [(a, b)] := by
  have new : ¬ (∅ : Met).has a b := by
    intro seen
    have none : (a, b) ∈ (∅ : Met).pairs := seen
    rw [Met.pairs_empty] at none
    exact none
  rw [equal, allEqual, dif_neg new]
  split <;> split <;> simp_all

theorem equal_eq_false_iff (a b : Value) :
    a.equal ls b = false ↔ ∃ path c d, Leads ls path (a, b) (c, d) ∧ Mismatch ls c d := by
  rw [← differs_iff_leads, ← Met.pairs_empty, equal_eq_allEqual, ← Bool.not_eq_true, allEqual_iff]
  simp

end Value

end Scriptlet
