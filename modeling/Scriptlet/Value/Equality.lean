import Scriptlet.Number
import Scriptlet.Value.Visited

namespace Scriptlet

instance : Ord (ListId × ListId) := lexOrd

instance : Std.TransOrd (ListId × ListId) := Std.instTransOrdProd

instance : Std.LawfulEqOrd (ListId × ListId) := Std.instLawfulEqOrdProd

def Lists.pairs (ls : Lists) : List (ListId × ListId) :=
  ls.ids.flatMap fun a => ls.ids.map (a, ·)

theorem Lists.mem_pairs (ls : Lists) (p : ListId × ListId) :
    p ∈ ls.pairs ↔ p.1.index < ls.size ∧ p.2.index < ls.size := by
  simp only [pairs, List.mem_flatMap, List.mem_map, mem_ids]
  constructor
  · rintro ⟨a, ha, b, hb, rfl⟩
    exact ⟨ha, hb⟩
  · exact fun h => ⟨p.1, h.1, p.2, h.2, rfl⟩

namespace Value

def agree? (same : Bool) : Option (List (Value × Value)) := if same then some [] else none

def paired? (as bs : List Value) : Option (List (Value × Value)) :=
  if as.length = bs.length then some (as.zip bs) else none

/-- What is left to compare of two values, if they do not differ in themselves. -/
def compareParts? (ls : Lists) : Value → Value → Option (List (Value × Value))
  | bool a, bool b => agree? (a == b)
  | int a, int b => agree? (a == b)
  | str a, str b => agree? (a == b)
  | list a, list b => if a = b then some [] else paired? (ls.get a).toList (ls.get b).toList
  | tuple as, tuple bs => paired? as bs
  | a, b =>
    match Number.ofValue? a, Number.ofValue? b with
    | some a, some b => agree? (a.compare? b == some .eq)
    | _, _ => none

noncomputable def leftWeight : List (Value × Value) → Nat
  | [] => 0
  | (a, _) :: ps => sizeOf a + 1 + leftWeight ps

theorem leftWeight_append (ps qs : List (Value × Value)) :
    leftWeight (ps ++ qs) = leftWeight ps + leftWeight qs := by
  induction ps with
  | nil => rw [List.nil_append, leftWeight, Nat.zero_add]
  | cons p ps ih => rw [List.cons_append, leftWeight, leftWeight, ih, ← Nat.add_assoc]

theorem leftWeight_zip_lt (as bs : List Value) : leftWeight (as.zip bs) < sizeOf as := by
  induction as generalizing bs with
  | nil => simp only [List.zip_nil_left, leftWeight, List.nil.sizeOf_spec, Nat.lt_add_one]
  | cons a as ih =>
    cases bs with
    | nil => simp only [List.zip_nil_right, leftWeight, List.cons.sizeOf_spec]; omega
    | cons b bs =>
      have := ih bs
      simp only [leftWeight, List.zip_cons_cons, List.cons.sizeOf_spec]
      omega

theorem eq_nil_of_agree? {same : Bool} {ps : List (Value × Value)} (h : agree? same = some ps) :
    ps = [] := by
  unfold agree? at h
  split at h
  · exact (Option.some.inj h).symm
  · cases h

theorem leftWeight_of_paired? {as bs : List Value} {ps : List (Value × Value)}
    (h : paired? as bs = some ps) : leftWeight ps < sizeOf as := by
  unfold paired? at h
  split at h
  · rw [← Option.some.inj h]
    exact leftWeight_zip_lt as bs
  · cases h

abbrev Met := Std.TreeSet (ListId × ListId)

def Met.has (met : Met) : Value → Value → Bool
  | list a, list b => met.contains (a, b)
  | _, _ => false

def Met.add (met : Met) : Value → Value → Met
  | list a, list b => met.insert (a, b)
  | _, _ => met

theorem unseen_add_le (ls : Lists) (met : Met) (a b : Value) :
    unseen ls.pairs (met.add a b) ≤ unseen ls.pairs met := by
  unfold Met.add
  split
  · exact unseen_insert_le _ _ _
  · exact Nat.le_refl _

/-- A new pair uses up a pair of lists, or what it leaves to compare is smaller than itself. -/
theorem unseen_lt_or_leftWeight_le {ls : Lists} {met : Met} {a b : Value}
    {ps : List (Value × Value)} (new : met.has a b = false)
    (h : a.compareParts? ls b = some ps) :
    unseen ls.pairs (met.add a b) < unseen ls.pairs met ∨ leftWeight ps ≤ sizeOf a := by
  unfold compareParts? at h
  split at h
  · rw [eq_nil_of_agree? h]; exact .inr (Nat.zero_le _)
  · rw [eq_nil_of_agree? h]; exact .inr (Nat.zero_le _)
  · rw [eq_nil_of_agree? h]; exact .inr (Nat.zero_le _)
  · next a b =>
    by_cases empty : ps = []
    · rw [empty]; exact .inr (Nat.zero_le _)
    · split at h
      · exact absurd (Option.some.inj h).symm empty
      · refine .inl (unseen_insert_lt _ _ _ ((ls.mem_pairs _).2 ?_) new)
        obtain ⟨p, mem⟩ := List.exists_mem_of_ne_nil _ empty
        unfold paired? at h
        split at h
        · rw [← Option.some.inj h] at mem
          have both := List.of_mem_zip mem
          exact ⟨ls.lt_size_of_mem a _ both.1, ls.lt_size_of_mem b _ both.2⟩
        · cases h
  · have := leftWeight_of_paired? h
    simp only [tuple.sizeOf_spec]
    omega
  · split at h
    · rw [eq_nil_of_agree? h]; exact .inr (Nat.zero_le _)
    · cases h

/--
Whether the values of each pair are equal, when the pairs in `met` are taken to be equal. A pair of
lists that was met before adds nothing, so that only a path to a difference makes values unequal.
-/
def allEqual (ls : Lists) (met : Met) : List (Value × Value) → Bool
  | [] => true
  | (a, b) :: rest =>
    if _ : met.has a b then allEqual ls met rest else
      match _ : a.compareParts? ls b with
      | some parts => allEqual ls (met.add a b) (parts ++ rest)
      | none => false
termination_by pairs => (unseen ls.pairs met, leftWeight pairs)
decreasing_by
  · exact Prod.Lex.right _ (by simp only [leftWeight]; omega)
  · rename_i new h
    rcases Nat.lt_or_eq_of_le (unseen_add_le ls met a b) with lt | eq
    · exact Prod.Lex.left _ _ lt
    · rcases unseen_lt_or_leftWeight_le (Bool.eq_false_iff.2 new) h with lt | le
      · exact Prod.Lex.left _ _ lt
      · rw [eq, leftWeight_append]
        refine Prod.Lex.right _ ?_
        simp only [leftWeight] at le ⊢
        omega

end Value

def Value.equal (ls : Lists) (a b : Value) : Bool :=
  match a.compareParts? ls b with
  | some parts => allEqual ls (Met.add {} a b) parts
  | none => false

end Scriptlet
