import Std.Data.TreeSet.Lemmas

namespace Scriptlet

variable {α : Type} [Ord α]

/-- The number of entries of `all` that are not in `seen`. -/
def unseen (all : List α) (seen : Std.TreeSet α) : Nat := all.countP fun a => !seen.contains a

variable [Std.TransOrd α]

theorem unseen_insert_le (all : List α) (seen : Std.TreeSet α) (a : α) :
    unseen all (seen.insert a) ≤ unseen all seen := by
  refine List.countP_mono_left fun b _ h => ?_
  simp only [Std.TreeSet.contains_insert, Bool.not_or, Bool.and_eq_true] at h
  exact h.2

theorem unseen_insert_lt [Std.LawfulEqOrd α] (all : List α) (seen : Std.TreeSet α) (a : α)
    (mem : a ∈ all) (new : seen.contains a = false) :
    unseen all (seen.insert a) < unseen all seen := by
  induction all with
  | nil => cases mem
  | cons b all ih =>
    by_cases h : a = b
    · subst h
      have le := unseen_insert_le all seen a
      simp only [unseen, List.countP_cons, Std.TreeSet.contains_insert_self, new] at le ⊢
      simp only [Bool.not_true, Bool.false_eq_true, ↓reduceIte, Nat.add_zero, Bool.not_false]
      omega
    · have step := ih ((List.mem_cons.1 mem).resolve_left h)
      have here : (seen.insert a).contains b = seen.contains b := by
        have ne : compare a b ≠ .eq := fun e => h (Std.LawfulEqOrd.eq_of_compare e)
        simp only [Std.TreeSet.contains_insert, beq_eq_false_iff_ne.2 ne, Bool.false_or]
      simp only [unseen, List.countP_cons, here] at step ⊢
      omega

end Scriptlet
