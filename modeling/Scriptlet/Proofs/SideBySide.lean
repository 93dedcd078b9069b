import Mathlib.Data.List.Forall2

namespace Scriptlet

variable {α β : Type} {r : α → β → Prop} {as : List α}

theorem exists_forall₂ (each : ∀ a ∈ as, ∃ b, r a b) : ∃ bs, List.Forall₂ r as bs := by
  induction as with
  | nil => exact ⟨[], .nil⟩
  | cons a as ih =>
    obtain ⟨b, first⟩ := each a List.mem_cons_self
    obtain ⟨bs, rest⟩ := ih fun a member => each a (List.mem_cons_of_mem _ member)
    exact ⟨b :: bs, .cons first rest⟩

variable {bs : List β}

theorem forall₂_exists_of_mem (all : List.Forall₂ r as bs) {a : α} (member : a ∈ as) :
    ∃ b ∈ bs, r a b := by
  induction all with
  | nil => cases member
  | cons first _ ih =>
    rcases List.mem_cons.mp member with rfl | member
    · exact ⟨_, List.mem_cons_self, first⟩
    · obtain ⟨b, listed, holds⟩ := ih member
      exact ⟨b, List.mem_cons_of_mem _ listed, holds⟩

theorem forall₂_imp_mem {q : α → β → Prop} (all : List.Forall₂ r as bs)
    (imp : ∀ a ∈ as, ∀ b ∈ bs, r a b → q a b) : List.Forall₂ q as bs := by
  rw [List.forall₂_iff_zip] at all ⊢
  refine ⟨all.1, fun {a b} member => ?_⟩
  obtain ⟨left, right⟩ := List.of_mem_zip member
  exact imp a left b right (all.2 member)

theorem forall₂_getElem? (all : List.Forall₂ r as bs) (i : Nat) : Option.Rel r as[i]? bs[i]? := by
  induction all generalizing i with
  | nil => exact .none
  | cons first _ ih =>
    cases i with
    | zero => exact .some first
    | succ i => simpa using ih i

theorem map_eq_map_of_forall₂ {γ : Type} {f : α → γ} {g : β → γ}
    (all : List.Forall₂ (fun a b => f a = g b) as bs) : as.map f = bs.map g := by
  induction all with
  | nil => rfl
  | cons first _ ih => rw [List.map_cons, List.map_cons, first, ih]

end Scriptlet
