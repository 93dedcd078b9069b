import Scriptlet.Syntax

namespace Scriptlet

structure Bindings (α : Type) where
  entries : List (Name × α)
  deriving Inhabited

namespace Bindings

variable {α : Type}

def empty : Bindings α := ⟨[]⟩

def get? (b : Bindings α) (x : Name) : Option α := b.entries.lookup x

def has (b : Bindings α) (x : Name) : Bool := (b.get? x).isSome

def names (b : Bindings α) : List Name := b.entries.map (·.1)

def replaceEntry (x : Name) (a : α) : List (Name × α) → List (Name × α)
  | [] => []
  | (y, b) :: r => if x == y then (y, a) :: r else (y, b) :: replaceEntry x a r

/-- Binds `x` to `a`, in its old place or, if it is new, before the others. -/
def put (b : Bindings α) (x : Name) (a : α) : Bindings α :=
  if b.has x then ⟨replaceEntry x a b.entries⟩ else ⟨(x, a) :: b.entries⟩

/-- Binds the names one after the other; of a name that occurs twice the last binding counts. -/
def ofPairs (ps : List (Name × α)) : Bindings α :=
  ps.foldl (fun b p => b.put p.1 p.2) empty

theorem lookup_cons (x y : Name) (a : α) (entries : List (Name × α)) :
    ((x, a) :: entries).lookup y = if y = x then some a else entries.lookup y := by
  rw [List.lookup_cons]
  by_cases h : y = x <;> simp only [h, beq_self_eq_true, beq_eq_false_iff_ne.2, ne_eq,
    not_false_eq_true, ↓reduceIte]

theorem lookup_replaceEntry (x y : Name) (a : α) (entries : List (Name × α)) :
    (replaceEntry x a entries).lookup y =
      if y = x then (entries.lookup y).map fun _ => a else entries.lookup y := by
  induction entries with
  | nil => split <;> rfl
  | cons e r ih =>
    obtain ⟨z, c⟩ := e
    by_cases hz : x = z
    · subst hz
      simp only [replaceEntry, beq_self_eq_true, ↓reduceIte, lookup_cons]
      by_cases hy : y = x <;> simp only [hy, ↓reduceIte, Option.map_some]
    · have hne : (x == z) = false := beq_eq_false_iff_ne.2 hz
      simp only [replaceEntry, hne, Bool.false_eq_true, ↓reduceIte, lookup_cons, ih]
      by_cases hy : y = z
      · have : z ≠ x := fun e => hz e.symm
        simp only [hy, ↓reduceIte, this]
      · simp only [hy, ↓reduceIte]

theorem get?_put (b : Bindings α) (x y : Name) (a : α) :
    (b.put x a).get? y = if y = x then some a else b.get? y := by
  unfold put
  split
  · next bound =>
    simp only [get?, lookup_replaceEntry]
    by_cases hy : y = x
    · obtain ⟨c, hc⟩ := Option.isSome_iff_exists.1 bound
      rw [get?] at hc
      simp only [hy, ↓reduceIte, hc, Option.map_some]
    · simp only [hy, ↓reduceIte]
  · simp only [get?, lookup_cons]

end Bindings

end Scriptlet
