namespace Scriptlet.Text

def characterAt? (s : String) (i : Nat) : Option Char :=
  let p := s.startPos.nextn i
  if h : p = s.endPos then none else some (p.get h)

theorem characterAt?_eq (s : String) (i : Nat) : characterAt? s i = s.toList[i]? := by
  have splits := String.splits_nextn_startPos s i
  rw [← List.head?_drop]
  simp only [characterAt?]
  split
  · next h =>
    have rest := splits.eq_endPos_iff.1 h
    rw [String.ofList_eq_empty_iff.1 rest]
    rfl
  · next h =>
    obtain ⟨rest, eq⟩ := splits.exists_eq_singleton_append h
    have chars := congrArg String.toList eq
    rw [String.toList_ofList, String.toList_append, String.toList_singleton] at chars
    rw [chars]
    rfl

end Scriptlet.Text
