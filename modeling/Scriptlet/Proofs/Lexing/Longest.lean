import Scriptlet.Proofs.Lexing.Rules

namespace Scriptlet.Lexeme

/-- The lexeme at the front of the text; a reserved word wins over the name of the same letters. -/
structure Longest (cls : Class) (w text : List Char) : Prop where
  lexeme : w ∈ cls.language
  front : w <+: text
  longest : ∀ cls' w', w' ∈ Class.language cls' → w' <+: text → w'.length ≤ w.length
  reserved : cls = .word → ∀ f, w ∉ (Class.fixed f).language

section Runs

variable {p : Char → Bool} {w text : List Char}

theorem length_le_run (all : ∀ c ∈ w, p c) (front : w <+: text) :
    w.length ≤ (text.takeWhile p).length := by
  obtain ⟨rest, rfl⟩ := front
  rw [List.takeWhile_append_of_pos all, List.length_append]
  exact Nat.le_add_right _ _

theorem run_eq (all : ∀ c ∈ w, p c) {x : Char} {v : List Char} (stop : p x = false)
    (front : w ++ x :: v <+: text) :
    text.takeWhile p = w ∧ x :: v <+: text.drop (text.takeWhile p).length := by
  obtain ⟨rest, rfl⟩ := front
  have run : (w ++ x :: v ++ rest).takeWhile p = w := by
    rw [List.append_assoc, List.takeWhile_append_of_pos all, List.cons_append,
      List.takeWhile_cons_of_neg (by simp [stop]), List.append_nil]
  rw [run]
  refine ⟨rfl, rest, ?_⟩
  rw [List.append_assoc, List.drop_left]

theorem run_all (text : List Char) : ∀ c ∈ text.takeWhile p, p c := by
  intro c member
  exact List.all_eq_true.mp List.all_takeWhile c member

theorem take_run (text : List Char) : text.take (text.takeWhile p).length = text.takeWhile p :=
  (List.prefix_iff_eq_take.mp (List.takeWhile_prefix p)).symm

theorem drop_run (text : List Char) :
    text.drop (text.takeWhile p).length = text.dropWhile p := by
  have split := List.take_append_drop (text.takeWhile p).length text
  rw [take_run] at split
  exact List.append_cancel_left (split.trans List.takeWhile_append_dropWhile.symm)

end Runs

theorem isDigit_ne_alpha {c : Char} (h : c.isDigit) : c.isAlpha = false := by
  simp only [Char.isDigit, Char.isAlpha, Char.isUpper, Char.isLower] at h ⊢
  grind

def Class.Starts : Class → Char → Prop
  | fixed f, c => f.spelling.toList.head? = some c
  | real, c => c.isDigit ∨ c = '.'
  | int, c => c.isDigit
  | str, c => c = '"' ∨ c = '\''
  | word, c => c.isAlpha

theorem starts_of_mem {cls : Class} {w text : List Char} {c : Char} (h : w ∈ cls.language)
    (front : w <+: c :: text) : cls.Starts c := by
  have head (d : Char) (v : List Char) (eq : w = d :: v) : d = c := by
    rw [eq] at front
    exact (List.cons_prefix_cons.mp front).1
  cases cls with
  | fixed f =>
    have eq := mem_fixed.mp h
    cases same : f.spelling.toList with
    | nil => cases f <;> cases same
    | cons d v =>
      rw [Class.Starts, same, List.head?_cons, head d v (eq.trans same)]
  | real =>
    rcases mem_real.mp h with ⟨ds, _, _, eq⟩ | ⟨ds, sign, es, _, _, _, _, eq⟩ |
      ⟨ds, fs, mark, es, ne, all, _, _, _, eq⟩
    · exact .inr (head _ _ eq).symm
    · exact .inr (head _ _ eq).symm
    · cases ds with
      | nil => exact absurd rfl ne
      | cons d ds => exact .inl (head _ _ eq ▸ all d List.mem_cons_self)
  | int =>
    obtain ⟨ne, all⟩ := mem_int.mp h
    cases w with
    | nil => exact absurd rfl ne
    | cons d v => exact head _ _ rfl ▸ all d List.mem_cons_self
  | str =>
    obtain ⟨q, cs, quote, _, eq⟩ := mem_str.mp h
    exact head _ _ eq ▸ quote
  | word =>
    obtain ⟨d, cs, alpha, _, eq⟩ := mem_word.mp h
    exact head _ _ eq ▸ alpha

theorem fixed_cases (f : Fixed) :
    f ∈ Fixed.words ∧ f.spelling.toList ∈ Class.word.language ∧
        (∀ c, f.spelling.toList.head? = some c → c.isAlpha) ∨
      f ∉ Fixed.words ∧ ∀ c, f.spelling.toList.head? = some c →
        c.isAlpha = false ∧ c.isDigit = false ∧ c ≠ '.' ∧ c ≠ '"' ∧ c ≠ '\'' := by
  have form : f ∈ Fixed.words ∧ f.spelling.toList.head?.any Char.isAlpha ∧
      f.spelling.toList.all isWordChar ∨ f ∉ Fixed.words ∧ f.spelling.toList.head?.all fun c =>
        !c.isAlpha && !c.isDigit && c != '.' && c != '"' && c != '\'' := by
    cases f <;> decide
  rcases form with ⟨reserved, alpha, all⟩ | ⟨punct, other⟩
  · cases eq : f.spelling.toList with
    | nil => rw [eq] at alpha; cases alpha
    | cons c cs =>
      rw [eq] at alpha all
      have tail : ∀ d ∈ cs, isWordChar d := fun d member =>
        List.all_eq_true.mp all d (List.mem_cons_of_mem _ member)
      refine .inl ⟨reserved, mem_word.mpr ⟨c, cs, alpha, tail, rfl⟩, fun d eq => ?_⟩
      cases eq
      exact alpha
  · refine .inr ⟨punct, fun c eq => ?_⟩
    rw [eq] at other
    simpa [and_assoc] using other

end Scriptlet.Lexeme
