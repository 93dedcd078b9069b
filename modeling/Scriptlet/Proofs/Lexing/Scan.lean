import Scriptlet.Proofs.Lexing.Numbers

namespace Scriptlet.Lexeme

theorem sign_some {c : Char} {cs : List Char} {f : Fixed} {n : Nat} (h : sign c cs = some (f, n)) :
    c :: cs.take n = f.spelling.toList := by
  unfold sign at h
  split at h <;> cases h <;> rfl

theorem le_of_sign {c : Char} {cs : List Char} {f : Fixed} (punct : f ∉ Fixed.words)
    (front : f.spelling.toList <+: c :: cs) :
    ∃ f' n, sign c cs = some (f', n) ∧ f.spelling.toList.length ≤ (c :: cs.take n).length := by
  obtain ⟨rest, eq⟩ := front
  unfold sign
  cases f
  all_goals first | exact absurd (by decide) punct | skip
  all_goals
    simp only [Fixed.spelling, String.reduceToList, List.cons_append, List.nil_append,
      List.cons.injEq] at eq
    obtain ⟨rfl, rfl⟩ := eq
  all_goals split <;> simp_all [Fixed.spelling]

theorem class_of_quote {q : Char} (quote : q = '"' ∨ q = '\'') {cls : Class}
    (starts : cls.Starts q) : cls = .str := by
  cases cls with
  | str => rfl
  | fixed f =>
    rcases fixed_cases f with ⟨_, _, alpha⟩ | ⟨_, other⟩
    · have alpha := alpha q starts
      rcases quote with rfl | rfl <;> cases alpha
    · obtain ⟨_, _, _, double, single⟩ := other q starts
      exact absurd quote (not_or.mpr ⟨double, single⟩)
  | _ => rcases quote with rfl | rfl <;> exact absurd starts (by simp [Class.Starts])

theorem string_eq {q : Char} {w cs : List Char} (lexeme : w ∈ Class.str.language)
    (front : w <+: q :: cs) :
    ∃ n, string q cs = some n ∧ q :: cs.take n = w := by
  obtain ⟨q', body, _, closed, rfl⟩ := mem_str.mp lexeme
  obtain ⟨rfl, rest, eq⟩ := List.cons_prefix_cons.mp front
  have all : ∀ c ∈ body, decide (c ≠ q') := fun c member =>
    decide_eq_true (ne_of_mem_of_not_mem member closed)
  have run : cs.takeWhile (· ≠ q') = body := by
    exact (run_eq all (v := []) (by simp) ⟨rest, eq⟩).1
  refine ⟨body.length + 1, ?_, ?_⟩
  · have inside : body.length < cs.length := by
      rw [← eq]
      simp only [List.length_append, List.length_cons]
      omega
    simp only [string, run, inside, if_true]
  · rw [← eq, List.take_append_of_le_length (by simp), List.take_of_length_le (by simp)]

theorem string_some {q : Char} {cs : List Char} {n : Nat} (h : string q cs = some n) :
    ∃ body, q ∉ body ∧ cs.take n = body ++ [q] := by
  simp only [string] at h
  split at h
  · rename_i inside
    cases h
    refine ⟨cs.takeWhile (· ≠ q), fun member => ?_, ?_⟩
    · simpa using run_all cs q member
    · have stop := List.head?_dropWhile_not (· ≠ q) cs
      cases after : cs.dropWhile (· ≠ q) with
      | nil =>
        have all := cs.takeWhile_append_dropWhile (p := (· ≠ q))
        rw [after, List.append_nil] at all
        rw [all] at inside
        exact absurd inside (Nat.lt_irrefl _)
      | cons x rest =>
        rw [after, List.head?_cons] at stop
        have same : x = q := by simpa using stop
        rw [List.take_add, take_run, drop_run, after, same]
        rfl
  · cases h

theorem longest_string {q : Char} (quote : q = '"' ∨ q = '\'') {cs : List Char} {n : Nat}
    (h : string q cs = some n) : Longest .str (q :: cs.take n) (q :: cs) := by
  obtain ⟨body, closed, eq⟩ := string_some h
  refine ⟨mem_str.mpr ⟨q, body, quote, closed, by rw [eq]⟩, cons_take_prefix _ _ _, ?_, by simp⟩
  intro cls w lexeme front
  have cls := class_of_quote quote (starts_of_mem lexeme front)
  subst cls
  obtain ⟨m, found, eq⟩ := string_eq lexeme front
  rw [h] at found
  cases found
  rw [eq]

theorem no_string {q : Char} (quote : q = '"' ∨ q = '\'') {cs : List Char} (h : string q cs = none)
    {cls : Class} {w : List Char} (lexeme : w ∈ cls.language) : ¬ w <+: q :: cs := by
  intro front
  have cls := class_of_quote quote (starts_of_mem lexeme front)
  subst cls
  obtain ⟨n, some_, _⟩ := string_eq lexeme front
  rw [h] at some_
  cases some_

theorem name_of_alpha {c : Char} (alpha : c.isAlpha) {cls : Class} {w cs : List Char}
    (lexeme : w ∈ cls.language) (front : w <+: c :: cs) : w ∈ Class.word.language := by
  have starts := starts_of_mem lexeme front
  have noDigit : c.isDigit = false := by
    cases digit : c.isDigit with
    | false => rfl
    | true => rw [isDigit_ne_alpha digit] at alpha; cases alpha
  cases cls with
  | word => exact lexeme
  | fixed f =>
    rcases fixed_cases f with ⟨_, name, _⟩ | ⟨_, other⟩
    · exact mem_fixed.mp lexeme ▸ name
    · have noAlpha := (other c starts).1
      rw [alpha] at noAlpha
      cases noAlpha
  | real =>
    rcases starts with digit | rfl
    · rw [noDigit] at digit
      cases digit
    · cases alpha
  | int =>
    rw [Class.Starts, noDigit] at starts
    cases starts
  | str => rcases starts with rfl | rfl <;> cases alpha

theorem word_cases (c : Char) (cs : List Char) :
    (∃ f, word c cs = (.fixed f, (cs.takeWhile isWordChar).length) ∧
      f.spelling.toList = c :: cs.takeWhile isWordChar) ∨
    word c cs = (.word, (cs.takeWhile isWordChar).length) ∧
      ∀ f ∈ Fixed.words, f.spelling.toList ≠ c :: cs.takeWhile isWordChar := by
  simp only [word]
  split
  · rename_i f found
    have eq := List.find?_some found
    refine .inl ⟨f, rfl, ?_⟩
    rw [beq_iff_eq.mp eq, String.toList_ofList]
  · rename_i absent
    refine .inr ⟨rfl, fun f listed eq => ?_⟩
    have other := List.find?_eq_none.mp absent f listed
    rw [← eq, String.ofList_toList] at other
    exact other (beq_self_eq_true _)

theorem longest_word {c : Char} (alpha : c.isAlpha) (cs : List Char) :
    Longest (word c cs).1 (c :: cs.take (word c cs).2) (c :: cs) := by
  have name : c :: cs.takeWhile isWordChar ∈ Class.word.language :=
    mem_word.mpr ⟨c, _, alpha, run_all cs, rfl⟩
  have front : c :: cs.takeWhile isWordChar <+: c :: cs :=
    List.cons_prefix_cons.mpr ⟨rfl, List.takeWhile_prefix _⟩
  have longest (cls : Class) (w : List Char) (lexeme : w ∈ cls.language) (front : w <+: c :: cs) :
      w.length ≤ (c :: cs.takeWhile isWordChar).length := by
    obtain ⟨d, v, _, all, rfl⟩ := mem_word.mp (name_of_alpha alpha lexeme front)
    exact Nat.succ_le_succ (length_le_run all (List.cons_prefix_cons.mp front).2)
  rcases word_cases c cs with ⟨f, eq, spelling⟩ | ⟨eq, unreserved⟩
  · rw [eq, take_run]
    exact ⟨mem_fixed.mpr spelling.symm, front, longest, by simp⟩
  · rw [eq, take_run]
    refine ⟨name, front, longest, fun _ f lexeme => ?_⟩
    have same := (mem_fixed.mp lexeme).symm
    rcases fixed_cases f with ⟨reserved, _⟩ | ⟨_, other⟩
    · exact unreserved f reserved same
    · have noAlpha := (other c (by rw [same, List.head?_cons])).1
      rw [alpha] at noAlpha
      cases noAlpha

theorem sign_of_other {c : Char} (noDigit : c.isDigit = false) (noPoint : c ≠ '.')
    (noQuote : ¬(c = '"' ∨ c = '\'')) (noAlpha : c.isAlpha = false) {cls : Class}
    (starts : cls.Starts c) : ∃ f, cls = .fixed f ∧ f ∉ Fixed.words := by
  cases cls with
  | fixed f =>
    rcases fixed_cases f with ⟨_, _, alpha⟩ | ⟨punct, _⟩
    · rw [alpha c starts] at noAlpha
      cases noAlpha
    · exact ⟨f, rfl, punct⟩
  | real =>
    rcases starts with digit | point
    · rw [noDigit] at digit
      cases digit
    · exact absurd point noPoint
  | int =>
    rw [Class.Starts, noDigit] at starts
    cases starts
  | str => exact absurd starts noQuote
  | word =>
    rw [Class.Starts, noAlpha] at starts
    cases starts

/-- The lexeme that scanning finds is the longest of any rule. -/
theorem longest_of_scan {c : Char} {cs : List Char} {cls : Class} {n : Nat}
    (h : scan c cs = some (cls, n)) : Longest cls (c :: cs.take n) (c :: cs) := by
  unfold scan at h
  split at h
  · rename_i digit
    have longest := longest_number digit cs
    rw [Option.some.inj h] at longest
    exact longest
  split at h
  · rename_i point
    subst point
    obtain ⟨m, found, eq⟩ := Option.map_eq_some_iff.mp h
    cases eq
    exact longest_pointed found
  split at h
  · rename_i quote
    obtain ⟨m, found, eq⟩ := Option.map_eq_some_iff.mp h
    cases eq
    exact longest_string quote found
  split at h
  · rename_i alpha
    have longest := longest_word alpha cs
    rw [Option.some.inj h] at longest
    exact longest
  · rename_i noDigit noPoint noQuote noAlpha
    obtain ⟨⟨f, m⟩, found, eq⟩ := Option.map_eq_some_iff.mp h
    cases eq
    refine ⟨mem_fixed.mpr (sign_some found), cons_take_prefix _ _ _, fun cls w lexeme front => ?_,
      by simp⟩
    obtain ⟨f', rfl, punct⟩ := sign_of_other (eq_false_of_ne_true noDigit) noPoint noQuote
      (eq_false_of_ne_true noAlpha) (starts_of_mem lexeme front)
    rw [mem_fixed.mp lexeme] at front ⊢
    obtain ⟨f'', n, found', bound⟩ := le_of_sign punct front
    rw [found] at found'
    cases found'
    exact bound

theorem no_lexeme_of_scan {c : Char} {cs : List Char} (h : scan c cs = none) {cls : Class}
    {w : List Char} (lexeme : w ∈ cls.language) : ¬ w <+: c :: cs := by
  unfold scan at h
  split at h
  · cases h
  split at h
  · rename_i point
    subst point
    exact no_pointed (Option.map_eq_none_iff.mp h) lexeme
  split at h
  · rename_i quote
    exact no_string quote (Option.map_eq_none_iff.mp h) lexeme
  split at h
  · cases h
  · rename_i noDigit noPoint noQuote noAlpha
    intro front
    obtain ⟨f, rfl, punct⟩ := sign_of_other (eq_false_of_ne_true noDigit) noPoint noQuote
      (eq_false_of_ne_true noAlpha) (starts_of_mem lexeme front)
    rw [mem_fixed.mp lexeme] at front
    obtain ⟨f', n, found, _⟩ := le_of_sign punct front
    rw [Option.map_eq_none_iff.mp h] at found
    cases found

theorem scan_spelling (f : Fixed) :
    ∃ c cs n, f.spelling.toList = c :: cs ∧ scan c cs = some (.fixed f, n) := by
  cases f <;> exact ⟨_, _, _, rfl, rfl⟩

theorem spelling_injective {f f' : Fixed} (same : f.spelling.toList = f'.spelling.toList) :
    f = f' := by
  obtain ⟨c, cs, n, eq, found⟩ := scan_spelling f
  obtain ⟨c', cs', n', eq', found'⟩ := scan_spelling f'
  obtain ⟨rfl, rfl⟩ := List.cons_eq_cons.mp (eq.symm.trans (same.trans eq'))
  cases found.symm.trans found'
  rfl

theorem ne_nil_of_mem {cls : Class} {w : List Char} (h : w ∈ cls.language) : w ≠ [] := by
  cases cls with
  | fixed f =>
    obtain ⟨c, cs, _, eq, _⟩ := scan_spelling f
    rw [mem_fixed.mp h, eq]
    exact List.cons_ne_nil c cs
  | real =>
    rintro rfl
    rcases mem_real.mp h with ⟨ds, _, _, eq⟩ | ⟨ds, sign, es, _, _, _, _, eq⟩ |
      ⟨ds, fs, mark, es, _, _, _, _, _, eq⟩
    · cases eq
    · cases eq
    · exact absurd eq.symm (List.append_ne_nil_of_right_ne_nil _ (List.cons_ne_nil _ _))
  | int => exact (mem_int.mp h).1
  | str =>
    obtain ⟨q, cs, _, _, rfl⟩ := mem_str.mp h
    exact List.cons_ne_nil _ _
  | word =>
    obtain ⟨c, cs, _, _, rfl⟩ := mem_word.mp h
    exact List.cons_ne_nil c cs

theorem class_eq {cls cls' : Class} {w : List Char} (other : cls = .real ∨ cls = .int ∨ cls = .str)
    (h : w ∈ cls.language) (h' : w ∈ cls'.language) : cls' = cls := by
  have point_of_real (real : w ∈ Class.real.language) (int : w ∈ Class.int.language) : False := by
    have digits := (mem_int.mp int).2
    have point : '.' ∈ w := by
      rcases mem_real.mp real with ⟨ds, _, _, rfl⟩ | ⟨ds, sign, es, _, _, _, _, rfl⟩ |
        ⟨ds, fs, mark, es, _, _, _, _, _, rfl⟩
      · exact List.mem_cons_self
      · exact List.mem_cons_self
      · exact List.mem_append_right _ List.mem_cons_self
    exact absurd (digits '.' point) (by decide)
  obtain ⟨c, v, rfl⟩ := List.exists_cons_of_ne_nil (ne_nil_of_mem h)
  have starts := starts_of_mem h (List.prefix_refl _)
  have starts' := starts_of_mem h' (List.prefix_refl _)
  rcases other with rfl | rfl | rfl
  · rcases starts with digit | rfl
    · rcases class_of_digit digit starts' with rfl | rfl
      · rfl
      · exact absurd h' (point_of_real h)
    · exact class_of_point starts'
  · rcases class_of_digit starts starts' with rfl | rfl
    · exact absurd h (point_of_real h')
    · rfl
  · exact class_of_quote starts starts'

theorem Longest.class_unique {cls cls' : Class} {w text : List Char} (h : Longest cls w text)
    (h' : Longest cls' w text) : cls = cls' := by
  match cls, cls' with
  | .real, _ => exact (class_eq (.inl rfl) h.lexeme h'.lexeme).symm
  | .int, _ => exact (class_eq (.inr (.inl rfl)) h.lexeme h'.lexeme).symm
  | .str, _ => exact (class_eq (.inr (.inr rfl)) h.lexeme h'.lexeme).symm
  | _, .real => exact class_eq (.inl rfl) h'.lexeme h.lexeme
  | _, .int => exact class_eq (.inr (.inl rfl)) h'.lexeme h.lexeme
  | _, .str => exact class_eq (.inr (.inr rfl)) h'.lexeme h.lexeme
  | .word, .word => rfl
  | .word, .fixed f => exact absurd h'.lexeme (h.reserved rfl f)
  | .fixed f, .word => exact absurd h.lexeme (h'.reserved rfl f)
  | .fixed f, .fixed f' =>
    rw [spelling_injective ((mem_fixed.mp h.lexeme).symm.trans (mem_fixed.mp h'.lexeme))]

theorem scan_of_longest {c : Char} {cs w : List Char} {cls : Class}
    (h : Longest cls w (c :: cs)) : ∃ n, scan c cs = some (cls, n) ∧ c :: cs.take n = w := by
  cases found : scan c cs with
  | none => exact absurd h.front (no_lexeme_of_scan found h.lexeme)
  | some p =>
    obtain ⟨cls', n⟩ := p
    have h' := longest_of_scan found
    have le := h.longest _ _ h'.lexeme h'.front
    have le' := h'.longest _ _ h.lexeme h.front
    have same : c :: cs.take n = w :=
      (List.prefix_of_prefix_length_le h'.front h.front le).eq_of_length (Nat.le_antisymm le le')
    rw [same] at h'
    exact ⟨n, by rw [h'.class_unique h], same⟩

theorem scan_eq_none_iff {c : Char} {cs : List Char} :
    scan c cs = none ↔ ∀ cls w, w ∈ Class.language cls → ¬ w <+: c :: cs := by
  refine ⟨fun none cls w => no_lexeme_of_scan none, fun none => ?_⟩
  cases found : scan c cs with
  | none => rfl
  | some p =>
    have h := longest_of_scan found
    exact absurd h.front (none _ _ h.lexeme)

end Scriptlet.Lexeme
