import Scriptlet.Proofs.Lexing.Longest

namespace Scriptlet.Lexeme

theorem take_digitCount (cs : List Char) : cs.take (digitCount cs) = cs.takeWhile Char.isDigit :=
  take_run cs

theorem take_digits (n : Nat) (pre cs : List Char) (len : pre.length = n) :
    (pre ++ cs).take (n + digitCount cs) = pre ++ cs.takeWhile Char.isDigit := by
  rw [← len, List.take_length_add_append, digitCount, take_run]

theorem digits_le {ds cs : List Char} (all : ∀ d ∈ ds, d.isDigit) (front : ds <+: cs) :
    ds.length ≤ digitCount cs := length_le_run all front

theorem optionalExponent_spec (cs : List Char) :
    ∃ mark es, (mark = [] ∨ mark = ['e'] ∨ mark = ['e', '-']) ∧ (∀ d ∈ es, d.isDigit) ∧
      cs.take (optionalExponent cs) = mark ++ es := by
  unfold optionalExponent
  split
  · rename_i r
    exact ⟨['e', '-'], _, .inr (.inr rfl), run_all r, take_digits 2 ['e', '-'] r rfl⟩
  · rename_i r _
    exact ⟨['e'], _, .inr (.inl rfl), run_all r, take_digits 1 ['e'] r rfl⟩
  · exact ⟨[], [], .inl rfl, by simp, List.take_zero⟩

theorem exponents_unsigned {r : List Char} (unsigned : r.head? ≠ some '-') :
    optionalExponent ('e' :: r) = 1 + digitCount r ∧
      exponent ('e' :: r) = if digitCount r = 0 then 0 else 1 + digitCount r := by
  cases r with
  | nil => exact ⟨rfl, rfl⟩
  | cons d r =>
    have other : d ≠ '-' := fun eq => unsigned (congrArg some eq)
    constructor
    · unfold optionalExponent
      split
      · rename_i eq
        exact absurd (by cases eq; rfl) other
      · rename_i eq
        cases eq
        rfl
      · rename_i unmarked
        exact absurd rfl (unmarked (d :: r))
    · unfold exponent
      split
      · rename_i eq
        exact absurd (by cases eq; rfl) other
      · rename_i eq
        cases eq
        rfl
      · rename_i unmarked
        exact absurd rfl (unmarked (d :: r))

theorem le_optionalExponent {mark es cs : List Char} (marked : mark = ['e'] ∨ mark = ['e', '-'])
    (all : ∀ d ∈ es, d.isDigit) (front : mark ++ es <+: cs) :
    (mark ++ es).length ≤ optionalExponent cs := by
  obtain ⟨rest, rfl⟩ := front
  have bound := digits_le all (List.prefix_append es rest)
  rcases marked with rfl | rfl
  · by_cases signed : (es ++ rest).head? = some '-'
    · have none : es = [] := by
        cases es with
        | nil => rfl
        | cons d es => cases signed; exact absurd (all '-' List.mem_cons_self) (by decide)
      subst none
      cases rest with
      | nil => cases signed
      | cons d rest =>
        cases signed
        change 1 ≤ 2 + digitCount rest
        omega
    · change es.length + 1 ≤ optionalExponent ('e' :: (es ++ rest))
      rw [(exponents_unsigned signed).1]
      omega
  · change es.length + 2 ≤ 2 + digitCount (es ++ rest)
    omega

theorem exponent_spec {cs : List Char} (some_ : exponent cs ≠ 0) :
    ∃ sign es, (sign = [] ∨ sign = ['-']) ∧ es ≠ [] ∧ (∀ d ∈ es, d.isDigit) ∧
      cs.take (exponent cs) = 'e' :: (sign ++ es) := by
  unfold exponent at some_ ⊢
  split at some_
  · rename_i r
    split at some_
    · exact absurd rfl some_
    · rename_i ne
      rw [if_neg ne]
      exact ⟨['-'], _, .inr rfl, List.length_pos_iff.mp (Nat.pos_of_ne_zero ne), run_all r,
        take_digits 2 ['e', '-'] r rfl⟩
  · rename_i r _
    split at some_
    · exact absurd rfl some_
    · rename_i ne
      rw [if_neg ne]
      exact ⟨[], _, .inl rfl, List.length_pos_iff.mp (Nat.pos_of_ne_zero ne), run_all r,
        take_digits 1 ['e'] r rfl⟩
  · exact absurd rfl some_

theorem le_exponent {sign es cs : List Char} (signed : sign = [] ∨ sign = ['-']) (ne : es ≠ [])
    (all : ∀ d ∈ es, d.isDigit) (front : 'e' :: (sign ++ es) <+: cs) :
    (sign ++ es).length + 1 ≤ exponent cs := by
  obtain ⟨rest, rfl⟩ := front
  have bound := digits_le all (List.prefix_append es rest)
  have pos := List.length_pos_iff.mpr ne
  have some_ : digitCount (es ++ rest) ≠ 0 := by omega
  rcases signed with rfl | rfl
  · have unsigned : (es ++ rest).head? ≠ some '-' := by
      cases es with
      | nil => exact absurd rfl ne
      | cons d es =>
        intro eq
        cases eq
        exact absurd (all '-' List.mem_cons_self) (by decide)
    change es.length + 1 ≤ exponent ('e' :: (es ++ rest))
    rw [(exponents_unsigned unsigned).2, if_neg some_]
    omega
  · change es.length + 2 ≤ if digitCount (es ++ rest) = 0 then 0 else 2 + digitCount (es ++ rest)
    rw [if_neg some_]
    omega

theorem le_fraction {fs mark es r : List Char} (fraction : ∀ d ∈ fs, d.isDigit)
    (marked : mark = [] ∨ mark = ['e'] ∨ mark = ['e', '-']) (all : ∀ d ∈ es, d.isDigit)
    (front : fs ++ mark ++ es <+: r) :
    (fs ++ mark ++ es).length ≤ digitCount r + optionalExponent (r.drop (digitCount r)) := by
  rcases marked with rfl | marked
  · rw [List.append_nil] at front ⊢
    have digits : ∀ d ∈ fs ++ es, d.isDigit := fun d member =>
      (List.mem_append.mp member).elim (fraction d) (all d)
    exact Nat.le_add_right_of_le (digits_le digits front)
  · obtain ⟨v, eq⟩ : ∃ v, mark ++ es = 'e' :: v := by
      rcases marked with rfl | rfl <;> exact ⟨_, rfl⟩
    rw [List.append_assoc] at front ⊢
    have followed : fs ++ 'e' :: v <+: r := eq ▸ front
    obtain ⟨run, rest⟩ := run_eq fraction (by decide) followed
    have bound := le_optionalExponent marked all (eq ▸ rest)
    rw [← digitCount] at bound
    rw [List.length_append, digitCount, run]
    rw [digitCount, run] at bound
    exact Nat.add_le_add_left bound fs.length

theorem cons_take_digits {c : Char} (digit : c.isDigit) (cs : List Char) :
    (c :: cs).takeWhile Char.isDigit = c :: cs.take (digitCount cs) := by
  rw [List.takeWhile_cons_of_pos digit, digitCount, take_run]

theorem class_of_digit {c : Char} (digit : c.isDigit) {cls : Class} (starts : cls.Starts c) :
    cls = .real ∨ cls = .int := by
  have noAlpha := isDigit_ne_alpha digit
  cases cls with
  | real => exact .inl rfl
  | int => exact .inr rfl
  | fixed f =>
    exfalso
    rcases fixed_cases f with ⟨_, _, alpha⟩ | ⟨_, other⟩
    · rw [alpha c starts] at noAlpha
      cases noAlpha
    · have other := (other c starts).2.1
      rw [digit] at other
      cases other
  | str => rcases starts with rfl | rfl <;> cases digit
  | word =>
    rw [starts] at noAlpha
    cases noAlpha

theorem cons_take_prefix (c : Char) (cs : List Char) (n : Nat) : c :: cs.take n <+: c :: cs :=
  List.cons_prefix_cons.mpr ⟨rfl, List.take_prefix n cs⟩

theorem digitCount_le (cs : List Char) : digitCount cs ≤ cs.length :=
  (List.takeWhile_prefix _).length_le

theorem optionalExponent_le (cs : List Char) : optionalExponent cs ≤ cs.length := by
  unfold optionalExponent
  split
  · rename_i r
    have bound := digitCount_le r
    simp only [List.length_cons]
    omega
  · rename_i r _
    have bound := digitCount_le r
    simp only [List.length_cons]
    omega
  · exact Nat.zero_le _

theorem exponent_le (cs : List Char) : exponent cs ≤ cs.length := by
  unfold exponent
  split
  · rename_i r
    have bound := digitCount_le r
    simp only [List.length_cons]
    split <;> omega
  · rename_i r _
    have bound := digitCount_le r
    simp only [List.length_cons]
    split <;> omega
  · exact Nat.zero_le _

theorem number_cases (cs : List Char) :
    (∃ r, cs.drop (digitCount cs) = '.' :: r ∧ number cs = (.real, digitCount cs + 1 +
      (digitCount r + optionalExponent (r.drop (digitCount r))))) ∨
    (∀ r, cs.drop (digitCount cs) ≠ '.' :: r) ∧ number cs = (.int, digitCount cs) := by
  simp only [number]
  split
  · rename_i r rest
    exact .inl ⟨r, rest, by rw [Nat.add_assoc (digitCount cs + 1)]⟩
  · rename_i point
    exact .inr ⟨fun r rest => point r rest, rfl⟩

section Leading

variable {c : Char} {cs w : List Char}

theorem length_digits (digit : c.isDigit) :
    ((c :: cs).takeWhile Char.isDigit).length = digitCount cs + 1 := by
  rw [List.takeWhile_cons_of_pos digit, List.length_cons, digitCount]

theorem leading_digits (digit : c.isDigit) : ∀ d ∈ c :: cs.take (digitCount cs), d.isDigit :=
  cons_take_digits digit cs ▸ run_all (c :: cs)

theorem le_int (digit : c.isDigit) (lexeme : w ∈ Class.int.language) (front : w <+: c :: cs) :
    w.length ≤ digitCount cs + 1 :=
  length_digits digit ▸ length_le_run (mem_int.mp lexeme).2 front

/-- A real that starts with a digit has its point after all of the digits there. -/
theorem point_of_leading (digit : c.isDigit) (lexeme : w ∈ Class.real.language)
    (front : w <+: c :: cs) : ∃ fs mark es, (∀ d ∈ fs, d.isDigit) ∧
      (mark = [] ∨ mark = ['e'] ∨ mark = ['e', '-']) ∧ (∀ d ∈ es, d.isDigit) ∧
      '.' :: (fs ++ mark ++ es) <+: cs.drop (digitCount cs) ∧
      w.length = digitCount cs + 1 + ((fs ++ mark ++ es).length + 1) := by
  have noPoint (v : List Char) : ¬ '.' :: v <+: c :: cs := by
    intro front
    rw [← (List.cons_prefix_cons.mp front).1] at digit
    cases digit
  rcases mem_real.mp lexeme with ⟨ds, _, _, rfl⟩ | ⟨ds, sign, es, _, _, _, _, rfl⟩ |
    ⟨ds, fs, mark, es, _, digits, fraction, marked, all, rfl⟩
  · exact absurd front (noPoint _)
  · exact absurd front (noPoint _)
  · obtain ⟨eq, after⟩ := run_eq digits (by decide) front
    have length := @length_digits c cs digit
    rw [length, List.drop_succ_cons] at after
    rw [eq] at length
    exact ⟨fs, mark, es, fraction, marked, all, after, by
      rw [List.length_append, List.length_cons, length]⟩

theorem longest_leading (digit : c.isDigit) {r : List Char}
    (rest : cs.drop (digitCount cs) = '.' :: r) :
    Longest .real (c :: cs.take (digitCount cs + 1 +
      (digitCount r + optionalExponent (r.drop (digitCount r))))) (c :: cs) := by
  obtain ⟨mark, es, marked, all, exponent⟩ := optionalExponent_spec (r.drop (digitCount r))
  have split :
      cs.take (digitCount cs + 1 + (digitCount r + optionalExponent (r.drop (digitCount r)))) =
        cs.take (digitCount cs) ++ '.' :: (r.takeWhile Char.isDigit ++ mark ++ es) := by
    rw [Nat.add_assoc, List.take_add, rest, Nat.add_comm 1, List.take_succ_cons, List.take_add,
      exponent, take_digitCount r, List.append_assoc]
  have enough : digitCount cs + 1 + (digitCount r + optionalExponent (r.drop (digitCount r))) ≤
      cs.length := by
    have bound := optionalExponent_le (r.drop (digitCount r))
    have bound' := digitCount_le r
    have length := congrArg List.length rest
    simp only [List.length_drop, List.length_cons] at bound length
    omega
  refine ⟨mem_real.mpr (.inr (.inr ?_)), cons_take_prefix _ _ _, ?_, by simp⟩
  · exact ⟨_, _, mark, es, List.cons_ne_nil _ _, leading_digits digit, run_all r, marked, all, by
      rw [split, List.cons_append]⟩
  · intro cls w lexeme front
    rw [List.length_cons, List.length_take, Nat.min_eq_left enough]
    rcases class_of_digit digit (starts_of_mem lexeme front) with rfl | rfl
    · obtain ⟨fs, mark, es, fraction, marked, all, after, length⟩ :=
        point_of_leading digit lexeme front
      rw [rest] at after
      have bound := le_fraction fraction marked all (List.cons_prefix_cons.mp after).2
      omega
    · have bound := le_int digit lexeme front
      omega

theorem longest_int (digit : c.isDigit) (noPoint : ∀ r, cs.drop (digitCount cs) ≠ '.' :: r) :
    Longest .int (c :: cs.take (digitCount cs)) (c :: cs) := by
  refine ⟨mem_int.mpr ⟨List.cons_ne_nil _ _, leading_digits digit⟩, cons_take_prefix _ _ _, ?_,
    by simp⟩
  intro cls w lexeme front
  rw [List.length_cons, List.length_take, Nat.min_eq_left (digitCount_le cs)]
  rcases class_of_digit digit (starts_of_mem lexeme front) with rfl | rfl
  · obtain ⟨_, _, _, _, _, _, ⟨after, eq⟩, _⟩ := point_of_leading digit lexeme front
    exact absurd eq.symm (noPoint _)
  · exact le_int digit lexeme front

end Leading

theorem longest_number {c : Char} (digit : c.isDigit) (cs : List Char) :
    Longest (number cs).1 (c :: cs.take (number cs).2) (c :: cs) := by
  rcases number_cases cs with ⟨r, rest, eq⟩ | ⟨noPoint, eq⟩ <;> rw [eq]
  · exact longest_leading digit rest
  · exact longest_int digit noPoint

theorem class_of_point {cls : Class} (starts : cls.Starts '.') : cls = .real := by
  cases cls with
  | real => rfl
  | fixed f =>
    rcases fixed_cases f with ⟨_, _, alpha⟩ | ⟨_, other⟩
    · exact absurd (alpha '.' starts) (by decide)
    · exact absurd rfl (other '.' starts).2.2.1
  | _ => exact absurd starts (by simp [Class.Starts])

theorem le_pointed {w cs : List Char} (lexeme : w ∈ Class.real.language) (front : w <+: '.' :: cs) :
    w.length ≤ digitCount cs + exponent (cs.drop (digitCount cs)) + 1 ∧
      digitCount cs + exponent (cs.drop (digitCount cs)) ≠ 0 := by
  rcases mem_real.mp lexeme with ⟨ds, ne, digits, rfl⟩ |
    ⟨ds, sign, es, digits, signed, ne, all, rfl⟩ | ⟨ds, fs, mark, es, ne, digits, _, _, _, rfl⟩
  · have bound := digits_le digits (List.cons_prefix_cons.mp front).2
    have pos := List.length_pos_iff.mpr ne
    rw [List.length_cons]
    omega
  · obtain ⟨run, after⟩ := run_eq digits (by decide) (List.cons_prefix_cons.mp front).2
    have bound := le_exponent signed ne all after
    rw [← digitCount] at bound
    have count : digitCount cs = ds.length := by rw [digitCount, run]
    simp only [List.length_cons, List.length_append] at bound ⊢
    omega
  · cases ds with
    | nil => exact absurd rfl ne
    | cons d ds =>
      have digit := digits d List.mem_cons_self
      rw [(List.cons_prefix_cons.mp front).1] at digit
      cases digit

theorem longest_pointed {cs : List Char} {n : Nat} (h : pointed cs = some n) :
    Longest .real ('.' :: cs.take n) ('.' :: cs) := by
  simp only [pointed] at h
  split at h
  · cases h
  · rename_i some_
    cases h
    refine ⟨?_, cons_take_prefix _ _ _, ?_, by simp⟩
    · rw [List.take_add]
      by_cases none : exponent (cs.drop (digitCount cs)) = 0
      · rw [none, List.take_zero, List.append_nil, take_digitCount]
        refine mem_real.mpr (.inl ⟨_, ?_, run_all cs, rfl⟩)
        rw [none] at some_
        exact List.length_pos_iff.mp (Nat.pos_of_ne_zero some_)
      · obtain ⟨sign, es, signed, ne, all, eq⟩ := exponent_spec none
        rw [eq, take_digitCount]
        exact mem_real.mpr (.inr (.inl ⟨_, sign, es, run_all cs, signed, ne, all, rfl⟩))
    · intro cls w lexeme front
      have cls := class_of_point (starts_of_mem lexeme front)
      subst cls
      have bound := exponent_le (cs.drop (digitCount cs))
      have count := digitCount_le cs
      rw [List.length_drop] at bound
      rw [List.length_cons, List.length_take, Nat.min_eq_left (by omega)]
      exact (le_pointed lexeme front).1

theorem no_pointed {cs : List Char} (h : pointed cs = none) {cls : Class} {w : List Char}
    (lexeme : w ∈ cls.language) : ¬ w <+: '.' :: cs := by
  intro front
  have cls := class_of_point (starts_of_mem lexeme front)
  subst cls
  have some_ := (le_pointed lexeme front).2
  simp only [pointed, some_, if_false] at h
  cases h

end Scriptlet.Lexeme
