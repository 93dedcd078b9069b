import Scriptlet.Proofs.Lexing.Literals
import Scriptlet.Proofs.Lexing.Scan

namespace Scriptlet.Lexeme

inductive Piece where
  | blank (c : Char)
  | lexeme (w : List Char) (t : Token)

def Piece.text : Piece → List Char
  | blank c => [c]
  | lexeme w _ => w

/-- The text, its pieces from the front, and what is left of it. -/
inductive Reading : List Char → List Piece → List Char → Prop
  | done (text : List Char) : Reading text [] text
  | blank {c : Char} {text rest : List Char} {ps : List Piece} : isBlank c → Reading text ps rest →
      Reading (c :: text) (.blank c :: ps) rest
  | lexeme {cls : Class} {w text rest : List Char} {t : Token} {ps : List Piece} :
      Longest cls w (w ++ text) → cls.token? w = some t → Reading text ps rest →
      Reading (w ++ text) (.lexeme w t :: ps) rest

def lineAfter (before : List Char) : Nat := 1 + before.count '\n'

def located (before : List Char) : List Piece → List Located
  | [] => []
  | .blank c :: ps => located (before ++ [c]) ps
  | .lexeme w t :: ps => ⟨t, lineAfter before⟩ :: located (before ++ w) ps

/-- There is no next piece of the text, which starts on the given line. -/
inductive Stuck : List Char → Nat → SyntaxError → Prop
  | unrecognized {c : Char} {cs : List Char} (line : Nat) : isBlank c = false →
      (∀ cls w, w ∈ Class.language cls → ¬ w <+: c :: cs) →
      Stuck (c :: cs) line (.unrecognizedInput (String.ofList (unreadable c cs)) line)
  | oversized {w text : List Char} (line : Nat) : Longest .int w text →
      2 ^ 63 - 1 < Nat.ofDigitChars 10 w 0 → Stuck text line (.invalidLiteral (String.ofList w) line)
  | malformed {w text : List Char} (line : Nat) : Longest .real w text →
      ((∀ c ∈ w.takeWhile (· ≠ 'e'), c.isDigit = false) ∨
        'e' ∈ w ∧ ∀ c ∈ w.dropWhile (· ≠ 'e'), c.isDigit = false) →
      Stuck text line (.invalidLiteral (String.ofList w) line)

theorem Reading.text_eq {text rest : List Char} {ps : List Piece} (reading : Reading text ps rest) :
    ps.flatMap Piece.text ++ rest = text := by
  induction reading with
  | done text => rfl
  | blank _ _ ih => rw [List.flatMap_cons, List.append_assoc, ih]; rfl
  | lexeme _ _ _ ih => rw [List.flatMap_cons, List.append_assoc, ih]; rfl

theorem not_blank_of_starts {cls : Class} {c : Char} (starts : cls.Starts c) :
    isBlank c = false := by
  have form : isBlank c = false ∨ c = ' ' ∨ c = '\t' ∨ c = '\r' ∨ c = '\n' := by
    cases blank : isBlank c with
    | false => exact .inl rfl
    | true => simpa [isBlank, or_assoc] using blank
  rcases form with blank | blank
  · exact blank
  · exfalso
    cases cls with
    | fixed f =>
      have none : f.spelling.toList.head?.all fun c => !isBlank c := by cases f <;> decide
      rw [starts] at none
      rcases blank with rfl | rfl | rfl | rfl <;> cases none
    | _ =>
      rcases blank with rfl | rfl | rfl | rfl <;>
        exact absurd starts (by simp only [Class.Starts]; decide)

theorem Longest.exists_cons {cls : Class} {w text : List Char} (h : Longest cls w (w ++ text)) :
    ∃ c v, w = c :: v ∧ isBlank c = false := by
  obtain ⟨c, v, rfl⟩ := List.exists_cons_of_ne_nil (ne_nil_of_mem h.lexeme)
  exact ⟨c, v, rfl, not_blank_of_starts (starts_of_mem h.lexeme h.front)⟩

theorem readFrom_lexeme {cls : Class} {w text : List Char} (h : Longest cls w (w ++ text))
    (line : Nat) (read : List Located) :
    Token.readFrom line read (w ++ text) = match cls.token? w with
      | none => .error (.invalidLiteral (String.ofList w) line)
      | some t => Token.readFrom (line + w.count '\n') (⟨t, line⟩ :: read) text := by
  obtain ⟨c, v, rfl, visible⟩ := h.exists_cons
  rw [List.cons_append] at h ⊢
  obtain ⟨n, found, eq⟩ := scan_of_longest h
  obtain ⟨_, taken⟩ := List.cons_eq_cons.mp eq
  have dropped : (v ++ text).drop n = text := by
    have split := List.take_append_drop n (v ++ text)
    rw [taken] at split
    exact List.append_cancel_left split
  rw [Token.readFrom, if_neg (by simp [visible]), found]
  cases value : cls.token? (c :: v) with
  | none => simp only [taken, value]
  | some t => simp only [taken, dropped, value]

theorem readFrom_blank {c : Char} (blank : isBlank c) (before : List Char) (read : List Located)
    (text : List Char) :
    Token.readFrom (lineAfter before) read (c :: text) =
      Token.readFrom (lineAfter (before ++ [c])) read text := by
  have line : (if c = '\n' then lineAfter before + 1 else lineAfter before) =
      lineAfter (before ++ [c]) := by
    rw [lineAfter, lineAfter, List.count_append, List.count_singleton]
    split <;> simp_all [Nat.add_assoc]
  rw [Token.readFrom, if_pos blank, line]

theorem Reading.readFrom_eq {text rest : List Char} {ps : List Piece}
    (reading : Reading text ps rest) (before : List Char) (read : List Located) :
    Token.readFrom (lineAfter before) read text =
      Token.readFrom (lineAfter (before ++ ps.flatMap Piece.text))
        ((located before ps).reverse ++ read) rest := by
  induction reading generalizing before read with
  | done text => rw [List.flatMap_nil, List.append_nil]; rfl
  | @blank c text rest ps blank _ ih =>
    rw [readFrom_blank blank, ih, located, List.flatMap_cons, Piece.text, List.append_assoc]
  | @lexeme cls w text rest t ps longest value _ ih =>
    have line : lineAfter before + w.count '\n' = lineAfter (before ++ w) := by
      rw [lineAfter, lineAfter, List.count_append, Nat.add_assoc]
    rw [readFrom_lexeme longest, value]
    simp only
    rw [line, ih, located, List.flatMap_cons, Piece.text, List.append_assoc, List.reverse_cons,
      List.append_assoc]
    rfl

theorem Stuck.readFrom_eq {rest : List Char} {line : Nat} {e : SyntaxError}
    (stuck : Stuck rest line e) (read : List Located) :
    Token.readFrom line read rest = .error e := by
  cases stuck with
  | unrecognized _ visible none =>
    rw [Token.readFrom, if_neg (by simp [visible]), scan_eq_none_iff.mpr none]
  | @oversized w _ _ longest large =>
    obtain ⟨text, rfl⟩ := longest.front
    have value : Class.int.token? w = none := by
      rw [Class.token?, (intValue_eq_none_iff w).mpr large]
      rfl
    rw [readFrom_lexeme longest, value]
  | @malformed w _ _ longest wrong =>
    obtain ⟨text, rfl⟩ := longest.front
    have value : Class.real.token? w = none := by
      rw [Class.token?, (realValue_eq_none_iff longest.lexeme).mpr wrong]
      rfl
    rw [readFrom_lexeme longest, value]

theorem stuck_of_token {cls : Class} {w text : List Char} (longest : Longest cls w text)
    (none : cls.token? w = none) (line : Nat) : ∃ e, Stuck text line e := by
  cases cls with
  | int =>
    exact ⟨_, .oversized line longest
      ((intValue_eq_none_iff w).mp (Option.map_eq_none_iff.mp none))⟩
  | real =>
    exact ⟨_, .malformed line longest
      ((realValue_eq_none_iff longest.lexeme).mp (Option.map_eq_none_iff.mp none))⟩
  | _ => cases none

theorem exists_reading (text : List Char) : ∃ ps rest, Reading text ps rest ∧
    (rest = [] ∨ ∀ line, ∃ e, Stuck rest line e) := by
  induction length : text.length using Nat.strong_induction_on generalizing text with
  | _ n ih =>
    subst length
    cases text with
    | nil => exact ⟨[], [], .done [], .inl rfl⟩
    | cons c cs =>
      cases blank : isBlank c with
      | true =>
        obtain ⟨ps, rest, reading, final⟩ := ih cs.length (by simp) cs rfl
        exact ⟨_, rest, .blank blank reading, final⟩
      | false =>
        cases found : scan c cs with
        | none =>
          exact ⟨[], _, .done _, .inr fun line =>
            ⟨_, .unrecognized line blank (scan_eq_none_iff.mp found)⟩⟩
        | some p =>
          obtain ⟨cls, n⟩ := p
          have longest := longest_of_scan found
          cases value : cls.token? (c :: cs.take n) with
          | none => exact ⟨[], _, .done _, .inr (stuck_of_token longest value)⟩
          | some t =>
            have split : c :: cs.take n ++ cs.drop n = c :: cs := by
              rw [List.cons_append, List.take_append_drop]
            have shorter : (cs.drop n).length < (c :: cs).length := by
              rw [List.length_drop, List.length_cons]
              omega
            obtain ⟨ps, rest, reading, final⟩ := ih _ shorter (cs.drop n) rfl
            rw [← split] at longest ⊢
            exact ⟨_, rest, .lexeme longest value reading, final⟩

theorem Reading.readAll_eq {source : String} {ps : List Piece} {rest : List Char}
    (reading : Reading source.toList ps rest) : Token.readAll source =
      Token.readFrom (lineAfter (ps.flatMap Piece.text)) (located [] ps).reverse rest := by
  have run := reading.readFrom_eq [] []
  rwa [List.append_nil] at run

theorem readAll_eq_ok_iff {source : String} {ts : List Located} : Token.readAll source = .ok ts ↔
    ∃ ps, Reading source.toList ps [] ∧ ts = located [] ps := by
  constructor
  · intro read
    obtain ⟨ps, rest, reading, final⟩ := exists_reading source.toList
    rw [reading.readAll_eq] at read
    rcases final with rfl | stuck
    · rw [Token.readFrom, List.reverse_reverse] at read
      cases read
      exact ⟨ps, reading, rfl⟩
    · obtain ⟨e, stuck⟩ := stuck (lineAfter (ps.flatMap Piece.text))
      rw [stuck.readFrom_eq] at read
      cases read
  · rintro ⟨ps, reading, rfl⟩
    rw [reading.readAll_eq, Token.readFrom, List.reverse_reverse]

theorem readAll_eq_error_iff {source : String} {e : SyntaxError} :
    Token.readAll source = .error e ↔ ∃ ps rest, Reading source.toList ps rest ∧
      Stuck rest (lineAfter (ps.flatMap Piece.text)) e := by
  constructor
  · intro read
    obtain ⟨ps, rest, reading, final⟩ := exists_reading source.toList
    rw [reading.readAll_eq] at read
    rcases final with rfl | stuck
    · rw [Token.readFrom] at read
      cases read
    · obtain ⟨e', stuck⟩ := stuck (lineAfter (ps.flatMap Piece.text))
      rw [stuck.readFrom_eq] at read
      cases read
      exact ⟨ps, rest, reading, stuck⟩
  · rintro ⟨ps, rest, reading, stuck⟩
    rw [reading.readAll_eq, stuck.readFrom_eq]

end Lexeme

/--
Reading a text: it succeeds with the tokens of its longest lexemes, each on the line on which it
starts, if these and the blanks between them make up the text, and fails with the error of the
first place where there is no next piece.
-/
theorem Token.readAll_longest_match (source : String) :
    (∀ ts, readAll source = .ok ts ↔
      ∃ ps, Lexeme.Reading source.toList ps [] ∧ ts = Lexeme.located [] ps) ∧
    (∀ e, readAll source = .error e ↔ ∃ ps rest, Lexeme.Reading source.toList ps rest ∧
      Lexeme.Stuck rest (Lexeme.lineAfter (ps.flatMap Lexeme.Piece.text)) e) ∧
    ∀ ps rest, Lexeme.Reading source.toList ps rest →
      ps.flatMap Lexeme.Piece.text ++ rest = source.toList :=
  ⟨fun _ => Lexeme.readAll_eq_ok_iff, fun _ => Lexeme.readAll_eq_error_iff,
    fun _ _ => Lexeme.Reading.text_eq⟩

end Scriptlet
