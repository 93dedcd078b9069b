import Scriptlet.Proofs.Lexing.Reading

namespace Scriptlet.Lexeme

def Piece.token? : Piece → Option Token
  | blank _ => none
  | lexeme _ t => some t

theorem map_token_located (before : List Char) (ps : List Piece) :
    (located before ps).map Located.token = ps.filterMap Piece.token? := by
  induction ps generalizing before with
  | nil => rfl
  | cons p ps ih =>
    cases p with
    | blank c => exact ih _
    | lexeme w t => exact congrArg (t :: ·) (ih _)

/-- The lexemes of the text up to the given rest are those of the tokens. -/
def ReadsAs (text : List Char) (ts : List Token) (rest : List Char) : Prop :=
  ∃ ps, Reading text ps rest ∧ ps.filterMap Piece.token? = ts

variable {text rest : List Char} {ts : List Token}

theorem ReadsAs.nil (text : List Char) : ReadsAs text [] text := ⟨[], .done _, rfl⟩

theorem ReadsAs.blank {c : Char} (blank : isBlank c) (reads : ReadsAs text ts rest) :
    ReadsAs (c :: text) ts rest := by
  obtain ⟨ps, reading, tokens⟩ := reads
  exact ⟨.blank c :: ps, .blank blank reading, tokens⟩

theorem ReadsAs.lexeme {cls : Class} {w : List Char} {t : Token}
    (longest : Longest cls w (w ++ text)) (value : cls.token? w = some t) (reads : ReadsAs text ts rest) :
    ReadsAs (w ++ text) (t :: ts) rest := by
  obtain ⟨ps, reading, tokens⟩ := reads
  exact ⟨.lexeme w t :: ps, .lexeme longest value reading, congrArg (t :: ·) tokens⟩

theorem ReadsAs.scan {c : Char} {cs : List Char} {cls : Class} {n : Nat} {t : Token}
    (found : scan c cs = some (cls, n)) (value : cls.token? (c :: cs.take n) = some t)
    (reads : ReadsAs (cs.drop n) ts rest) : ReadsAs (c :: cs) (t :: ts) rest := by
  have longest := longest_of_scan found
  have split : c :: cs.take n ++ cs.drop n = c :: cs := by
    rw [List.cons_append, List.take_append_drop]
  rw [← split] at longest ⊢
  exact .lexeme longest value reads

theorem Reading.append {middle : List Char} {ps qs : List Piece} (first : Reading text ps middle)
    (second : Reading middle qs rest) : Reading text (ps ++ qs) rest := by
  induction first with
  | done => exact second
  | blank blank _ ih => exact .blank blank (ih second)
  | lexeme longest value _ ih => exact .lexeme longest value (ih second)

theorem ReadsAs.readAll {source : String} (reads : ReadsAs source.toList ts []) :
    ∃ ls, Token.readAll source = .ok ls ∧ ls.map Located.token = ts := by
  obtain ⟨ps, reading, tokens⟩ := reads
  exact ⟨_, readAll_eq_ok_iff.mpr ⟨ps, reading, rfl⟩, (map_token_located [] ps).trans tokens⟩

theorem ReadsAs.prefix_of_readAll {source : String} (reads : ReadsAs source.toList ts rest)
    {ls : List Located} (read : Token.readAll source = .ok ls) : ts <+: ls.map Located.token := by
  obtain ⟨ps, reading, tokens⟩ := reads
  obtain ⟨qs, rest', reading', final⟩ := exists_reading rest
  have whole := reading.append reading'
  rcases final with rfl | stuck
  · rw [readAll_eq_ok_iff.mpr ⟨_, whole, rfl⟩] at read
    cases read
    rw [map_token_located, List.filterMap_append, tokens]
    exact List.prefix_append _ _
  · obtain ⟨e, stuck⟩ := stuck (lineAfter ((ps ++ qs).flatMap Piece.text))
    rw [readAll_eq_error_iff.mpr ⟨_, _, whole, stuck⟩] at read
    cases read

theorem ReadsAs.readAll_of_stuck {source : String} (reads : ReadsAs source.toList ts rest)
    {cls : Class} {w : List Char} (longest : Longest cls w rest) (none : cls.token? w = none) :
    ∃ e, Token.readAll source = .error e := by
  obtain ⟨ps, reading, _⟩ := reads
  obtain ⟨e, stuck⟩ := stuck_of_token longest none (lineAfter (ps.flatMap Piece.text))
  exact ⟨e, readAll_eq_error_iff.mpr ⟨ps, rest, reading, stuck⟩⟩

theorem longest_quoted {w : List Char} (lexeme : w ∈ Class.str.language) (rest : List Char) :
    Longest .str w (w ++ rest) := by
  obtain ⟨q, cs, quote, closed, rfl⟩ := mem_str.mp lexeme
  obtain ⟨n, found, eq⟩ := string_eq lexeme (List.prefix_append _ rest)
  have longest := longest_string quote found
  rwa [eq] at longest

theorem isWordChar_of_isDigit {c : Char} (digit : c.isDigit) : isWordChar c := by
  simp [isWordChar, Char.isAlphanum, digit]

theorem isWordChar_of_mem_word {w : List Char} (word : w ∈ Class.word.language) :
    ∀ c ∈ w, isWordChar c := by
  obtain ⟨c, cs, alpha, all, rfl⟩ := mem_word.mp word
  intro d member
  rcases List.mem_cons.mp member with rfl | member
  · simp [isWordChar, Char.isAlphanum, alpha]
  · exact all d member

theorem mem_numberOrWord {cls : Class} {w : List Char} (lexeme : w ∈ cls.language) {c : Char}
    (start : w.head? = some c) (form : c.isDigit ∨ c.isAlpha ∨ c = '.') :
    ∀ d ∈ w, isWordChar d ∨ d = '.' ∨ d = '-' := by
  intro d member
  cases cls with
  | fixed f =>
    have eq := mem_fixed.mp lexeme
    rw [eq] at start member
    rcases fixed_cases f with ⟨_, word, _⟩ | ⟨_, other⟩
    · exact .inl (isWordChar_of_mem_word word d member)
    · obtain ⟨noAlpha, noDigit, noPoint, _⟩ := other c start
      simp [noAlpha, noDigit, noPoint] at form
  | real =>
    obtain ⟨whole, fraction, tail, hw, hf, exponent, rfl⟩ := real_parts lexeme
    rcases List.mem_append.mp member with member | member
    · exact .inl (isWordChar_of_isDigit (hw d member))
    rcases List.mem_cons.mp member with rfl | member
    · exact .inr (.inl rfl)
    rcases List.mem_append.mp member with member | member
    · exact .inl (isWordChar_of_isDigit (hf d member))
    rcases exponent with rfl | ⟨mark, es, marked, digits, rfl⟩
    · cases member
    rcases List.mem_append.mp member with member | member
    · rcases marked with rfl | rfl
      · rw [List.mem_singleton.mp member]
        exact .inl rfl
      · rcases List.mem_pair.mp member with rfl | rfl
        · exact .inl rfl
        · exact .inr (.inr rfl)
    · exact .inl (isWordChar_of_isDigit (digits d member))
  | int => exact .inl (isWordChar_of_isDigit ((mem_int.mp lexeme).2 d member))
  | str =>
    obtain ⟨q, cs, quote, _, rfl⟩ := mem_str.mp lexeme
    cases start
    rcases quote with rfl | rfl <;> simp at form
  | word => exact .inl (isWordChar_of_mem_word lexeme d member)

/-- The text starts with nothing that a number or a word may go on with. -/
def Stops (text : List Char) : Prop :=
  ∀ d, text.head? = some d → isWordChar d = false ∧ d ≠ '.' ∧ d ≠ '-'

theorem longest_of_stops {cls : Class} {w : List Char} (lexeme : w ∈ cls.language)
    (unreserved : cls = .word → ∀ f, w ∉ (Class.fixed f).language) {c : Char}
    (start : w.head? = some c) (form : c.isDigit ∨ c.isAlpha ∨ c = '.') (stop : Stops rest) :
    Longest cls w (w ++ rest) := by
  refine ⟨lexeme, List.prefix_append _ _, fun cls' w' lexeme' front => ?_, unreserved⟩
  by_contra longer
  have longer : w.length < w'.length := Nat.lt_of_not_le longer
  obtain ⟨more, rfl⟩ := List.prefix_of_prefix_length_le (List.prefix_append w rest) front longer.le
  cases more with
  | nil => simp at longer
  | cons d more =>
    obtain ⟨after, tail⟩ := (List.prefix_append_right_inj w).mp front
    obtain ⟨noWord, noPoint, noMinus⟩ := stop d (by rw [← tail]; rfl)
    have start' : (w ++ d :: more).head? = some c := by
      cases w with
      | nil => cases start
      | cons => exact start
    rcases mem_numberOrWord lexeme' start' form d (by simp) with word | point | minus
    · rw [noWord] at word
      cases word
    · exact noPoint point
    · exact noMinus minus

end Scriptlet.Lexeme
