import Scriptlet.Proofs.Grammar.Steps
import Scriptlet.Proofs.Lexing.Tokens
import Scriptlet.Run.Session

namespace Scriptlet

namespace Lexeme

theorem isBlank_of_isDigit {c : Char} (digit : c.isDigit) : isBlank c = false :=
  not_blank_of_starts (show Class.int.Starts c from digit)

theorem isBlank_of_isWordChar {c : Char} (part : isWordChar c) : isBlank c = false := by
  simp only [isWordChar, Char.isAlphanum, Bool.or_eq_true, decide_eq_true_eq] at part
  rcases part with (alpha | digit) | rfl
  · exact not_blank_of_starts (show Class.word.Starts c from alpha)
  · exact isBlank_of_isDigit digit
  · rfl

theorem not_blank_of_mem {cls : Class} {w : List Char} (lexeme : w ∈ cls.language)
    (unquoted : cls ≠ .str) : ∀ c ∈ w, isBlank c = false := by
  cases cls with
  | fixed f =>
    have all : f.spelling.toList.all fun c => !isBlank c := by cases f <;> decide
    rw [mem_fixed.mp lexeme]
    simpa using all
  | real =>
    obtain ⟨whole, fraction, tail, hw, hf, exponent, rfl⟩ := real_parts lexeme
    have last : ∀ c ∈ tail, isBlank c = false := by
      rcases exponent with rfl | ⟨mark, es, rfl | rfl, digits, rfl⟩
      · exact fun c member => absurd member List.not_mem_nil
      · intro c member
        rcases List.mem_cons.mp member with rfl | member
        · rfl
        · exact isBlank_of_isDigit (digits c member)
      · intro c member
        rcases List.mem_append.mp member with member | member
        · rcases List.mem_pair.mp member with rfl | rfl <;> rfl
        · exact isBlank_of_isDigit (digits c member)
    intro c member
    rcases List.mem_append.mp member with member | member
    · exact isBlank_of_isDigit (hw c member)
    rcases List.mem_cons.mp member with rfl | member
    · rfl
    rcases List.mem_append.mp member with member | member
    · exact isBlank_of_isDigit (hf c member)
    · exact last c member
  | int => exact fun c member => isBlank_of_isDigit ((mem_int.mp lexeme).2 c member)
  | str => exact absurd rfl unquoted
  | word =>
    obtain ⟨c, cs, alpha, all, rfl⟩ := mem_word.mp lexeme
    intro d member
    rcases List.mem_cons.mp member with rfl | member
    · exact not_blank_of_starts (show Class.word.Starts _ from alpha)
    · exact isBlank_of_isWordChar (all d member)

theorem longest_of_blank {cls : Class} {w rest : List Char} (lexeme : w ∈ cls.language)
    (unreserved : cls = .word → ∀ f, w ∉ (Class.fixed f).language)
    (stop : ∀ c, rest.head? = some c → isBlank c) : Longest cls w (w ++ rest) := by
  refine ⟨lexeme, List.prefix_append _ _, fun cls' w' lexeme' front => ?_, unreserved⟩
  by_cases quoted : cls' = .str
  · subst quoted
    obtain ⟨q, cs, quote, _, rfl⟩ := mem_str.mp lexeme'
    obtain ⟨c, v, rfl⟩ := List.exists_cons_of_ne_nil (ne_nil_of_mem lexeme)
    obtain ⟨rfl, _⟩ := List.cons_prefix_cons.mp front
    have same := class_of_quote quote (starts_of_mem lexeme (List.prefix_refl _))
    subst same
    obtain ⟨n, found, eq⟩ := string_eq lexeme (List.prefix_append _ rest)
    obtain ⟨n', found', eq'⟩ := string_eq lexeme' front
    rw [found] at found'
    cases found'
    rw [← eq, ← eq']
  · by_contra longer
    have longer : w.length < w'.length := Nat.lt_of_not_le longer
    obtain ⟨more, eq⟩ := List.prefix_of_prefix_length_le (List.prefix_append w rest) front longer.le
    cases more with
    | nil =>
      rw [← eq, List.append_nil] at longer
      exact absurd longer (Nat.lt_irrefl _)
    | cons c more =>
      rw [← eq] at front
      obtain ⟨after, tail⟩ := (List.prefix_append_right_inj w).mp front
      have blank := stop c (by rw [← tail]; rfl)
      have visible := not_blank_of_mem lexeme' quoted c (by rw [← eq]; simp)
      rw [blank] at visible
      cases visible

/-- The lexeme stands for the token, if nothing after it makes it longer. -/
def Spells (w : List Char) (t : Token) : Prop :=
  ∃ cls : Class, w ∈ cls.language ∧ (cls = .word → ∀ f, w ∉ (Class.fixed f).language) ∧
    cls.token? w = some t

def Piece.lexeme? : Piece → Option (List Char)
  | blank _ => none
  | lexeme w _ => some w

def lexemes (ps : List Piece) : List (List Char) := ps.filterMap Piece.lexeme?

def spaced (parts : List (List Char × List Char)) : List Char :=
  parts.flatMap fun part => part.1 ++ part.2

variable {text rest : List Char} {ps : List Piece}

theorem Reading.spells (reading : Reading text ps rest) (before : List Char) :
    List.Forall₂ (fun w t => Spells w t.token) (lexemes ps) (located before ps) := by
  induction reading generalizing before with
  | done => exact .nil
  | blank _ _ ih => exact ih _
  | lexeme longest value _ ih =>
    exact .cons ⟨_, longest.lexeme, longest.reserved, value⟩ (ih _)

theorem Reading.blanks {gap : List Char} (blank : ∀ c ∈ gap, isBlank c)
    (reading : Reading text ps rest) : Reading (gap ++ text) (gap.map Piece.blank ++ ps) rest := by
  induction gap with
  | nil => exact reading
  | cons c gap ih =>
    exact .blank (blank c List.mem_cons_self) (ih fun d mem => blank d (List.mem_cons_of_mem _ mem))

theorem located_blanks (before gap : List Char) (ps : List Piece) :
    located before (gap.map Piece.blank ++ ps) = located (before ++ gap) ps := by
  induction gap generalizing before with
  | nil => rw [List.append_nil]; rfl
  | cons c gap ih =>
    rw [List.map_cons, List.cons_append, located, ih, List.append_assoc]
    rfl

theorem mem_dropLast_cons {α : Type} {a b : α} {as : List α} (mem : a ∈ as.dropLast) :
    a ∈ (b :: as).dropLast := by
  cases as with
  | nil => cases mem
  | cons => exact List.mem_cons_of_mem _ mem

theorem reading_spaced {parts : List (List Char × List Char)} {ts : List Located}
    (spells : List.Forall₂ (fun w t => Spells w t.token) (parts.map Prod.fst) ts)
    (blank : ∀ part ∈ parts, ∀ c ∈ part.2, isBlank c)
    (apart : ∀ part ∈ parts.dropLast, part.2 ≠ []) (before : List Char) :
    ∃ ps, Reading (spaced parts) ps [] ∧ located before ps =
      ts.mapIdx fun i t => ⟨t.token, lineAfter (before ++ spaced (parts.take i))⟩ := by
  induction parts generalizing ts before with
  | nil =>
    cases spells
    exact ⟨[], .done [], rfl⟩
  | cons part parts ih =>
    obtain ⟨w, gap⟩ := part
    cases spells with
    | @cons _ t _ ts first others =>
      obtain ⟨cls, lexeme, unreserved, value⟩ := first
      have gaps : ∀ c ∈ gap, isBlank c := blank _ List.mem_cons_self
      have stop : ∀ c, (gap ++ spaced parts).head? = some c → isBlank c := by
        intro c head
        cases gap with
        | cons d gap =>
          rw [← Option.some.inj head]
          exact gaps d List.mem_cons_self
        | nil =>
          cases parts with
          | nil => cases head
          | cons => exact absurd rfl (apart (w, []) List.mem_cons_self)
      obtain ⟨ps, reading, tokens⟩ := ih others
        (fun part listed => blank part (List.mem_cons_of_mem _ listed))
        (fun part listed => apart part (mem_dropLast_cons listed)) (before ++ w ++ gap)
      have read : Reading (w ++ (gap ++ spaced parts))
          (.lexeme w t.token :: (gap.map Piece.blank ++ ps)) [] :=
        .lexeme (longest_of_blank lexeme unreserved stop) value (reading.blanks gaps)
      refine ⟨.lexeme w t.token :: (gap.map Piece.blank ++ ps), ?_, ?_⟩
      · rwa [spaced, List.flatMap_cons, List.append_assoc]
      · rw [located, located_blanks, tokens, List.mapIdx_cons]
        simp [spaced]

theorem readAll_spaced {gap : List Char} {parts : List (List Char × List Char)} {ts : List Located}
    (spells : List.Forall₂ (fun w t => Spells w t.token) (parts.map Prod.fst) ts)
    (before : ∀ c ∈ gap, isBlank c) (blank : ∀ part ∈ parts, ∀ c ∈ part.2, isBlank c)
    (apart : ∀ part ∈ parts.dropLast, part.2 ≠ []) :
    Token.readAll (String.ofList (gap ++ spaced parts)) =
      .ok (ts.mapIdx fun i t => ⟨t.token, lineAfter (gap ++ spaced (parts.take i))⟩) := by
  obtain ⟨ps, reading, tokens⟩ := reading_spaced spells blank apart gap
  refine readAll_eq_ok_iff.mpr ⟨gap.map Piece.blank ++ ps, ?_, ?_⟩
  · rw [String.toList_ofList]
    exact reading.blanks before
  · rw [located_blanks, List.nil_append, tokens]

end Lexeme

theorem Program.parse_eq_ok_iff {source source' : String} {ts ts' : List Located}
    (read : Token.readAll source = .ok ts) (read' : Token.readAll source' = .ok ts')
    (same : ts.map Located.token = ts'.map Located.token) (p : Program) :
    parse source = .ok p ↔ parse source' = .ok p := by
  rw [parse, parse, read, read']
  exact (ofTokens_eq_ok_iff ts p).trans (same ▸ (ofTokens_eq_ok_iff ts' p).symm)

theorem State.load_eq_ok_iff {s : State} {source : String} {m : Machine} :
    s.load source = .ok m ↔ ∃ p, Program.parse source = .ok p ∧ m = s.start p := by
  unfold load
  split
  · rename_i p read
    simp only [read, Except.ok.injEq, exists_eq_left', eq_comm]
  · rename_i e failed
    simp only [failed, reduceCtorEq, false_and, exists_false]

/--
Blanks between lexemes, in front and at the end make no difference. If a text is read, then any text
of the same lexemes, in the same order and with some blanks between any two, has the same tokens,
each on the line where its lexeme starts. The same program is read from both, or none from either,
and so they start the same run.
-/
theorem layout_irrelevant {source : String} {ts : List Located}
    (read : Token.readAll source = .ok ts) :
    (∃ ps, Lexeme.Reading source.toList ps []) ∧
    ∀ ps, Lexeme.Reading source.toList ps [] →
      ∀ (gap : List Char) (parts : List (List Char × List Char)),
        parts.map Prod.fst = Lexeme.lexemes ps →
        (∀ c ∈ gap, isBlank c) → (∀ part ∈ parts, ∀ c ∈ part.2, isBlank c) →
        (∀ part ∈ parts.dropLast, part.2 ≠ []) →
        let text := String.ofList (gap ++ Lexeme.spaced parts)
        Token.readAll text = .ok (ts.mapIdx fun i t =>
          ⟨t.token, 1 + (gap ++ Lexeme.spaced (parts.take i)).count '\n'⟩) ∧
        (∀ p, Program.parse source = .ok p ↔ Program.parse text = .ok p) ∧
        ∀ (s : State) (m : Machine), s.load source = .ok m ↔ s.load text = .ok m := by
  obtain ⟨ps, reading, _⟩ := Lexeme.readAll_eq_ok_iff.mp read
  refine ⟨⟨ps, reading⟩, fun ps reading gap parts lexemes before blank apart => ?_⟩
  have tokens := (Lexeme.readAll_eq_ok_iff.mpr ⟨ps, reading, rfl⟩).symm.trans read
  cases tokens
  have spells := reading.spells []
  rw [← lexemes] at spells
  have again := Lexeme.readAll_spaced spells before blank apart
  have programs := Program.parse_eq_ok_iff read again (List.ext_getElem (by simp) (by simp))
  refine ⟨again, programs, fun s m => ?_⟩
  rw [State.load_eq_ok_iff, State.load_eq_ok_iff]
  exact exists_congr fun p => and_congr_left' (programs p)

namespace Lexeme

/-- The pieces of `{x=-1;}`. -/
def tight : List Piece :=
  [.lexeme ['\x7b'] (.fixed .lbrace), .lexeme ['x'] (.name "x"), .lexeme ['='] (.fixed .assign),
    .lexeme ['-'] (.fixed .minus), .lexeme ['1'] (.int 1), .lexeme [';'] (.fixed .semicolon),
    .lexeme ['\x7d'] (.fixed .rbrace)]

theorem reading_tight : Reading "\x7bx=-1;\x7d".toList tight [] :=
  .lexeme (longest_of_scan (n := 0) rfl) rfl <| .lexeme (longest_of_scan (n := 0) rfl) rfl <|
  .lexeme (longest_of_scan (n := 0) rfl) rfl <| .lexeme (longest_of_scan (n := 0) rfl) rfl <|
  .lexeme (longest_of_scan (n := 0) rfl) rfl <| .lexeme (longest_of_scan (n := 0) rfl) rfl <|
  .lexeme (longest_of_scan (n := 0) rfl) rfl (.done [])

/-- Its lexemes on three lines, after an empty one. -/
def loose : List (List Char × List Char) :=
  [(['\x7b'], [' ']), (['x'], ['\r', '\n']), (['='], [' ']), (['-'], ['\t']), (['1'], [' ']),
    ([';'], ['\n']), (['\x7d'], [])]

theorem layout_irrelevant_loose :
    let text := "\n\x7b x\r\n= -\t1 ;\n\x7d"
    let p : Program := ⟨[], [.assign "x" (.unary .neg (.literal (.int 1)))]⟩
    Token.readAll "\x7bx=-1;\x7d" = .ok (located [] tight) ∧
    (loose.map Prod.fst = lexemes tight ∧ (∀ part ∈ loose, ∀ c ∈ part.2, isBlank c) ∧
      ∀ part ∈ loose.dropLast, part.2 ≠ []) ∧
    Token.readAll text = .ok [⟨.fixed .lbrace, 2⟩, ⟨.name "x", 2⟩, ⟨.fixed .assign, 3⟩,
      ⟨.fixed .minus, 3⟩, ⟨.int 1, 3⟩, ⟨.fixed .semicolon, 3⟩, ⟨.fixed .rbrace, 4⟩] ∧
    Program.parse text = .ok p := by
  intro text p
  have read : Token.readAll "\x7bx=-1;\x7d" = .ok (located [] tight) :=
    readAll_eq_ok_iff.mpr ⟨tight, reading_tight, rfl⟩
  have blank : ∀ part ∈ loose, ∀ c ∈ part.2, isBlank c := by simp [loose, isBlank]
  have apart : ∀ part ∈ loose.dropLast, part.2 ≠ [] := by decide
  have parsed : Program.parse "\x7bx=-1;\x7d" = .ok p := by
    rw [Program.parse, read]
    rfl
  obtain ⟨tokens, programs, _⟩ :=
    (layout_irrelevant read).2 tight reading_tight ['\n'] loose rfl (by simp [isBlank]) blank apart
  exact ⟨read, ⟨rfl, blank, apart⟩, tokens, (programs p).mp parsed⟩

end Lexeme

end Scriptlet
