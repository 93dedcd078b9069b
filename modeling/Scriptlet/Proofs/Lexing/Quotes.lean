import Scriptlet.Proofs.Lexing.Tokens
import Scriptlet.Text.Quoted

namespace Scriptlet

namespace Text

theorem quoteMark_cases (cs : List Char) : quoteMark cs = '"' ∨ quoteMark cs = '\'' := by
  rw [quoteMark]
  split
  · exact .inl rfl
  · exact .inr rfl

theorem quoteMark_notMem {cs : List Char} (oneKind : ¬ ('\'' ∈ cs ∧ '"' ∈ cs)) :
    quoteMark cs ∉ cs := by
  rw [quoteMark]
  split
  · rename_i single
    simp_all
  · rename_i other
    simp_all

theorem toList_literal (s : String) : (literal s).toList =
    quoteMark s.toList :: (s.toList.flatMap (shown (quoteMark s.toList)) ++ [quoteMark s.toList]) :=
  String.toList_ofList

abbrev special (q : Char) : List Char := ['\\', '\n', '\t', '\r', q]

theorem shown_cases {q : Char} (quote : q = '"' ∨ q = '\'') (c : Char) :
    c ∉ special q ∧ shown q c = [c] ∨
      c ∈ special q ∧ ∃ d, shown q c = ['\\', d] ∧ (d = q → c = q) := by
  simp only [shown]
  grind

variable {q : Char} {cs : List Char}

theorem flatMap_shown_eq (plain : ∀ c ∈ special q, c ∉ cs) : cs.flatMap (shown q) = cs := by
  induction cs with
  | nil => rfl
  | cons d cs ih =>
    have first : shown q d = [d] := by
      have other : d ∉ special q := fun listed => plain d listed List.mem_cons_self
      simp only [shown]
      grind
    have others := ih fun c listed member => plain c listed (List.mem_cons_of_mem _ member)
    rw [List.flatMap_cons, first, others, List.singleton_append]

theorem length_le_flatMap_shown (quote : q = '"' ∨ q = '\'') (cs : List Char) :
    cs.length ≤ (cs.flatMap (shown q)).length := by
  induction cs with
  | nil => exact Nat.le_refl _
  | cons c cs ih =>
    rw [List.flatMap_cons, List.length_append, List.length_cons]
    rcases shown_cases quote c with ⟨_, eq⟩ | ⟨_, d, eq, _⟩
    · simp only [eq, List.length_cons, List.length_nil]
      omega
    · simp only [eq, List.length_cons, List.length_nil]
      omega

theorem flatMap_shown_ne (quote : q = '"' ∨ q = '\'') {c : Char} (escaped : c ∈ special q)
    (member : c ∈ cs) : cs.flatMap (shown q) ≠ cs := by
  obtain ⟨before, after, rfl⟩ := List.append_of_mem member
  rcases shown_cases quote c with ⟨plain, _⟩ | ⟨_, d, eq, _⟩
  · exact absurd escaped plain
  · intro same
    have left := length_le_flatMap_shown quote before
    have right := length_le_flatMap_shown quote after
    have lengths := congrArg List.length same
    simp only [List.flatMap_append, List.flatMap_cons, eq, List.length_append, List.length_cons,
      List.length_nil] at lengths
    omega

theorem notMem_flatMap_shown (quote : q = '"' ∨ q = '\'') (closed : q ∉ cs) :
    q ∉ cs.flatMap (shown q) := by
  rw [List.mem_flatMap]
  rintro ⟨c, member, inside⟩
  have other : c ≠ q := ne_of_mem_of_not_mem member closed
  rcases shown_cases quote c with ⟨_, eq⟩ | ⟨_, d, eq, back⟩
  · rw [eq, List.mem_singleton] at inside
    exact other inside.symm
  · rw [eq] at inside
    rcases List.mem_pair.mp inside with rfl | rfl
    · rcases quote with same | same <;> cases same
    · exact other (back rfl)

end Text

namespace Lexeme

/-- Every single quote is right behind a backslash. -/
def Escaped (text : List Char) : Prop :=
  ∀ before after, text = before ++ '\'' :: after → before.getLast? = some '\\'

variable {text w v : List Char}

theorem escaped_of_notMem (none : '\'' ∉ text) : Escaped text := fun _ _ eq =>
  absurd (eq ▸ List.mem_append_right _ List.mem_cons_self) none

theorem Escaped.append (left : Escaped w) (right : Escaped v) : Escaped (w ++ v) := by
  intro before after eq
  rcases List.append_eq_append_iff.mp eq with ⟨middle, rfl, tail⟩ | ⟨middle, head, tail⟩
  · have last := right middle after tail
    rw [List.getLast?_append, last]
    rfl
  · cases middle with
    | nil =>
      have last := right [] after (by simpa using tail.symm)
      cases last
    | cons c middle =>
      cases tail
      exact left before middle head

theorem escaped_flatMap_shown (cs : List Char) : Escaped (cs.flatMap (Text.shown '\'')) := by
  induction cs with
  | nil => exact escaped_of_notMem List.not_mem_nil
  | cons c cs ih =>
    refine Escaped.append ?_ ih
    rcases Text.shown_cases (.inr rfl) c with ⟨plain, eq⟩ | ⟨_, d, eq, _⟩
    · rw [eq]
      apply escaped_of_notMem
      rw [List.mem_singleton]
      rintro rfl
      exact plain (by simp)
    · rw [eq]
      intro before after split
      cases before with
      | nil => cases split
      | cons b before =>
        obtain ⟨rfl, tail⟩ := List.cons_eq_cons.mp split
        cases before with
        | nil => rfl
        | cons => simp at tail

theorem Escaped.of_append (escaped : Escaped (w ++ v)) (last : w.getLast? ≠ some '\\') :
    Escaped v := by
  intro before after eq
  have whole := escaped (w ++ before) after (by rw [eq, List.append_assoc])
  rw [List.getLast?_append] at whole
  cases final : before.getLast? with
  | none =>
    rw [final] at whole
    exact absurd whole last
  | some c =>
    rw [final] at whole
    exact whole

theorem isWordChar_plain {c : Char} (word : isWordChar c) : c ≠ '\\' ∧ c ≠ '\'' := by
  constructor <;> rintro rfl <;> exact absurd word (by decide)

theorem plain_of_mem {cls : Class} (other : cls ≠ .str) (lexeme : w ∈ cls.language) :
    '\\' ∉ w ∧ '\'' ∉ w := by
  obtain ⟨c, cs, rfl⟩ := List.exists_cons_of_ne_nil (ne_nil_of_mem lexeme)
  have start := starts_of_mem lexeme (List.prefix_refl _)
  have numberOrWord (form : c.isDigit ∨ c.isAlpha ∨ c = '.') :
      ∀ d ∈ c :: cs, d ≠ '\\' ∧ d ≠ '\'' := by
    intro d member
    rcases mem_numberOrWord lexeme rfl form d member with word | rfl | rfl
    · exact isWordChar_plain word
    · decide
    · decide
  have notMem (all : ∀ d ∈ c :: cs, d ≠ '\\' ∧ d ≠ '\'') : '\\' ∉ c :: cs ∧ '\'' ∉ c :: cs :=
    ⟨fun member => (all _ member).1 rfl, fun member => (all _ member).2 rfl⟩
  cases cls with
  | fixed f =>
    rw [mem_fixed.mp lexeme]
    cases f <;> decide
  | real => exact notMem (numberOrWord (start.imp_right .inr))
  | int => exact notMem (numberOrWord (.inl start))
  | str => exact absurd rfl other
  | word => exact notMem (numberOrWord (.inr (.inl start)))

theorem prefix_within_or_past {rest : List Char} (front : w <+: text ++ rest) :
    w <+: text ∨ ∃ c more, w = text ++ c :: more ∧ c :: more <+: rest := by
  rcases List.prefix_or_prefix_of_prefix front (List.prefix_append text rest) with within | longer
  · exact .inl within
  · obtain ⟨more, rfl⟩ := longer
    cases more with
    | nil => exact .inl (by simp)
    | cons c more => exact .inr ⟨c, more, rfl, (List.prefix_append_right_inj text).mp front⟩

/-- Before the quote that ends it, no lexeme in such a text stops at a backslash. -/
theorem lexeme_before_quote {cls : Class} {tail : List Char} (lexeme : w ∈ cls.language)
    (front : w <+: text ++ '\'' :: tail) (escaped : Escaped text) (noSingle : '\'' ∉ tail)
    (noDouble : '"' ∉ tail) : w <+: text ∧ w.getLast? ≠ some '\\' := by
  by_cases string : cls = .str
  · subst string
    obtain ⟨q, cs, quote, _, rfl⟩ := mem_str.mp lexeme
    rcases quote with rfl | rfl
    · have last : ('"' :: (cs ++ ['"'])).getLast? = some '"' := by
        rw [← List.cons_append, List.getLast?_concat]
      refine ⟨?_, by simp [last]⟩
      rcases prefix_within_or_past front with within | ⟨c, more, eq, rest⟩
      · exact within
      · exfalso
        rw [eq, List.getLast?_append_cons] at last
        rcases List.mem_cons.mp (rest.subset (List.mem_of_getLast? last)) with single | inside
        · cases single
        · exact noDouble inside
    · exfalso
      cases text with
      | nil =>
        have closing := (List.cons_prefix_cons.mp front).2.subset
        exact noSingle (closing (by simp))
      | cons c text =>
        obtain ⟨rfl, _⟩ := List.cons_prefix_cons.mp front
        cases escaped [] text rfl
  · obtain ⟨noBackslash, noQuote⟩ := plain_of_mem string lexeme
    refine ⟨?_, fun last => noBackslash (List.mem_of_getLast? last)⟩
    rcases prefix_within_or_past front with within | ⟨c, more, rfl, rest⟩
    · exact within
    · exfalso
      obtain ⟨rfl, _⟩ := List.cons_prefix_cons.mp rest
      exact noQuote (by simp)

/-- A text whose last quote is a single one and whose other single ones are escaped is not read. -/
theorem rest_ne_nil_of_escaped {all rest tail : List Char} {ps : List Piece}
    (noSingle : '\'' ∉ tail) (noDouble : '"' ∉ tail) (reading : Reading all ps rest) :
    ∀ text, all = text ++ '\'' :: tail → Escaped text → rest ≠ [] := by
  -- Whatever the reader takes, what is left ends in the same way.
  induction reading with
  | done all =>
    rintro text rfl _
    simp
  | @blank c all rest ps blank _ ih =>
    intro text eq escaped
    cases text with
    | nil =>
      cases eq
      cases blank
    | cons d text =>
      cases eq
      have last : [c].getLast? ≠ some '\\' := by
        rintro ⟨⟩
        cases blank
      exact ih text rfl (Escaped.of_append (w := [c]) escaped last)
  | @lexeme cls w all rest t ps longest _ _ ih =>
    intro text eq escaped
    have front := eq ▸ longest.front
    obtain ⟨⟨after, rfl⟩, last⟩ :=
      lexeme_before_quote longest.lexeme front escaped noSingle noDouble
    rw [List.append_assoc, List.append_cancel_left_eq] at eq
    exact ih after eq (escaped.of_append last)

theorem ReadsAs.readAll_of_unread {source : String} {ts : List Token} {rest : List Char}
    (reads : ReadsAs source.toList ts rest)
    (unread : ∀ ps rest', Reading rest ps rest' → rest' ≠ []) : ∃ e, Token.readAll source = .error e := by
  obtain ⟨ps, reading, _⟩ := reads
  obtain ⟨qs, rest', reading', final⟩ := exists_reading rest
  rcases final with ended | stuck
  · exact absurd ended (unread qs rest' reading')
  · obtain ⟨e, stuck⟩ := stuck (lineAfter ((ps ++ qs).flatMap Piece.text))
    exact ⟨e, readAll_eq_error_iff.mpr ⟨_, _, reading.append reading', stuck⟩⟩

end Lexeme

end Scriptlet
