import Scriptlet.Proofs.Lexing.Quotes
import Scriptlet.Proofs.Printing.PrintedReals
import Scriptlet.Proofs.Values.TreeText

namespace Scriptlet

open Lexeme

/-- The literal is what the text of its value stands for. -/
def Literal.PrintsBack : Literal → Prop
  | bool _ => True
  | int n => n ≠ Int64.minValue
  | real x => x.isNaN = false ∧ x.isInf = false ∧ '.' ∈ (Decimal.printed.text x).toList ∧
      ¬ ['e', '+'] <:+: (Decimal.printed.text x).toList
  | str s => (∀ c ∈ ['\\', '\n', '\t', '\r'], c ∉ s.toList) ∧
      ¬ ('\'' ∈ s.toList ∧ '"' ∈ s.toList)

instance : DecidablePred Literal.PrintsBack
  | .bool _ => inferInstanceAs (Decidable True)
  | .int n => inferInstanceAs (Decidable (n ≠ Int64.minValue))
  | .real x => inferInstanceAs (Decidable (x.isNaN = false ∧ x.isInf = false ∧
      '.' ∈ (Decimal.printed.text x).toList ∧ ¬ ['e', '+'] <:+: (Decimal.printed.text x).toList))
  | .str s => inferInstanceAs (Decidable ((∀ c ∈ ['\\', '\n', '\t', '\r'], c ∉ s.toList) ∧
      ¬ ('\'' ∈ s.toList ∧ '"' ∈ s.toList)))

def Literal.phrase : Literal → Phrase
  | bool b => .literal (.bool b)
  | int n => if n < 0 then .unary .neg (.literal (.int (-n))) else .literal (.int n)
  | real x =>
    if Decimal.isNegative x then .unary .neg (.literal (.real (-x))) else .literal (.real x)
  | str s => .literal (.str s)

theorem Literal.proper_phrase (l : Literal) : l.phrase.Proper := by
  cases l with
  | bool b => exact .literal _
  | int n =>
    rw [Literal.phrase]
    split
    · exact .unary True.intro (.literal _)
    · exact .literal _
  | real x =>
    rw [Literal.phrase]
    split
    · exact .unary True.intro (.literal _)
    · exact .literal _
  | str s => exact .literal _

/-- The text stands for the tokens, before anything that stops the last of them. -/
def SpeltAs (w : List Char) (us : List Token) : Prop :=
  ∀ text rest ts, Stops text → ReadsAs text ts rest → ReadsAs (w ++ text) (us ++ ts) rest

theorem SpeltAs.of_lexeme {cls : Lexeme.Class} {w : List Char} (lexeme : w ∈ cls.language)
    (unreserved : cls = .word → ∀ f, w ∉ (Class.fixed f).language) {c : Char}
    (start : w.head? = some c) (form : c.isDigit ∨ c.isAlpha ∨ c = '.') {t : Token}
    (value : cls.token? w = some t) : SpeltAs w [t] := fun _ _ _ stop reads =>
  .lexeme (longest_of_stops lexeme unreserved start form stop) value reads

theorem SpeltAs.negative {w : List Char} {us : List Token} (spelt : SpeltAs w us) :
    SpeltAs ('-' :: w) (.fixed .minus :: us) := fun _ _ _ stop reads =>
  .scan rfl rfl (spelt _ _ _ stop reads)

theorem SpeltAs.brackets {w : List Char} {us : List Token} (spelt : SpeltAs w us) :
    SpeltAs ('[' :: (w ++ [']'])) (.fixed .lbracket :: (us ++ [.fixed .rbracket])) := by
  intro text rest ts _ reads
  have close := ReadsAs.scan (c := ']') rfl rfl reads
  have inner := spelt _ rest _ (by rintro d ⟨⟩; decide) close
  have whole := ReadsAs.scan (c := '[') rfl rfl inner
  simpa using whole

theorem speltAs_reserved {f : Fixed} {c : Char} (start : f.spelling.toList.head? = some c)
    (alpha : c.isAlpha) : SpeltAs f.spelling.toList [.fixed f] :=
  .of_lexeme (mem_fixed.mpr rfl) (by simp) start (.inr (.inl alpha)) rfl

theorem speltAs_bool (b : Bool) :
    SpeltAs (Literal.bool b).text (Literal.bool b).phrase.tokens := by
  cases b with
  | true => exact @speltAs_reserved .trueWord 'T' rfl rfl
  | false => exact @speltAs_reserved .falseWord 'F' rfl rfl

theorem longest_toDigits (n : Nat) {rest : List Char} (stop : Stops rest) :
    Longest .int (Nat.toDigits 10 n) (Nat.toDigits 10 n ++ rest) := by
  have digits := toDigits_isDigit n
  obtain ⟨c, cs, eq⟩ := List.exists_cons_of_ne_nil (@Nat.toDigits_ne_nil n 10)
  refine longest_of_stops (mem_int.mpr ⟨Nat.toDigits_ne_nil, digits⟩) (by simp) (c := c) ?_
    (.inl ?_) stop
  · rw [eq, List.head?_cons]
  · exact digits c (by rw [eq]; exact List.mem_cons_self)

theorem intValue_toDigits (n : Nat) : intValue (Nat.toDigits 10 n) =
    if n < 2 ^ 63 then some (Int64.ofNat n) else none := by
  rw [intValue_eq, Nat.ofDigitChars_ten_toDigits]

theorem speltAs_nat {n : Nat} (small : n < 2 ^ 63) :
    SpeltAs (Nat.toDigits 10 n) [.int (Int64.ofNat n)] := by
  intro text rest ts stop reads
  have value : Class.int.token? (Nat.toDigits 10 n) = some (.int (Int64.ofNat n)) := by
    rw [Class.token?, intValue_toDigits, if_pos small, Option.map_some]
  exact .lexeme (longest_toDigits n stop) value reads

theorem toList_toString_negSucc (m : Nat) :
    (toString (Int.negSucc m)).toList = '-' :: Nat.toDigits 10 (m + 1) := by
  have split : toString (Int.negSucc m) = "-" ++ Nat.repr (m + 1) := rfl
  rw [split, String.toList_append, Nat.toList_repr]
  rfl

theorem toInt_neg_of_ne {n : Int64} (ne : n ≠ Int64.minValue) : (-n).toInt = -n.toInt := by
  have low := n.le_toInt
  have high := n.toInt_lt
  have other : n.toInt ≠ -2 ^ 63 := by
    rw [← Int64.toInt_minValue, ne_eq, Int64.toInt_inj]
    exact ne
  rw [Int64.toInt_neg, Int.bmod_eq_of_le (by omega) (by omega)]

theorem speltAs_unsigned {n : Int64} {m : Nat} (eq : n.toInt = m) :
    SpeltAs (Nat.toDigits 10 m) [.int n] := by
  have small := n.toInt_lt
  have same : Int64.ofNat m = n := by
    rw [← Int64.ofInt_eq_ofNat, ← eq, Int64.ofInt_toInt]
  have spelt := speltAs_nat (n := m) (by omega)
  rwa [same] at spelt

theorem speltAs_int {n : Int64} (ne : n ≠ Int64.minValue) :
    SpeltAs (Literal.int n).text (Literal.int n).phrase.tokens := by
  rw [Literal.phrase, Literal.text]
  split
  · rename_i negative
    obtain ⟨m, eq⟩ := Int.eq_negSucc_of_lt_zero (Int64.lt_iff_toInt_lt.mp negative)
    have neg := toInt_neg_of_ne ne
    rw [eq] at neg ⊢
    rw [toList_toString_negSucc]
    exact (speltAs_unsigned neg).negative
  · rename_i nonneg
    obtain ⟨m, eq⟩ :=
      Int.eq_ofNat_of_zero_le (Int64.le_iff_toInt_le.mp (Int64.not_lt.mp nonneg))
    have text : (toString (m : Int)).toList = Nat.toDigits 10 m := Nat.toList_repr
    rw [eq, text]
    exact speltAs_unsigned eq

theorem toList_printed {x : Float} (number : x.isNaN = false) (bounded : x.isInf = false) :
    (Decimal.printed.text x).toList =
      if Decimal.isNegative x then '-' :: Decimal.printed.magnitude (Decimal.Binary.ofFloat x)
      else Decimal.printed.magnitude (Decimal.Binary.ofFloat x) := by
  rw [Decimal.Layout.text, number, bounded]
  simp only [Bool.false_eq_true, if_false, String.toList_ofList]

theorem realValue_of_printsBack {x : Float} (back : (Literal.real x).PrintsBack) :
    let w := Decimal.printed.magnitude (Decimal.Binary.ofFloat x)
    w ∈ Lexeme.Class.real.language ∧ realValue w = some (Decimal.absolute x) := by
  obtain ⟨number, bounded, point, noPlus⟩ := back
  have printed := Decimal.printed_magnitude (Decimal.finite_absolute number bounded)
  rw [Decimal.ofFloat_absolute number] at printed
  rw [toList_printed number bounded] at point noPlus
  intro w
  change Decimal.Printed _ w at printed
  have point : '.' ∈ w := by
    split at point
    · simpa using point
    · exact point
  have noPlus : ¬ ['e', '+'] <:+: w := by
    split at noPlus
    · exact fun inside => noPlus (inside.trans (List.suffix_cons _ _).isInfix)
    · exact noPlus
  generalize w = w at *
  cases printed with
  | lexeme real value _ _ => exact ⟨real, value⟩
  | @pointless d sign es digit signed digits =>
    exfalso
    rcases List.mem_cons.mp point with rfl | point
    · cases digit
    rcases List.mem_cons.mp point with point | point
    · cases point
    rcases List.mem_cons.mp point with rfl | point
    · rcases signed with signed | signed <;> cases signed
    · cases digits '.' point
  | @large d ds es _ _ _ =>
    exact absurd ⟨d :: '.' :: ds, es, by simp⟩ noPlus

theorem speltAs_real {x : Float} (back : (Literal.real x).PrintsBack) :
    SpeltAs (Literal.real x).text (Literal.real x).phrase.tokens := by
  obtain ⟨real, value⟩ := realValue_of_printsBack back
  obtain ⟨c, cs, eq⟩ := List.exists_cons_of_ne_nil (ne_nil_of_mem real)
  have front : Decimal.printed.magnitude (Decimal.Binary.ofFloat x) <+: c :: cs := by rw [eq]
  have start := starts_of_mem real front
  have form : c.isDigit ∨ c.isAlpha ∨ c = '.' := start.imp_right .inr
  have token := congrArg (Option.map Token.real) value
  have spelt := SpeltAs.of_lexeme real (by simp) (eq ▸ List.head?_cons) form token
  rw [Decimal.absolute] at spelt
  rw [Literal.text, toList_printed back.1 back.2.1, Literal.phrase]
  split
  · rename_i negative
    rw [if_pos negative] at spelt
    exact spelt.negative
  · rename_i nonnegative
    rwa [if_neg nonnegative] at spelt

theorem token?_quoted (q : Char) (cs : List Char) :
    Lexeme.Class.str.token? (q :: (cs ++ [q])) = some (.str (String.ofList cs)) := by
  rw [Class.token?, List.drop_one, List.tail_cons, List.dropLast_concat]

theorem speltAs_quoted {q : Char} (quote : q = '"' ∨ q = '\'') {cs : List Char} (closed : q ∉ cs) :
    SpeltAs (q :: (cs ++ [q])) [.str (String.ofList cs)] := by
  intro text rest ts _ reads
  have lexeme := mem_str.mpr ⟨q, cs, quote, closed, rfl⟩
  exact .lexeme (longest_quoted lexeme text) (token?_quoted q cs) reads

theorem speltAs_str {s : String} (back : (Literal.str s).PrintsBack) :
    SpeltAs (Literal.str s).text (Literal.str s).phrase.tokens := by
  obtain ⟨plain, oneKind⟩ := back
  have closed := Text.quoteMark_notMem oneKind
  have same : s.toList.flatMap (Text.shown (Text.quoteMark s.toList)) = s.toList := by
    apply Text.flatMap_shown_eq
    simp_all
  have spelt := speltAs_quoted (Text.quoteMark_cases s.toList) closed
  rw [String.ofList_toList] at spelt
  rw [Literal.text, Text.toList_literal, same]
  exact spelt

theorem Literal.PrintsBack.speltAs {l : Literal} (back : l.PrintsBack) :
    SpeltAs l.text l.phrase.tokens := by
  cases l with
  | bool b => exact speltAs_bool b
  | int n => exact speltAs_int back
  | real x => exact speltAs_real back
  | str s => exact speltAs_str back

namespace Tree

mutual

def phrase : Tree → Phrase
  | leaf l => l.phrase
  | list ts => .list (phrasesOf ts)
  | tuple ts => .tuple (phrasesOf ts)

def phrasesOf : List Tree → List Phrase
  | [] => []
  | t :: ts => t.phrase :: phrasesOf ts

end

@[simp] theorem phrasesOf_eq (ts : List Tree) : phrasesOf ts = ts.map phrase := by
  induction ts with
  | nil => rfl
  | cons t ts ih => rw [phrasesOf, ih, List.map_cons]

/-- The literals in the tree print back, and every tuple in it has an element. -/
inductive PrintsBack : Tree → Prop
  | leaf {l : Literal} : l.PrintsBack → PrintsBack (leaf l)
  | list {ts : List Tree} : (∀ t ∈ ts, PrintsBack t) → PrintsBack (list ts)
  | tuple {ts : List Tree} : ts ≠ [] → (∀ t ∈ ts, PrintsBack t) → PrintsBack (tuple ts)

theorem PrintsBack.proper {t : Tree} (back : t.PrintsBack) : t.phrase.Proper := by
  induction back with
  | leaf _ => exact Literal.proper_phrase _
  | list _ ih =>
    rw [phrase, phrasesOf_eq]
    exact .list (List.forall_mem_map.mpr ih)
  | tuple ne _ ih =>
    rw [phrase, phrasesOf_eq]
    exact .tuple (by simpa using ne) (List.forall_mem_map.mpr ih)

theorem speltAs_separated {ts : List Tree} (spelt : ∀ t ∈ ts, SpeltAs t.text t.phrase.tokens) :
    SpeltAs ([',', ' '].intercalate (ts.map text))
      (separated (ts.map fun t => t.phrase.tokens)) := by
  induction ts with
  | nil => exact fun _ _ _ _ reads => reads
  | cons t ts ih =>
    have first := spelt t List.mem_cons_self
    have others := ih fun u member => spelt u (List.mem_cons_of_mem _ member)
    cases ts with
    | nil => rwa [List.map_singleton, List.map_singleton, List.intercalate_singleton, separated]
    | cons u us =>
      intro text rest more stop reads
      have tail := ReadsAs.blank (c := ' ') rfl (others text rest more stop reads)
      have comma := ReadsAs.scan (c := ',') rfl rfl tail
      have whole := first _ rest _ ?_ comma
      · simpa [List.intercalate_cons_cons, separated] using whole
      · rintro d ⟨⟩
        decide

theorem PrintsBack.speltAs {t : Tree} (back : t.PrintsBack) : SpeltAs t.text t.phrase.tokens := by
  induction back with
  | leaf back => exact back.speltAs
  | @list ts _ ih =>
    have whole := (speltAs_separated ih).brackets
    simpa [Tree.text, phrase, Phrase.tokens, Function.comp_def] using whole
  | @tuple ts ne _ ih =>
    intro text rest more _ reads
    have close := ReadsAs.scan (c := ')') rfl rfl reads
    by_cases single : ts.length = 1
    · have comma := ReadsAs.scan (c := ',') rfl rfl close
      have inner := speltAs_separated ih _ rest _ (by rintro d ⟨⟩; decide) comma
      have whole := ReadsAs.scan (c := '(') rfl rfl inner
      simpa [Tree.text, phrase, Phrase.tokens, Function.comp_def, single] using whole
    · have inner := speltAs_separated ih _ rest _ (by rintro d ⟨⟩; decide) close
      have whole := ReadsAs.scan (c := '(') rfl rfl inner
      simpa [Tree.text, phrase, Phrase.tokens, Function.comp_def, single] using whole

end Tree

end Scriptlet
