import Scriptlet.Proofs.Lexing.Quotes
import Scriptlet.Proofs.Printing.Echo

namespace Scriptlet

open Lexeme Echo

theorem Program.parse_of_rejected {source : String} {ts : List Token} {rest : List Char}
    (reads : ReadsAs source.toList ts rest) (rejected : (Parser.State.top []).steps ts = none) :
    ∃ e, parse source = .error e := by
  rw [parse]
  cases read : Token.readAll source with
  | error e => exact ⟨e, rfl⟩
  | ok ls =>
    cases parsed : ofTokens ls with
    | error e => exact ⟨e, parsed⟩
    | ok p =>
      exfalso
      obtain ⟨more, eq⟩ := reads.prefix_of_readAll read
      rw [ofTokens_eq_ok_iff, ← eq, Parser.steps_append, rejected] at parsed
      cases parsed

theorem Program.parse_of_unread {source : String} {e : SyntaxError}
    (unread : Token.readAll source = .error e) : ∃ e, parse source = .error e :=
  ⟨e, by rw [parse, unread]⟩

def Expr.Faulty (limit : Nat) (e : Expr) : Prop :=
  ∀ heap, ∃ f s, e.Fails limit (State.among heap) f s

theorem Expr.faulty_var (limit : Nat) (x : Name) : (Expr.var x).Faulty limit := fun heap =>
  ⟨.semantic (.unknownVariable x), State.among heap, .step (.refl _)⟩

theorem Expr.Faulty.unary {limit : Nat} {e : Expr} (faulty : e.Faulty limit) (op : UnaryOp) :
    (Expr.unary op e).Faulty limit := by
  intro heap
  obtain ⟨f, s, fails⟩ := faulty heap
  exact ⟨f, s, .step (fails.reaches (.unary op .halt))⟩

theorem speltAs_name {x : Name} (name : IsName x) : SpeltAs x.toList [.name x] := by
  obtain ⟨c, cs, alpha, _, letters⟩ := mem_word.mp name.1
  have unreserved := @Token.WellFormed.unreserved realText (.name x) name rfl
  refine .of_lexeme name.1 (fun _ => unreserved) (c := c) ?_ (.inr (.inl alpha)) ?_
  · rw [letters, List.head?_cons]
  · rw [Class.token?, String.ofList_toList]

theorem isName_nan : IsName "nan" :=
  ⟨mem_word.mpr ⟨'n', ['a', 'n'], rfl, by simp [isWordChar], rfl⟩, by decide⟩

theorem isName_inf : IsName "inf" :=
  ⟨mem_word.mpr ⟨'i', ['n', 'f'], rfl, by simp [isWordChar], rfl⟩, by decide⟩

structure Single (ls : Lists) (a : ListId) (l : Literal) : Prop where
  elements : (ls.get a).toList = [l.value]

namespace Single

def ending : List Char := "]; print(x); \x7d".toList

theorem stops_ending : Stops ending := by
  rintro d ⟨⟩
  decide

variable {ls : Lists} {a : ListId} {limit : Nat} {heap : Lists}

section

variable {l : Literal} {us : List Token} {rest : List Char} (single : Single ls a l)

include single

theorem unfolds : (Value.list a).Unfolds ls (.list [.leaf l]) := by
  have listed : a.index < ls.size :=
    ls.lt_size_of_mem a l.value (by rw [single.elements]; exact List.mem_singleton_self _)
  refine Value.unfolds_list_iff.mpr ⟨listed, _, rfl, ?_⟩
  rw [single.elements]
  exact .cons (.leaf l rfl) .nil

theorem toList_repr : ((Value.list a).repr ls).toList = '[' :: (l.text ++ [']']) := by
  rw [single.unfolds.repr_eq, Tree.text, Tree.textsOf_eq, List.map_singleton,
    List.intercalate_singleton, Tree.text, List.cons_append]

theorem readsAs (reads : ReadsAs (l.text ++ ending) us rest) :
    ReadsAs (echo ((Value.list a).repr ls)).toList (opening ++ .fixed .lbracket :: us) rest := by
  have inner : ReadsAs ('[' :: (l.text ++ ending)) (.fixed .lbracket :: us) rest :=
    .scan rfl rfl reads
  have split : ending = [']'] ++ "; print(x); \x7d".toList := rfl
  rw [toList_echo, single.toList_repr, List.cons_append, List.append_assoc, ← split]
  exact readsAs_opening inner

theorem fails_of_stuck (reads : ReadsAs (l.text ++ ending) us rest)
    {cls : Lexeme.Class} {w : List Char} (longest : Longest cls w rest)
    (none : cls.token? w = none) : Fails limit heap (echo ((Value.list a).repr ls)) := by
  obtain ⟨e, unread⟩ := (single.readsAs reads).readAll_of_stuck longest none
  exact .of_parse (Program.parse_of_unread unread)

theorem fails_of_rejected (reads : ReadsAs (l.text ++ ending) us rest)
    (rejected : (Parser.State.top []).steps (opening ++ .fixed .lbracket :: us) = none) :
    Fails limit heap (echo ((Value.list a).repr ls)) :=
  .of_parse (Program.parse_of_rejected (single.readsAs reads) rejected)

theorem parse_eq {g : Phrase} (proper : g.Proper) (spelt : SpeltAs l.text g.tokens) :
    Program.parse (echo ((Value.list a).repr ls)) = .ok (program (.list [g.tree])) := by
  have listed : (Phrase.list [g]).Proper := .list (by simpa using proper)
  refine (parse_echo listed ?_).trans (by simp [Phrase.tree])
  rw [single.toList_repr]
  simpa [Phrase.tokens, separated] using spelt.brackets

theorem fails_of_faulty {g : Phrase} (proper : g.Proper) (spelt : SpeltAs l.text g.tokens)
    (faulty : g.tree.Faulty limit) : Fails limit heap (echo ((Value.list a).repr ls)) := by
  obtain ⟨f, s, fails⟩ := faulty heap
  have run := fails.reaches (.next .list [] [] (.assign "x" (.rest [.print (.var "x")] .halt)))
  exact .inr ⟨f, _, .of_parse (single.parse_eq proper spelt) (.step (.step (.step run)))⟩

end

theorem fails_int (single : Single ls a (.int Int64.minValue)) :
    Fails limit heap (echo ((Value.list a).repr ls)) := by
  have least : Int64.minValue.toInt = Int.negSucc (2 ^ 63 - 1) := rfl
  have text : (Literal.int Int64.minValue).text = '-' :: Nat.toDigits 10 (2 ^ 63 - 1 + 1) := by
    rw [Literal.text, least, toList_toString_negSucc]
  have reads : ReadsAs ((Literal.int Int64.minValue).text ++ ending)
      [.fixed .minus] (Nat.toDigits 10 (2 ^ 63 - 1 + 1) ++ ending) := by
    rw [text]
    exact .scan rfl rfl (.nil _)
  refine single.fails_of_stuck reads (longest_toDigits _ stops_ending) ?_
  rw [Class.token?, intValue_toDigits, if_neg (by omega), Option.map_none]

theorem fails_nan {x : Float} (single : Single ls a (.real x)) (nan : x.isNaN) :
    Fails limit heap (echo ((Value.list a).repr ls)) := by
  have text : (Literal.real x).text = "nan".toList := by
    rw [Literal.text, Decimal.Layout.text, if_pos nan]
  have spelt : SpeltAs (Literal.real x).text [.name "nan"] := text ▸ speltAs_name isName_nan
  exact single.fails_of_faulty (.name "nan") spelt (Expr.faulty_var limit "nan")

theorem fails_infinite {x : Float} (single : Single ls a (.real x)) (number : x.isNaN = false)
    (infinite : x.isInf) : Fails limit heap (echo ((Value.list a).repr ls)) := by
  have text : (Literal.real x).text =
      if Decimal.isNegative x then '-' :: "inf".toList else "inf".toList := by
    rw [Literal.text, Decimal.Layout.text, number, infinite]
    simp
  have spelt := speltAs_name isName_inf
  have faulty := Expr.faulty_var limit "inf"
  split at text
  · exact single.fails_of_faulty (g := .unary .neg (.name "inf")) (.unary True.intro (.name "inf"))
      (text ▸ spelt.negative) (faulty.unary .neg)
  · exact single.fails_of_faulty (.name "inf") (text ▸ spelt) faulty

theorem readsAs_real {x : Float} (number : x.isNaN = false) (bounded : x.isInf = false)
    {tail rest : List Char} {us : List Token}
    (reads : ReadsAs (Decimal.printed.magnitude (Decimal.Binary.ofFloat x) ++ tail) us rest) :
    ReadsAs ((Literal.real x).text ++ tail)
      (if Decimal.isNegative x then .fixed .minus :: us else us) rest := by
  rw [Literal.text, toList_printed number bounded]
  split
  · exact .scan rfl rfl reads
  · exact reads

theorem readsAs_pointless {d sign : Char} (digit : d.isDigit) (signed : sign = '-' ∨ sign = '+')
    (more : List Char) :
    ∃ n, ReadsAs (d :: 'e' :: sign :: more) [.int n, .name "e"] (sign :: more) := by
  have value : Nat.ofDigitChars 10 [d] 0 < 2 ^ 63 := by
    have bound := d.val.toNat_lt
    have eq : Nat.ofDigitChars 10 [d] 0 = d.val.toNat - '0'.toNat := by simp [Nat.ofDigitChars]
    omega
  have found : scan d ('e' :: sign :: more) = some (.int, 0) := by
    rw [scan, if_pos digit]
    rfl
  have name : ReadsAs ('e' :: sign :: more) [.name "e"] (sign :: more) := by
    rcases signed with rfl | rfl
    · exact .scan rfl rfl (.nil _)
    · exact .scan rfl rfl (.nil _)
  refine ⟨Int64.ofNat (Nat.ofDigitChars 10 [d] 0), .scan found ?_ name⟩
  rw [Class.token?, List.take_zero, intValue_eq, if_pos value, Option.map_some]

theorem longest_large {d : Char} {ds : List Char} (digit : d.isDigit) (digits : ∀ c ∈ ds, c.isDigit)
    (more : List Char) :
    let w := [d] ++ '.' :: (ds ++ ['e'])
    Longest .real w (w ++ '+' :: more) ∧ Class.real.token? w = none := by
  intro w
  have real : w ∈ Class.real.language :=
    mem_real.mpr (.inr (.inr ⟨[d], ds, ['e'], [], by simp, by simpa using digit, digits, by simp,
      by simp, by simp [w]⟩))
  refine ⟨longest_of_stops real (by simp) rfl (.inl digit) (by rintro d ⟨⟩; decide), ?_⟩
  rw [Class.token?, realValue_parts (by simpa using digit) digits (by rintro d ⟨⟩; rfl)]
  rfl

/-- A finite real that is not read back has an exponent after a single digit, or a positive one. -/
theorem fails_finite {x : Float} (single : Single ls a (.real x)) (number : x.isNaN = false)
    (bounded : x.isInf = false) (lost : ¬ (Literal.real x).PrintsBack) :
    Fails limit heap (echo ((Value.list a).repr ls)) := by
  have printed := Decimal.printed_magnitude (Decimal.finite_absolute number bounded)
  rw [Decimal.ofFloat_absolute number] at printed
  have signed := @readsAs_real x number bounded ending
  have text := toList_printed number bounded
  generalize Decimal.printed.magnitude (Decimal.Binary.ofFloat x) = w at printed signed text
  cases printed with
  | lexeme _ _ point noPlus =>
    refine absurd ⟨number, bounded, ?_, fun inside => ?_⟩ lost
    · rw [text]
      split
      · exact List.mem_cons_of_mem _ point
      · exact point
    · have plus := inside.subset (List.mem_pair.mpr (.inr rfl))
      rw [text] at plus
      split at plus
      · rcases List.mem_cons.mp plus with same | plus
        · cases same
        · exact noPlus plus
      · exact noPlus plus
  | @pointless d sign es digit mark _ =>
    obtain ⟨n, reads⟩ := readsAs_pointless digit mark (es ++ ending)
    refine single.fails_of_rejected (signed reads) ?_
    split
    · rfl
    · rfl
  | @large d ds es digit digits _ =>
    obtain ⟨longest, none⟩ := longest_large digit digits (es ++ ending)
    have start : ReadsAs (d :: '.' :: (ds ++ 'e' :: '+' :: es) ++ ending) []
        ([d] ++ '.' :: (ds ++ ['e']) ++ '+' :: (es ++ ending)) := by
      simpa using ReadsAs.nil _
    exact single.fails_of_stuck (signed start) longest none

theorem fails_real {x : Float} (single : Single ls a (.real x))
    (lost : ¬ (Literal.real x).PrintsBack) : Fails limit heap (echo ((Value.list a).repr ls)) := by
  cases number : x.isNaN with
  | true => exact single.fails_nan number
  | false =>
    cases bounded : x.isInf with
    | true => exact single.fails_infinite number bounded
    | false => exact single.fails_finite number bounded lost

theorem fails_str {s : String} (single : Single ls a (.str s)) (quote : '\'' ∈ s.toList)
    (double : '"' ∈ s.toList) : Fails limit heap (echo ((Value.list a).repr ls)) := by
  obtain ⟨before, after, eq, first⟩ := List.eq_append_cons_of_mem quote
  have mark : Text.quoteMark s.toList = '\'' := by simp [Text.quoteMark, double]
  let w := '\'' :: (before.flatMap (Text.shown '\'') ++ ['\\'] ++ ['\''])
  let rest := after.flatMap (Text.shown '\'') ++ '\'' :: ending
  have text : (Literal.str s).text ++ ending = w ++ rest := by
    have shown : Text.shown '\'' '\'' = ['\\', '\''] := rfl
    rw [Literal.text, Text.toList_literal, mark, eq]
    simp [w, rest, shown]
  have closed : '\'' ∉ before.flatMap (Text.shown '\'') ++ ['\\'] := by
    have inner := Text.notMem_flatMap_shown (.inr rfl) first
    simp [inner]
  have longest := longest_quoted (mem_str.mpr ⟨_, _, .inr rfl, closed, rfl⟩) rest
  have reads := ReadsAs.lexeme longest (token?_quoted _ _) (.nil rest)
  rw [← text] at reads
  obtain ⟨e, unread⟩ := (single.readsAs reads).readAll_of_unread fun _ _ reading =>
    rest_ne_nil_of_escaped (by decide) (by decide) reading _ rfl (escaped_flatMap_shown after)
  exact .of_parse (Program.parse_of_unread unread)

end Single

end Scriptlet
