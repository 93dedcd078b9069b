import Scriptlet.Proofs.Printing.Numerals

namespace Scriptlet

namespace Text

def unescaped (c : Char) : Char :=
  if c = 'n' then '\n' else if c = 't' then '\t' else if c = 'r' then '\r' else c

def unquoted (q : Char) : List Char → Option (List Char × List Char)
  | [] => none
  | '\\' :: c :: text => (unquoted q text).map fun p => (unescaped c :: p.1, p.2)
  | c :: text =>
    if c = q then some ([], text) else (unquoted q text).map fun p => (c :: p.1, p.2)

variable {q : Char}

theorem unquoted_cons {c : Char} (other : c ≠ '\\') (text : List Char) : unquoted q (c :: text) =
    if c = q then some ([], text) else (unquoted q text).map fun p => (c :: p.1, p.2) := by
  rw [unquoted]
  rintro _ _ rfl
  exact absurd rfl other

theorem unquoted_shown (quote : q = '"' ∨ q = '\'') (c : Char) (text : List Char) :
    unquoted q (shown q c ++ text) = (unquoted q text).map fun p => (c :: p.1, p.2) := by
  by_cases backslash : c = '\\'
  · subst backslash
    rfl
  by_cases newline : c = '\n'
  · subst newline
    rfl
  by_cases tab : c = '\t'
  · subst tab
    rfl
  by_cases back : c = '\r'
  · subst back
    rfl
  by_cases mark : c = q
  · subst mark
    rcases quote with rfl | rfl <;> rfl
  · simp only [shown, if_neg backslash, if_neg newline, if_neg tab, if_neg back, if_neg mark]
    exact (unquoted_cons backslash text).trans (if_neg mark)

theorem unquoted_flatMap_shown (quote : q = '"' ∨ q = '\'') (cs rest : List Char) :
    unquoted q (cs.flatMap (shown q) ++ q :: rest) = some (cs, rest) := by
  induction cs with
  | nil => rcases quote with rfl | rfl <;> rfl
  | cons c cs ih =>
    rw [List.flatMap_cons, List.append_assoc, unquoted_shown quote, ih]
    rfl

theorem eq_of_literal {s s' : String} {rest rest' : List Char}
    (same : (literal s).toList ++ rest = (literal s').toList ++ rest') : s = s' ∧ rest = rest' := by
  rw [toList_literal, toList_literal] at same
  simp only [List.cons_append, List.append_assoc, List.nil_append, List.cons.injEq] at same
  obtain ⟨mark, same⟩ := same
  have read := unquoted_flatMap_shown (quoteMark_cases s.toList) s.toList rest
  rw [same, mark, unquoted_flatMap_shown (quoteMark_cases s'.toList)] at read
  obtain ⟨chars, rests⟩ := Prod.mk.inj (Option.some.inj read)
  exact ⟨String.toList_injective chars.symm, rests.symm⟩

end Text

def closers : List Char := [',', ']', ')']

def kindFrom? (c : Char) : Option Kind :=
  if c ∈ ['T', 'F'] then some .boolean
  else if c ∈ ['"', '\''] then some .string
  else if c = '[' then some .list
  else if c = '(' then some .tuple
  else none

theorem number_start {c : Char} (start : c.isDigit ∨ c ∈ ['-', 'i', 'n']) :
    kindFrom? c = none ∧ c ∉ '.' :: closers := by
  rcases start with digit | listed
  · have other {d : Char} (noDigit : d.isDigit = false) : c ≠ d := by
      rintro rfl
      rw [digit] at noDigit
      cases noDigit
    have others {cs : List Char} (none : ∀ d ∈ cs, d.isDigit = false) : c ∉ cs :=
      fun member => other (none c member) rfl
    constructor
    · rw [kindFrom?, if_neg (others (by simp)), if_neg (others (by simp)), if_neg (other rfl),
        if_neg (other rfl)]
    · exact others (by simp [closers])
  · simp only [List.mem_cons, List.not_mem_nil, or_false] at listed
    rcases listed with rfl | rfl | rfl <;> decide

namespace Literal

def Same : Literal → Literal → Prop
  | real x, real y => x = y ∨ x.isNaN ∧ y.isNaN
  | l, l' => l = l'

def kind? : Literal → Option Kind
  | bool _ => some .boolean
  | str _ => some .string
  | _ => none

theorem text_int (n : Int64) : (int n).text =
    if n.toInt < 0 then '-' :: Nat.toDigits 10 n.toInt.natAbs
    else Nat.toDigits 10 n.toInt.natAbs := by
  rw [text]
  cases n.toInt with
  | ofNat m => exact Nat.toList_repr
  | negSucc m => exact (toList_toString_negSucc m).trans (if_pos (Int.negSucc_lt_zero m)).symm

variable {l l' : Literal} {c : Char}

theorem mem_text_int {n : Int64} (member : c ∈ (int n).text) : c.isDigit ∨ c = '-' := by
  rw [text_int] at member
  split at member
  · rcases List.mem_cons.mp member with rfl | member
    · exact .inr rfl
    · exact .inl (Lexeme.toDigits_isDigit _ c member)
  · exact .inl (Lexeme.toDigits_isDigit _ c member)

theorem head_int (n : Int64) :
    ∃ c, (int n).text.head? = some c ∧ (c.isDigit ∨ c ∈ ['-', 'i', 'n']) := by
  have ne : (int n).text ≠ [] := by
    rw [text_int]
    split
    · exact nofun
    · exact Nat.toDigits_ne_nil
  obtain ⟨c, cs, eq⟩ := List.exists_cons_of_ne_nil ne
  refine ⟨c, by rw [eq, List.head?_cons], (mem_text_int (eq ▸ List.mem_cons_self)).imp_right ?_⟩
  rintro rfl
  exact List.mem_cons_self

theorem exists_head (l : Literal) :
    ∃ c, l.text.head? = some c ∧ kindFrom? c = l.kind? ∧ c ∉ '.' :: closers := by
  cases l with
  | bool b => cases b <;> exact ⟨_, rfl, by decide⟩
  | int n =>
    obtain ⟨c, head, start⟩ := head_int n
    exact ⟨c, head, number_start start⟩
  | real x =>
    obtain ⟨c, head, start⟩ := Decimal.head_text x
    exact ⟨c, head, number_start start⟩
  | str s =>
    rw [text, Text.toList_literal]
    refine ⟨_, rfl, ?_⟩
    rcases Text.quoteMark_cases s.toList with eq | eq
    · rw [eq]
      exact ⟨rfl, by decide⟩
    · rw [eq]
      exact ⟨rfl, by decide⟩

def isPlain (c : Char) : Bool := c.isAlphanum || c = '.' || c = '-' || c = '+'

theorem isPlain_of_isDigit (digit : c.isDigit) : isPlain c := by
  simp [isPlain, Char.isAlphanum, digit]

theorem isPlain_of_mem_text {x : Float} (member : c ∈ (Decimal.printed.text x).toList) :
    isPlain c := by
  have unsigned : ∀ d ∈ Decimal.unsignedText x, isPlain d := by
    rcases Decimal.unsignedText_cases x with ⟨eq, -⟩ | ⟨eq, -⟩ | ⟨n, eq, -⟩
    · rw [eq]
      exact List.all_eq_true.mp rfl
    · rw [eq]
      exact List.all_eq_true.mp rfl
    · rw [eq]
      have signs : ['.', 'e', '-', '+'].all isPlain := rfl
      intro d member
      exact (n.mem_text member).elim isPlain_of_isDigit (List.all_eq_true.mp signs d)
  rw [Decimal.toList_text] at member
  split at member
  · exact (List.mem_cons.mp member).elim (fun same => same ▸ rfl) (unsigned c)
  · exact unsigned c member

theorem isPlain_text (plain : l.kind? ≠ some .string) : ∀ c ∈ l.text, isPlain c := by
  cases l with
  | str s => exact absurd rfl plain
  | bool b => cases b <;> exact List.all_eq_true.mp rfl
  | int n =>
    intro c member
    rcases mem_text_int member with digit | rfl
    · exact isPlain_of_isDigit digit
    · rfl
  | real x => exact fun c member => isPlain_of_mem_text member

theorem exists_mark (x : Float) : ∃ c ∈ (real x).text, c ∈ ['.', 'e', 'n'] := by
  have unsigned : ∃ c ∈ Decimal.unsignedText x, c ∈ ['.', 'e', 'n'] := by
    rcases Decimal.unsignedText_cases x with ⟨eq, -⟩ | ⟨eq, -⟩ | ⟨n, eq, -⟩
    · exact ⟨'n', by simp [eq], by simp⟩
    · exact ⟨'n', by simp [eq], by simp⟩
    · rcases n.exists_mark with point | power
      · exact ⟨'.', eq ▸ point, by simp⟩
      · exact ⟨'e', eq ▸ power, by simp⟩
  obtain ⟨c, member, mark⟩ := unsigned
  refine ⟨c, ?_, mark⟩
  rw [text, Decimal.toList_text]
  split
  · exact List.mem_cons_of_mem _ member
  · exact member

theorem text_int_ne_real (n : Int64) (x : Float) : (int n).text ≠ (real x).text := by
  intro same
  obtain ⟨c, member, mark⟩ := exists_mark x
  have digit := mem_text_int (same ▸ member)
  simp only [List.mem_cons, List.not_mem_nil, or_false] at mark
  rcases mark with rfl | rfl | rfl <;> simp at digit

theorem text_int_injective {n n' : Int64} (same : (int n).text = (int n').text) : n = n' := by
  have noMinus (k : Nat) (ds : List Char) : Nat.toDigits 10 k ≠ '-' :: ds := by
    intro eq
    have digit := Lexeme.toDigits_isDigit k '-' (eq ▸ List.mem_cons_self)
    cases digit
  have size {k k' : Nat} (eq : Nat.toDigits 10 k = Nat.toDigits 10 k') : k = k' := by
    rw [← @Nat.ofDigitChars_ten_toDigits k, eq, Nat.ofDigitChars_ten_toDigits]
  apply Int64.toInt_inj.mp
  rw [text_int, text_int] at same
  split at same
  · split at same
    · have abs := size (List.cons.inj same).2
      omega
    · exact absurd same.symm (noMinus _ _)
  · split at same
    · exact absurd same (noMinus _ _)
    · have abs := size same
      omega

theorem Same.text_eq (same : l.Same l') : l.text = l'.text := by
  cases l with
  | real x =>
    cases l' with
    | real y =>
      rcases same with rfl | ⟨nan, nan'⟩
      · rfl
      · rw [text, text, Decimal.toList_text, Decimal.toList_text, Decimal.hasSign, Decimal.hasSign,
          Decimal.unsignedText_eq_nan nan, Decimal.unsignedText_eq_nan nan', nan, nan']
        rfl
    | _ => cases same
  | _ =>
    obtain rfl := same
    rfl

theorem same_of_text (alike : l.kind? = l'.kind?) (same : l.text = l'.text) : l.Same l' := by
  cases l with
  | bool b =>
    cases l' with
    | bool b' => cases b <;> cases b' <;> first | rfl | cases same
    | _ => cases alike
  | int n =>
    cases l' with
    | int n' => exact congrArg int (text_int_injective same)
    | real x => exact absurd same (text_int_ne_real n x)
    | _ => cases alike
  | real x =>
    cases l' with
    | int n => exact absurd same.symm (text_int_ne_real n x)
    | real y => exact Decimal.eq_of_text (String.toList_injective same)
    | _ => cases alike
  | str s =>
    cases l' with
    | str s' =>
      obtain ⟨rfl, -⟩ := @Text.eq_of_literal s s' [] [] (congrArg (· ++ []) same)
      rfl
    | _ => cases alike

end Literal

def AfterElement (rest : List Char) : Prop := ∀ c, rest.head? = some c → c ∈ closers

theorem afterElement_cons {c : Char} (listed : c ∈ closers) (rest : List Char) :
    AfterElement (c :: rest) := by
  intro d head
  cases head
  exact listed

theorem AfterElement.stop {rest : List Char} (ends : AfterElement rest) :
    ∀ c, rest.head? = some c → Literal.isPlain c = false := by
  intro c head
  have others : closers.all (!Literal.isPlain ·) := rfl
  simpa using List.all_eq_true.mp others c (ends c head)

theorem Literal.same_of_append {l l' : Literal} {rest rest' : List Char}
    (alike : l.kind? = l'.kind?) (ends : AfterElement rest) (ends' : AfterElement rest')
    (same : l.text ++ rest = l'.text ++ rest') : l.Same l' ∧ rest = rest' := by
  by_cases plain : l.kind? = some .string
  · cases l with
    | str s =>
      cases l' with
      | str s' =>
        obtain ⟨rfl, rests⟩ := Text.eq_of_literal same
        exact ⟨rfl, rests⟩
      | _ => cases alike
    | _ => cases plain
  · obtain ⟨texts, rests⟩ := eq_of_runs (isPlain_text plain) (isPlain_text (alike ▸ plain))
      ends.stop ends'.stop same
    exact ⟨same_of_text alike texts, rests⟩

theorem head?_append_of_some {w rest : List Char} {c : Char} (head : w.head? = some c) :
    (w ++ rest).head? = some c := by
  rw [List.head?_append, head, Option.some_or]

namespace Tree

/-- The same tree, but for which NaN stands where. -/
inductive Same : Tree → Tree → Prop
  | leaf {l l' : Literal} : l.Same l' → Same (leaf l) (leaf l')
  | list {ts ts' : List Tree} : List.Forall₂ Same ts ts' → Same (list ts) (list ts')
  | tuple {ts ts' : List Tree} : List.Forall₂ Same ts ts' → Same (tuple ts) (tuple ts')

def kind? : Tree → Option Kind
  | leaf l => l.kind?
  | list _ => some .list
  | tuple _ => some .tuple

theorem exists_head (t : Tree) :
    ∃ c, t.text.head? = some c ∧ kindFrom? c = t.kind? ∧ c ∉ '.' :: closers := by
  cases t with
  | leaf l => exact l.exists_head
  | list ts => exact ⟨'[', rfl, rfl, by decide⟩
  | tuple ts => exact ⟨'(', rfl, rfl, by decide⟩

theorem kind?_of_append {t t' : Tree} {rest rest' : List Char}
    (same : t.text ++ rest = t'.text ++ rest') : t.kind? = t'.kind? := by
  obtain ⟨c, head, kind, -⟩ := t.exists_head
  obtain ⟨c', head', kind', -⟩ := t'.exists_head
  have both : (t.text ++ rest).head? = some c := head?_append_of_some head
  rw [same, head?_append_of_some head'] at both
  cases both
  exact kind.symm.trans kind'

/-- No other tree has a text that goes on as that of this tree does. -/
def Told (t : Tree) : Prop := ∀ t' rest rest', AfterElement rest → AfterElement rest' →
  t.text ++ rest = t'.text ++ rest' → t.Same t' ∧ rest = rest'

def more (ts : List Tree) : List Char := ts.flatMap fun t => ',' :: ' ' :: t.text

theorem intercalate_texts (t : Tree) (ts : List Tree) :
    [',', ' '].intercalate ((t :: ts).map text) = t.text ++ more ts := by
  induction ts generalizing t with
  | nil =>
    rw [List.map_singleton, List.intercalate_singleton, more, List.flatMap_nil, List.append_nil]
  | cons u us ih =>
    rw [List.map_cons, List.map_cons, List.intercalate_cons_cons, ← List.map_cons, ih]
    simp [more]

structure Closes (close : List Char) : Prop where
  ends : AfterElement close
  last : ∀ w, close ≠ ',' :: ' ' :: w

theorem ends_more {close : List Char} (closes : Closes close) (ts : List Tree) :
    AfterElement (more ts ++ close) := by
  cases ts with
  | nil => exact closes.ends
  | cons t ts => exact afterElement_cons (by decide) _

variable {ts ts' : List Tree} {close close' : List Char}

theorem same_of_more (told : ∀ t ∈ ts, t.Told) (closes : Closes close) (closes' : Closes close')
    (same : more ts ++ close = more ts' ++ close') :
    List.Forall₂ Same ts ts' ∧ close = close' := by
  induction ts generalizing ts' with
  | nil =>
    cases ts' with
    | nil => exact ⟨.nil, same⟩
    | cons t' ts' => exact absurd same (closes.last _)
  | cons t ts ih =>
    cases ts' with
    | nil => exact absurd same.symm (closes'.last _)
    | cons t' ts' =>
      have inner : t.text ++ (more ts ++ close) = t'.text ++ (more ts' ++ close') := by
        simpa [more] using same
      obtain ⟨first, rest⟩ := told t List.mem_cons_self t' _ _ (ends_more closes ts)
        (ends_more closes' ts') inner
      obtain ⟨others, last⟩ := ih (fun u member => told u (List.mem_cons_of_mem _ member)) rest
      exact ⟨.cons first others, last⟩

theorem same_of_items (told : ∀ t ∈ ts, t.Told) (closes : Closes close) (closes' : Closes close')
    (same : [',', ' '].intercalate (ts.map text) ++ close =
      [',', ' '].intercalate (ts'.map text) ++ close') :
    List.Forall₂ Same ts ts' ∧ close = close' := by
  have noElement {close : List Char} (closes : Closes close) (t : Tree) (w : List Char) :
      close ≠ t.text ++ w := by
    rintro rfl
    obtain ⟨c, head, -, other⟩ := t.exists_head
    exact other (List.mem_cons_of_mem _ (closes.ends c (head?_append_of_some head)))
  cases ts with
  | nil =>
    cases ts' with
    | nil => exact ⟨.nil, same⟩
    | cons t' ts' =>
      rw [intercalate_texts, List.append_assoc] at same
      exact absurd same (noElement closes t' _)
  | cons t ts =>
    rw [intercalate_texts, List.append_assoc] at same
    cases ts' with
    | nil => exact absurd same.symm (noElement closes' t _)
    | cons t' ts' =>
      rw [intercalate_texts, List.append_assoc] at same
      obtain ⟨first, rest⟩ := told t List.mem_cons_self t' _ _ (ends_more closes ts)
        (ends_more closes' ts') same
      obtain ⟨others, last⟩ :=
        same_of_more (fun u member => told u (List.mem_cons_of_mem _ member)) closes closes' rest
      exact ⟨.cons first others, last⟩

theorem closes_list (rest : List Char) : Closes (']' :: rest) :=
  ⟨afterElement_cons (by decide) rest, nofun⟩

theorem closes_tuple (n : Nat) (rest : List Char) :
    Closes ((if n = 1 then [',', ')'] else [')']) ++ rest) := by
  split
  · exact ⟨afterElement_cons (by decide) _, nofun⟩
  · exact ⟨afterElement_cons (by decide) _, nofun⟩

theorem told (t : Tree) : t.Told := by
  intro t' rest rest' ends ends' same
  have alike := kind?_of_append same
  match t with
  | leaf l =>
    cases t' with
    | leaf l' =>
      obtain ⟨leaves, rests⟩ := Literal.same_of_append alike ends ends' same
      exact ⟨.leaf leaves, rests⟩
    | list ts' => cases l <;> cases alike
    | tuple ts' => cases l <;> cases alike
  | list ts =>
    cases t' with
    | leaf l' => cases l' <;> cases alike
    | list ts' =>
      have inner : ∀ t ∈ ts, t.Told := fun t member => told t
      simp only [text, textsOf_eq, List.cons_append, List.append_assoc, List.cons.injEq,
        true_and] at same
      obtain ⟨items, rests⟩ := same_of_items inner (closes_list rest) (closes_list rest') same
      exact ⟨.list items, (List.cons.inj rests).2⟩
    | tuple ts' => cases alike
  | tuple ts =>
    cases t' with
    | leaf l' => cases l' <;> cases alike
    | list ts' => cases alike
    | tuple ts' =>
      have inner : ∀ t ∈ ts, t.Told := fun t member => told t
      simp only [text, textsOf_eq, List.cons_append, List.append_assoc, List.cons.injEq,
        true_and] at same
      obtain ⟨items, rests⟩ := same_of_items inner (closes_tuple _ rest) (closes_tuple _ rest') same
      rw [items.length_eq] at rests
      exact ⟨.tuple items, List.append_cancel_left rests⟩
termination_by t.size
decreasing_by
  · exact size_lt_of_mem (t := .list ts) member
  · exact size_lt_of_mem (t := .tuple ts) member

theorem same_of_text {t t' : Tree} (same : t.text = t'.text) : t.Same t' :=
  (told t t' [] [] nofun nofun (congrArg (· ++ []) same)).1

theorem Same.text_eq {t t' : Tree} (same : t.Same t') : t.text = t'.text := by
  have items {ts ts' : List Tree} (all : List.Forall₂ (fun t t' => t.text = t'.text) ts ts') :
      ts.map text = ts'.map text := by
    rw [← List.forall₂_eq_eq_eq, List.forall₂_map_left_iff, List.forall₂_map_right_iff]
    exact all
  match t, same with
  | .leaf l, .leaf same => exact same.text_eq
  | .list ts, .list all =>
    have texts := forall₂_imp_mem all fun t member _ _ same => same.text_eq
    rw [text, text, textsOf_eq, textsOf_eq, items texts]
  | .tuple ts, .tuple all =>
    have texts := forall₂_imp_mem all fun t member _ _ same => same.text_eq
    rw [text, text, textsOf_eq, textsOf_eq, items texts, all.length_eq]
termination_by t.size
decreasing_by
  · exact size_lt_of_mem (t := .list ts) member
  · exact size_lt_of_mem (t := .tuple ts) member

end Tree

/--
Two values whose lists do not contain themselves have the same text inside a list, each with its own
table of lists, just if they are the same tree: the same lists and tuples, and the same literals in
the same places, except that one NaN shows as another.
-/
theorem repr_eq_iff_sameTree (ls ls' : Lists) (u v : Value) (left : u.Acyclic ls)
    (right : v.Acyclic ls') : u.repr ls = v.repr ls' ↔
      ∃ t t', u.Unfolds ls t ∧ v.Unfolds ls' t' ∧ t.Same t' := by
  obtain ⟨t, unfolds⟩ := Value.acyclic_iff.mp left
  obtain ⟨t', unfolds'⟩ := Value.acyclic_iff.mp right
  rw [← String.toList_inj, unfolds.repr_eq, unfolds'.repr_eq]
  constructor
  · exact fun same => ⟨t, t', unfolds, unfolds', Tree.same_of_text same⟩
  · rintro ⟨w, w', again, again', same⟩
    rw [unfolds.unique again, unfolds'.unique again']
    exact same.text_eq

namespace Value

/-- `[["', '"], ["', '"]]` with the inner list twice, and with two inner lists. -/
def sharedTwice : Lists × Lists :=
  (⟨#[.ofList [.str "', '"], .ofList [.list ⟨0⟩, .list ⟨0⟩]]⟩,
    ⟨#[.ofList [.str "', '"], .ofList [.str "', '"], .ofList [.list ⟨0⟩, .list ⟨1⟩]]⟩)

theorem repr_eq_iff_sameTree_shared :
    (list ⟨1⟩).repr sharedTwice.1 = (list ⟨2⟩).repr sharedTwice.2 ∧
    (tuple [.real (Float.ofBits 0)]).repr .empty ≠
      (tuple [.real (Float.ofBits 0x8000000000000000)]).repr .empty := by
  have inner (ls : Lists) (a : ListId) (listed : a.index < ls.size)
      (one : (ls.get a).toList = [.str "', '"]) :
      (list a).Unfolds ls (.list [.leaf (.str "', '")]) :=
    unfolds_list_iff.mpr ⟨listed, _, rfl, one ▸ .cons (.leaf _ rfl) .nil⟩
  let row := Tree.list [.leaf (.str "', '")]
  have left : (list ⟨1⟩).Unfolds sharedTwice.1 (.list [row, row]) :=
    have first := inner sharedTwice.1 ⟨0⟩ (by decide) rfl
    unfolds_list_iff.mpr ⟨by decide, _, rfl, .cons first (.cons first .nil)⟩
  have right : (list ⟨2⟩).Unfolds sharedTwice.2 (.list [row, row]) :=
    have first := inner sharedTwice.2 ⟨0⟩ (by decide) rfl
    have second := inner sharedTwice.2 ⟨1⟩ (by decide) rfl
    unfolds_list_iff.mpr ⟨by decide, _, rfl, .cons first (.cons second .nil)⟩
  have zero (bits : UInt64) : (tuple [.real (Float.ofBits bits)]).Unfolds .empty
      (.tuple [.leaf (.real (Float.ofBits bits))]) :=
    unfolds_tuple_iff.mpr ⟨_, rfl, .cons (.leaf _ rfl) .nil⟩
  constructor
  · have same : row.Same row := .list (.cons (.leaf rfl) .nil)
    apply (repr_eq_iff_sameTree _ _ _ _ (acyclic_iff.mpr ⟨_, left⟩)
      (acyclic_iff.mpr ⟨_, right⟩)).mpr
    exact ⟨_, _, left, right, .list (.cons same (.cons same .nil))⟩
  · intro texts
    obtain ⟨t, t', unfolds, unfolds', trees⟩ := (repr_eq_iff_sameTree _ _ _ _
      (acyclic_iff.mpr ⟨_, zero _⟩) (acyclic_iff.mpr ⟨_, zero _⟩)).mp texts
    rw [unfolds.unique (zero _), unfolds'.unique (zero _)] at trees
    cases trees with | tuple items =>
    cases items with | cons first _ =>
    cases first with | leaf same =>
    rcases same with same | ⟨nan, -⟩
    · exact absurd (congrArg Float.toBits same) (by decide +kernel)
    · exact absurd nan (by decide +kernel)

end Value

end Scriptlet
