import Scriptlet.Proofs.Printing.Printer

namespace Scriptlet

def Token.isParen : Token → Bool
  | fixed .lparen | fixed .rparen => true
  | _ => false

def Token.opening : Token → Int
  | fixed .lparen => 1
  | fixed .rparen => -1
  | _ => 0

theorem Token.opening_of_not_isParen {t : Token} (word : t.isParen = false) : t.opening = 0 := by
  unfold isParen at word
  split at word
  · cases word
  · cases word
  · rename_i noLeft noRight
    unfold opening
    split
    · exact absurd rfl noLeft
    · exact absurd rfl noRight
    · rfl

theorem Literal.isParen_token (l : Literal) : l.token.isParen = false := by
  cases l with
  | bool b => cases b <;> rfl
  | _ => rfl

theorem UnaryOp.isParen_token (op : UnaryOp) : (Token.fixed op.token).isParen = false := by
  cases op <;> rfl

theorem BinaryOp.isParen_token (op : BinaryOp) : (Token.fixed op.token).isParen = false := by
  cases op with
  | compare c => cases c <;> rfl
  | arith op => cases op <;> rfl
  | _ => rfl

def depth (ts : List Token) : Int := (ts.map Token.opening).sum

theorem depth_append (ts us : List Token) : depth (ts ++ us) = depth ts + depth us := by
  rw [depth, List.map_append, List.sum_append]
  rfl

theorem depth_cons (t : Token) (ts : List Token) : depth (t :: ts) = t.opening + depth ts := by
  rw [depth, List.map_cons, List.sum_cons]
  rfl

/-- Parentheses are closed after they are opened, and all are closed at the end. -/
structure Nested (ts : List Token) : Prop where
  closed : depth ts = 0
  opened : ∀ us vs, ts = us ++ vs → 0 ≤ depth us

namespace Nested

variable {t : Token} {ts us vs : List Token}

theorem nil : Nested [] := by
  refine ⟨rfl, fun us vs same => ?_⟩
  rw [(List.append_eq_nil_iff.mp same.symm).1]
  exact Int.le_refl 0

theorem append (first : Nested ts) (second : Nested us) : Nested (ts ++ us) := by
  refine ⟨by rw [depth_append, first.closed, second.closed]; rfl, fun vs ws whole => ?_⟩
  rcases List.append_eq_append_iff.mp whole with ⟨between, rfl, same⟩ | ⟨between, same, rfl⟩
  · rw [depth_append, first.closed, Int.zero_add]
    exact second.opened between ws same
  · exact first.opened vs between same

theorem cons (word : t.isParen = false) (nested : Nested ts) : Nested (t :: ts) := by
  have level := Token.opening_of_not_isParen word
  refine ⟨by rw [depth_cons, level, nested.closed]; rfl, fun us vs whole => ?_⟩
  rcases List.cons_eq_append_iff.mp whole with ⟨rfl, _⟩ | ⟨us, rfl, same⟩
  · exact Int.le_refl 0
  · rw [depth_cons, level, Int.zero_add]
    exact nested.opened us vs same

theorem depth_pos (nested : Nested ts) (some : us ≠ []) (more : vs ≠ [])
    (whole : .fixed .lparen :: ts ++ [.fixed .rparen] = us ++ vs) : 0 < depth us := by
  rcases List.cons_eq_append_iff.mp whole with ⟨none, _⟩ | ⟨us, rfl, same⟩
  · exact absurd none some
  · have opened : 0 ≤ depth us := by
      rcases List.append_eq_append_iff.mp same with ⟨between, rfl, last⟩ | ⟨between, inside, _⟩
      · rcases List.append_eq_singleton_iff.mp last.symm with ⟨rfl, _⟩ | ⟨_, none⟩
        · rw [List.append_nil, nested.closed]
        · exact absurd none more
      · exact nested.opened us between inside
    have here : Token.opening (.fixed .lparen) = 1 := rfl
    rw [depth_cons, here]
    omega

theorem group (nested : Nested ts) : Nested (.fixed .lparen :: ts ++ [.fixed .rparen]) := by
  have closed : depth (.fixed .lparen :: ts ++ [.fixed .rparen]) = 0 := by
    rw [depth_append, depth_cons, nested.closed]
    rfl
  refine ⟨closed, fun us vs same => ?_⟩
  by_cases none : us = []
  · rw [none]
    exact Int.le_refl 0
  by_cases all : vs = []
  · rw [all, List.append_nil] at same
    rw [← same, closed]
  · exact (nested.depth_pos none all same).le

theorem not_group (nested : Nested ts) (first : Nested us) (some : us ≠ []) (more : vs ≠ []) :
    .fixed .lparen :: ts ++ [.fixed .rparen] ≠ us ++ vs := fun same =>
  absurd first.closed (nested.depth_pos some more same).ne'

theorem separated {parts : List (List Token)} (nested : ∀ ts ∈ parts, Nested ts) :
    Nested (separated parts) := by
  match parts with
  | [] => exact nil
  | [ts] => exact nested ts List.mem_cons_self
  | ts :: us :: rest =>
    have others := separated fun vs listed => nested vs (List.mem_cons_of_mem ts listed)
    exact (nested ts List.mem_cons_self).append (others.cons rfl)

theorem brackets {parts : List (List Token)} (nested : ∀ ts ∈ parts, Nested ts) :
    Nested (parts.flatMap bracketed) := by
  induction parts with
  | nil => exact nil
  | cons ts parts ih =>
    have close : Nested [.fixed .rbracket] := .cons rfl nil
    have first : Nested (bracketed ts) := .cons rfl ((nested ts List.mem_cons_self).append close)
    exact first.append (ih fun us listed => nested us (List.mem_cons_of_mem ts listed))

end Nested

namespace Phrase

def parts : Phrase → List Phrase
  | literal _ | name _ => []
  | call _ gs | list gs | tuple gs => gs
  | group g | field _ g | unary _ g => [g]
  | index target indices => target :: indices
  | binary _ l r => [l, r]

theorem sizeOf_lt_of_mem_parts {g p : Phrase} (part : p ∈ g.parts) : sizeOf p < sizeOf g := by
  cases g with
  | literal l => cases part
  | name x => cases part
  | list gs | tuple gs | call f gs =>
    have smaller : sizeOf p < sizeOf gs := List.sizeOf_lt_of_mem part
    simp only [list.sizeOf_spec, tuple.sizeOf_spec, call.sizeOf_spec]
    omega
  | group g | unary op g | field n g =>
    rw [List.mem_singleton.mp part]
    simp only [group.sizeOf_spec, unary.sizeOf_spec, field.sizeOf_spec]
    omega
  | binary op l r =>
    simp only [binary.sizeOf_spec]
    rcases List.mem_pair.mp part with rfl | rfl <;> omega
  | index target indices =>
    have smaller : sizeOf p < sizeOf (target :: indices) := List.sizeOf_lt_of_mem part
    simp only [List.cons.sizeOf_spec] at smaller
    simp only [index.sizeOf_spec]
    omega

theorem parts_induction {P : Phrase → Prop} (step : ∀ g : Phrase, (∀ p ∈ g.parts, P p) → P g)
    (g : Phrase) : P g :=
  step g fun p part => by
    have smaller : sizeOf p < sizeOf g := sizeOf_lt_of_mem_parts part
    exact parts_induction step p
termination_by g

def trailing (gs : List Phrase) : List Token := if gs.length = 1 then [.fixed .comma] else []

theorem tokens_tuple (gs : List Phrase) : (tuple gs).tokens =
    .fixed .lparen :: (separated (gs.map tokens) ++ trailing gs) ++ [.fixed .rparen] := by
  rw [tokens, tokensOf_eq, trailing]
  split
  · simp
  · simp

theorem nested_trailing (gs : List Phrase) : Nested (trailing gs) := by
  unfold trailing
  split
  · exact .cons rfl .nil
  · exact .nil

theorem nested (g : Phrase) : Nested g.tokens := by
  induction g using parts_induction with
  | step g ih =>
    have each {gs : List Phrase} (among : ∀ p ∈ gs, p ∈ g.parts) :
        ∀ ts ∈ gs.map tokens, Nested ts := by
      rw [List.forall_mem_map]
      exact fun p listed => ih p (among p listed)
    cases g with
    | literal l => exact .cons l.isParen_token .nil
    | name x => exact .cons rfl .nil
    | call f args =>
      rw [tokens, tokensOf_eq]
      exact .cons rfl (Nested.group (.separated (each fun _ => id)))
    | list items =>
      rw [tokens, tokensOf_eq]
      exact .cons rfl ((Nested.separated (each fun _ => id)).append (.cons rfl .nil))
    | tuple items =>
      rw [tokens_tuple]
      exact ((Nested.separated (each fun _ => id)).append (nested_trailing items)).group
    | group g => exact Nested.group (ih g List.mem_cons_self)
    | field n g => exact .cons rfl (.cons rfl (ih g List.mem_cons_self))
    | index target indices =>
      rw [tokens, tokensOf_eq]
      exact (ih target List.mem_cons_self).append (.brackets (each fun _ => List.mem_cons_of_mem _))
    | unary op g => exact .cons op.isParen_token (ih g List.mem_cons_self)
    | binary op l r =>
      have right := ih r (List.mem_cons_of_mem _ List.mem_cons_self)
      exact (ih l List.mem_cons_self).append (.cons op.isParen_token right)

end Phrase

def words (ts : List Token) : List Token := ts.filter fun t => !t.isParen

theorem words_append (ts us : List Token) : words (ts ++ us) = words ts ++ words us :=
  List.filter_append ..

theorem words_cons {t : Token} (word : t.isParen = false) (ts : List Token) :
    words (t :: ts) = t :: words ts := by
  rw [words, List.filter_cons_of_pos (by simp [word])]
  rfl

theorem words_group (ts : List Token) :
    words (.fixed .lparen :: ts ++ [.fixed .rparen]) = words ts := by
  rw [words_append, words, List.filter_cons_of_neg (by decide)]
  exact List.append_nil _

theorem words_separated (parts : List (List Token)) :
    words (separated parts) = separated (parts.map words) := by
  match parts with
  | [] => rfl
  | [ts] => rfl
  | ts :: us :: rest =>
    rw [separated, words_append, words_cons rfl, words_separated (us :: rest)]
    rfl

theorem words_brackets (parts : List (List Token)) :
    words (parts.flatMap bracketed) = (parts.map words).flatMap bracketed := by
  induction parts with
  | nil => rfl
  | cons ts parts ih =>
    have first : words (bracketed ts) = bracketed (words ts) := by
      rw [bracketed, words_append, words_cons rfl]
      rfl
    rw [List.flatMap_cons, words_append, ih, first]
    rfl

/-- Where a text can be cut before a word in two ways, but after the same words, it is cut once. -/
theorem eq_of_words {ts ts' us us' : List Token} {t t' : Token}
    (whole : ts ++ t :: us = ts' ++ t' :: us') (alike : words ts = words ts')
    (word : t.isParen = false) (word' : t'.isParen = false) : ts = ts' ∧ t :: us = t' :: us' := by
  have stop {ts vs us us' : List Token} {t : Token} (word : t.isParen = false)
      (alike : words ts = words (ts ++ vs)) (same : t :: us = vs ++ us') : vs = [] := by
    rw [words_append, List.self_eq_append_right] at alike
    rcases List.cons_eq_append_iff.mp same with ⟨none, _⟩ | ⟨vs, rfl, _⟩
    · exact none
    · rw [words_cons word] at alike
      cases alike
  rcases List.append_eq_append_iff.mp whole with ⟨between, rfl, same⟩ | ⟨between, rfl, same⟩
  · cases stop word alike same
    exact ⟨(List.append_nil _).symm, same⟩
  · cases stop word' alike.symm same
    exact ⟨List.append_nil _, same.symm⟩

theorem eq_of_closed {ts ts' us us' : List Token} {t t' : Token}
    (whole : ts ++ .fixed .rparen :: t :: us = ts' ++ .fixed .rparen :: t' :: us')
    (alike : words ts = words ts') (word : t.isParen = false) (word' : t'.isParen = false) :
    ts = ts' ∧ t :: us = t' :: us' := by
  rw [List.append_cons ts, List.append_cons ts'] at whole
  have alike : words (ts ++ [.fixed .rparen]) = words (ts' ++ [.fixed .rparen]) := by
    rw [words_append, words_append, alike]
  obtain ⟨before, after⟩ := eq_of_words whole alike word word'
  exact ⟨List.append_cancel_right before, after⟩

namespace Phrase

theorem words_trailing (gs : List Phrase) : words (trailing gs) = trailing gs := by
  unfold trailing
  split <;> rfl

theorem words_groupIf (g : Phrase) (weak : Bool) :
    words (g.groupIf weak).tokens = words g.tokens := by
  cases weak with
  | true => exact words_group _
  | false => rfl

theorem words_tokens (g : Phrase) : words g.tokens = words g.tree.phrase.tokens := by
  induction g using parts_induction with
  | step g ih =>
    have each (gs : List Phrase) (among : ∀ p ∈ gs, p ∈ g.parts) :
        (gs.map tokens).map words = (((gs.map tree).map Expr.phrase).map tokens).map words := by
      simp only [List.map_map]
      exact List.map_congr_left fun p listed => ih p (among p listed)
    cases g with
    | literal l => rfl
    | name x => rfl
    | call f args =>
      simp only [tree, Expr.phrase, tokens, tokensOf_eq, treesOf_eq, Expr.phrases_eq, words_append,
        words_separated, each args fun _ => id]
    | list items =>
      simp only [tree, Expr.phrase, tokens, tokensOf_eq, treesOf_eq, Expr.phrases_eq, words_append,
        words_separated, each items fun _ => id]
    | tuple items =>
      have same : trailing ((items.map tree).map Expr.phrase) = trailing items := by simp [trailing]
      simp only [tree, Expr.phrase, tokens_tuple, treesOf_eq, Expr.phrases_eq, words_group]
      simp only [words_append, words_separated, words_trailing, same, each items fun _ => id]
    | group g => exact (words_group _).trans (ih g List.mem_cons_self)
    | field n g =>
      simp only [tree, Expr.phrase, tokens, words_append, words_groupIf, ih g List.mem_cons_self]
    | index target indices =>
      simp only [tree, Expr.phrase, tokens, tokensOf_eq, treesOf_eq, Expr.phrases_eq, words_append,
        words_brackets, words_groupIf, ih target List.mem_cons_self,
        each indices fun _ => List.mem_cons_of_mem _]
    | unary op g =>
      simp only [tree, Expr.phrase, tokens, words_cons op.isParen_token, words_groupIf,
        ih g List.mem_cons_self]
    | binary op l r =>
      simp only [tree, Expr.phrase, tokens, words_append, words_cons op.isParen_token,
        words_groupIf, ih l List.mem_cons_self, ih r (List.mem_cons_of_mem _ List.mem_cons_self)]

variable {g g' : Phrase} {gs gs' : List Phrase}

theorem words_eq (tree : g.tree = g'.tree) : words g.tokens = words g'.tokens := by
  rw [g.words_tokens, tree, ← g'.words_tokens]

theorem words_map_eq (trees : gs.map tree = gs'.map tree) :
    (gs.map tokens).map words = (gs'.map tokens).map words := by
  have each (gs : List Phrase) : (gs.map tokens).map words =
      ((gs.map tree).map fun e => words e.phrase.tokens) := by
    simp only [List.map_map]
    exact List.map_congr_left fun g _ => g.words_tokens
  rw [each, each, trees]

end Phrase

end Scriptlet
