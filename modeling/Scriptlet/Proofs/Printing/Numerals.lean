import Scriptlet.Proofs.Printing.ValuePhrase

namespace Scriptlet

theorem eq_of_runs {p : Char → Bool} {w w' rest rest' : List Char} (all : ∀ c ∈ w, p c)
    (all' : ∀ c ∈ w', p c) (stop : ∀ c, rest.head? = some c → p c = false)
    (stop' : ∀ c, rest'.head? = some c → p c = false) (same : w ++ rest = w' ++ rest') :
    w = w' ∧ rest = rest' := by
  have run {w rest : List Char} (all : ∀ c ∈ w, p c)
      (stop : ∀ c, rest.head? = some c → p c = false) : (w ++ rest).takeWhile p = w := by
    rw [List.takeWhile_append_of_pos all]
    cases rest with
    | nil => rw [List.takeWhile_nil, List.append_nil]
    | cons c rest => rw [List.takeWhile_cons_of_neg (by simp [stop c rfl]), List.append_nil]
  have runs := congrArg (List.takeWhile p) same
  rw [run all stop, run all' stop'] at runs
  subst runs
  exact ⟨rfl, List.append_cancel_left same⟩

namespace Decimal

open Lexeme

/-- Digits with a point among them, or an exponent after them, or both. -/
structure Numeral where
  whole : List Char
  fraction? : Option (List Char)
  exponent? : Option Int
  ne_nil : whole ≠ []
  isDigit_whole : ∀ c ∈ whole, c.isDigit
  isDigit_fraction : ∀ ds ∈ fraction?, ∀ c ∈ ds, c.isDigit
  marked : fraction?.isSome ∨ exponent?.isSome

namespace Numeral

def pointed : Option (List Char) → List Char
  | none => []
  | some ds => '.' :: ds

def powered : Option Int → List Char
  | none => []
  | some k => 'e' :: (if k < 0 then '-' else '+') :: padded k

def text (n : Numeral) : List Char := n.whole ++ (pointed n.fraction? ++ powered n.exponent?)

def value (n : Numeral) : ℚ :=
  let fraction := n.fraction?.getD []
  Nat.ofDigitChars 10 (n.whole ++ fraction) 0 * 10 ^ (n.exponent?.getD 0 - fraction.length)

theorem ofDigitChars_padded (k : Int) : Nat.ofDigitChars 10 (padded k) 0 = k.natAbs := by
  rw [padded, ofDigitChars_zeros_append, Nat.ofDigitChars_ten_toDigits]

theorem powered_injective {e e' : Option Int} (same : powered e = powered e') : e = e' := by
  cases e with
  | none =>
    cases e' with
    | none => rfl
    | some k => cases same
  | some k =>
    cases e' with
    | none => cases same
    | some k' =>
      rw [powered, powered, List.cons.injEq, List.cons.injEq] at same
      obtain ⟨-, sign, digits⟩ := same
      have size := congrArg (Nat.ofDigitChars 10 · 0) digits
      simp only [ofDigitChars_padded] at size
      have negative : k < 0 ↔ k' < 0 := by
        by_cases below : k < 0
        · by_cases below' : k' < 0
          · exact iff_of_true below below'
          · rw [if_pos below, if_neg below'] at sign
            cases sign
        · by_cases below' : k' < 0
          · rw [if_neg below, if_pos below'] at sign
            cases sign
          · exact iff_of_false below below'
      congr 1
      omega

theorem stop_powered (e : Option Int) : ∀ c, (powered e).head? = some c → c.isDigit = false := by
  cases e with
  | none => exact nofun
  | some k =>
    rintro c ⟨⟩
    rfl

theorem stop_pointed (f : Option (List Char)) (e : Option Int) :
    ∀ c, (pointed f ++ powered e).head? = some c → c.isDigit = false := by
  cases f with
  | none => exact stop_powered e
  | some ds =>
    rintro c ⟨⟩
    rfl

theorem pointed_injective {f f' : Option (List Char)} {e e' : Option Int}
    (digits : ∀ ds ∈ f, ∀ c ∈ ds, c.isDigit) (digits' : ∀ ds ∈ f', ∀ c ∈ ds, c.isDigit)
    (same : pointed f ++ powered e = pointed f' ++ powered e') :
    f = f' ∧ powered e = powered e' := by
  have noPoint (e : Option Int) (ds : List Char) : powered e ≠ '.' :: ds := by
    cases e <;> exact nofun
  cases f with
  | none =>
    cases f' with
    | none => exact ⟨rfl, same⟩
    | some ds => exact absurd same (noPoint e _)
  | some ds =>
    cases f' with
    | none => exact absurd same.symm (noPoint e' _)
    | some ds' =>
      obtain ⟨rfl, power⟩ := eq_of_runs (digits ds rfl) (digits' ds' rfl) (stop_powered e)
        (stop_powered e') (List.cons.inj same).2
      exact ⟨rfl, power⟩

theorem text_injective {n n' : Numeral} (same : n.text = n'.text) : n = n' := by
  obtain ⟨whole, rest⟩ := eq_of_runs n.isDigit_whole n'.isDigit_whole
    (stop_pointed n.fraction? n.exponent?) (stop_pointed n'.fraction? n'.exponent?) same
  obtain ⟨fraction, power⟩ := pointed_injective n.isDigit_fraction n'.isDigit_fraction rest
  have exponent := powered_injective power
  cases n
  cases n'
  subst whole fraction exponent
  rfl

theorem mem_text {n : Numeral} {c : Char} (member : c ∈ n.text) :
    c.isDigit ∨ c ∈ ['.', 'e', '-', '+'] := by
  rcases List.mem_append.mp member with whole | rest
  · exact .inl (n.isDigit_whole c whole)
  rcases List.mem_append.mp rest with fraction | exponent
  · cases point : n.fraction? with
    | none =>
      rw [point] at fraction
      cases fraction
    | some ds =>
      rw [point] at fraction
      rcases List.mem_cons.mp fraction with rfl | fraction
      · exact .inr (by decide)
      · exact .inl (n.isDigit_fraction ds point c fraction)
  · cases power : n.exponent? with
    | none =>
      rw [power] at exponent
      cases exponent
    | some k =>
      rw [power] at exponent
      rcases List.mem_cons.mp exponent with rfl | exponent
      · exact .inr (by decide)
      rcases List.mem_cons.mp exponent with rfl | exponent
      · right
        split <;> decide
      · exact .inl (isDigit_padded k c exponent)

theorem exists_mark (n : Numeral) : '.' ∈ n.text ∨ 'e' ∈ n.text := by
  rcases n.marked with point | power
  · left
    obtain ⟨ds, eq⟩ := Option.isSome_iff_exists.mp point
    simp [text, pointed, eq]
  · right
    obtain ⟨k, eq⟩ := Option.isSome_iff_exists.mp power
    simp [text, powered, eq]

end Numeral

variable {ds : List Char} {x y : Float}

theorem exists_numeral_positional (digits : ∀ c ∈ ds, c.isDigit) (ne : ds ≠ []) (k : Int) :
    ∃ n : Numeral, positionalText ds k true = n.text ∧
      n.value = Nat.ofDigitChars 10 ds 0 * 10 ^ (k + 1 - ds.length) := by
  obtain ⟨whole, fraction, eq, places⟩ := positionalText_places digits ne k
  refine ⟨⟨whole, some fraction, none, places.ne_nil, places.before, ?_, .inl rfl⟩, ?_, ?_⟩
  · rintro _ ⟨⟩
    exact places.after
  · rw [eq, Numeral.text, Numeral.pointed, Numeral.powered, List.append_nil]
  · exact Eq.trans (by simp [Numeral.value]) places.value

theorem exists_numeral_exponent (digits : ∀ c ∈ ds, c.isDigit) (ne : ds ≠ []) (k : Int) :
    ∃ n : Numeral, exponentText ds k = n.text ∧
      n.value = Nat.ofDigitChars 10 ds 0 * 10 ^ (k + 1 - ds.length) := by
  match ds, ne with
  | [d], _ =>
    refine ⟨⟨[d], none, some k, by simp, digits, nofun, .inr rfl⟩, exponentText_single d k, ?_⟩
    simp [Numeral.value]
  | d :: d' :: ds, _ =>
    refine ⟨⟨[d], some (d' :: ds), some k, by simp, ?_, ?_, .inl rfl⟩,
      exponentText_several d d' ds k, ?_⟩
    · exact fun c member => digits c (List.mem_cons.mpr (.inl (List.mem_singleton.mp member)))
    · rintro _ ⟨⟩
      exact fun c member => digits c (List.mem_cons_of_mem _ member)
    · rw [Numeral.value]
      simp only [Option.getD_some, List.singleton_append, List.length_cons]
      congr 2
      omega

theorem exists_numeral (b : Binary) :
    ∃ n : Numeral, printed.magnitude b = n.text ∧ n.value = spelt b := by
  rw [Layout.magnitude, spelt]
  split
  · obtain ⟨n, text, value⟩ := @exists_numeral_positional ['0'] (by simp) (by simp) 0
    exact ⟨n, text, by simpa [Nat.ofDigitChars] using value⟩
  · have digits := toDigits_isDigit (shortest b).digits
    have ne : Nat.toDigits 10 (shortest b).digits ≠ [] := Nat.toDigits_ne_nil
    have value : (shortest b).value = Nat.ofDigitChars 10 (Nat.toDigits 10 (shortest b).digits) 0 *
        10 ^ ((shortest b).exponent + (Nat.toDigits 10 (shortest b).digits).length - 1 + 1 -
          (Nat.toDigits 10 (shortest b).digits).length) := by
      rw [Nat.ofDigitChars_ten_toDigits, Scientific.value]
      congr 2
      omega
    rw [value]
    simp only
    split
    · exact exists_numeral_positional digits ne _
    · exact exists_numeral_exponent digits ne _

theorem eq_of_magnitude (finite : Finite x) (finite' : Finite y)
    (same : printed.magnitude (Binary.ofFloat x) = printed.magnitude (Binary.ofFloat y)) :
    x = y := by
  obtain ⟨n, text, value⟩ := exists_numeral (Binary.ofFloat x)
  obtain ⟨n', text', value'⟩ := exists_numeral (Binary.ofFloat y)
  obtain rfl : n = n' := Numeral.text_injective (text.symm.trans (same.trans text'))
  exact (ofScientific_of_spelt finite value).symm.trans (ofScientific_of_spelt finite' value')

def unsignedText (x : Float) : List Char :=
  if x.isNaN then ['n', 'a', 'n']
  else if x.isInf then ['i', 'n', 'f']
  else printed.magnitude (Binary.ofFloat x)

def hasSign (x : Float) : Bool := !x.isNaN && isNegative x

theorem toList_text (x : Float) : (printed.text x).toList =
    if hasSign x then '-' :: unsignedText x else unsignedText x := by
  rw [Layout.text, hasSign, unsignedText]
  cases x.isNaN with
  | true => simp
  | false => simp

theorem unsignedText_eq_nan (nan : x.isNaN) : unsignedText x = ['n', 'a', 'n'] := if_pos nan

theorem unsignedText_eq_inf (number : x.isNaN = false) (infinite : x.isInf) :
    unsignedText x = ['i', 'n', 'f'] := by
  rw [unsignedText, number, if_neg Bool.false_ne_true, if_pos infinite]

theorem unsignedText_eq_magnitude (number : x.isNaN = false) (bounded : x.isInf = false) :
    unsignedText x = printed.magnitude (Binary.ofFloat x) := by
  rw [unsignedText, number, bounded, if_neg Bool.false_ne_true, if_neg Bool.false_ne_true]

theorem unsignedText_cases (x : Float) : unsignedText x = ['n', 'a', 'n'] ∧ x.isNaN ∨
    unsignedText x = ['i', 'n', 'f'] ∧ x.isNaN = false ∧ x.isInf ∨
    ∃ n : Numeral, unsignedText x = n.text ∧ x.isNaN = false ∧ x.isInf = false := by
  cases number : x.isNaN with
  | true => exact .inl ⟨unsignedText_eq_nan number, rfl⟩
  | false =>
    right
    cases bounded : x.isInf with
    | true => exact .inl ⟨unsignedText_eq_inf number bounded, rfl, rfl⟩
    | false =>
      right
      obtain ⟨n, text, -⟩ := exists_numeral (Binary.ofFloat x)
      exact ⟨n, (unsignedText_eq_magnitude number bounded).trans text, rfl, rfl⟩

theorem Numeral.exists_head (n : Numeral) : ∃ c, n.text.head? = some c ∧ c.isDigit := by
  obtain ⟨c, cs, eq⟩ := List.exists_cons_of_ne_nil n.ne_nil
  refine ⟨c, ?_, n.isDigit_whole c (eq ▸ List.mem_cons_self)⟩
  rw [text, eq, List.cons_append, List.head?_cons]

theorem Numeral.text_ne_cons (n : Numeral) {c : Char} (other : c.isDigit = false) (cs : List Char) :
    n.text ≠ c :: cs := by
  intro same
  obtain ⟨d, head, digit⟩ := n.exists_head
  rw [same] at head
  cases head
  rw [other] at digit
  cases digit

theorem isNaN_iff_unsignedText : x.isNaN ↔ unsignedText x = ['n', 'a', 'n'] := by
  rcases unsignedText_cases x with ⟨eq, nan⟩ | ⟨eq, number, -⟩ | ⟨n, eq, number, -⟩
  · exact iff_of_true nan eq
  · rw [eq, number]
    decide
  · rw [eq, number]
    exact iff_of_false Bool.false_ne_true (n.text_ne_cons rfl _)

theorem isInf_iff_unsignedText (number : x.isNaN = false) :
    x.isInf ↔ unsignedText x = ['i', 'n', 'f'] := by
  rcases unsignedText_cases x with ⟨-, nan⟩ | ⟨eq, -, infinite⟩ | ⟨n, eq, -, bounded⟩
  · rw [number] at nan
    cases nan
  · exact iff_of_true infinite eq
  · rw [eq, bounded]
    exact iff_of_false Bool.false_ne_true (n.text_ne_cons rfl _)

theorem head_unsignedText (x : Float) :
    ∃ c, (unsignedText x).head? = some c ∧ (c.isDigit ∨ c ∈ ['i', 'n']) := by
  rcases unsignedText_cases x with ⟨eq, -⟩ | ⟨eq, -⟩ | ⟨n, eq, -⟩
  · exact ⟨'n', by rw [eq, List.head?_cons], .inr (by decide)⟩
  · exact ⟨'i', by rw [eq, List.head?_cons], .inr (by decide)⟩
  · obtain ⟨c, head, digit⟩ := n.exists_head
    exact ⟨c, by rw [eq, head], .inl digit⟩

theorem head_text (x : Float) :
    ∃ c, (printed.text x).toList.head? = some c ∧ (c.isDigit ∨ c ∈ ['-', 'i', 'n']) := by
  rw [toList_text]
  split
  · exact ⟨'-', List.head?_cons, .inr (by decide)⟩
  · obtain ⟨c, head, start⟩ := head_unsignedText x
    exact ⟨c, head, start.imp_right (List.mem_cons_of_mem _)⟩

theorem head_eq_minus_iff (x : Float) : (printed.text x).toList.head? = some '-' ↔ hasSign x := by
  obtain ⟨c, head, start⟩ := head_unsignedText x
  rw [toList_text]
  by_cases sign : hasSign x
  · rw [if_pos sign, List.head?_cons]
    exact iff_of_true rfl sign
  · rw [if_neg sign, head]
    refine iff_of_false ?_ sign
    rintro ⟨⟩
    simp at start

theorem eq_of_absolute (number : x.isNaN = false) (number' : y.isNaN = false)
    (sign : isNegative x = isNegative y) (same : absolute x = absolute y) : x = y := by
  rw [absolute, absolute, ← sign] at same
  split at same
  · rw [← neg_neg number, same, neg_neg number']
  · exact same

theorem eq_of_isInf (infinite : x.isInf) (infinite' : y.isInf)
    (sign : isNegative x = isNegative y) : x = y := by
  have bits := (isInf_iff x).mp infinite
  have bits' := (isInf_iff y).mp infinite'
  have bound := x.toBits.toNat_lt
  have bound' := y.toBits.toNat_lt
  rw [Bool.eq_iff_iff, isNegative_iff, isNegative_iff] at sign
  apply eq_of_toBits
  apply UInt64.toNat_inj.mp
  omega

theorem eq_of_unsignedText (number : x.isNaN = false) (number' : y.isNaN = false)
    (sign : isNegative x = isNegative y) (same : unsignedText x = unsignedText y) : x = y := by
  have alike : x.isInf = y.isInf := by
    rw [Bool.eq_iff_iff, isInf_iff_unsignedText number, isInf_iff_unsignedText number', same]
  cases infinite : x.isInf with
  | true => exact eq_of_isInf infinite (alike ▸ infinite) sign
  | false =>
    have bounded : y.isInf = false := alike ▸ infinite
    rw [unsignedText_eq_magnitude number infinite,
      unsignedText_eq_magnitude number' bounded] at same
    apply eq_of_absolute number number' sign
    apply eq_of_magnitude (finite_absolute number infinite) (finite_absolute number' bounded)
    rwa [ofFloat_absolute number, ofFloat_absolute number']

/-- A real is known from its text, except for which NaN it is. -/
theorem eq_of_text (same : printed.text x = printed.text y) : x = y ∨ x.isNaN ∧ y.isNaN := by
  have sign : hasSign x = hasSign y := by
    rw [Bool.eq_iff_iff, ← head_eq_minus_iff, ← head_eq_minus_iff, same]
  have text : unsignedText x = unsignedText y := by
    have chars := congrArg String.toList same
    rw [toList_text, toList_text, ← sign] at chars
    split at chars
    · exact (List.cons.inj chars).2
    · exact chars
  have alike : x.isNaN = y.isNaN := by
    rw [Bool.eq_iff_iff, isNaN_iff_unsignedText, isNaN_iff_unsignedText, text]
  cases number : x.isNaN with
  | true => exact .inr ⟨rfl, alike ▸ number⟩
  | false =>
    have number' : y.isNaN = false := alike ▸ number
    rw [hasSign, hasSign, number, number'] at sign
    exact .inl (eq_of_unsignedText number number' sign text)

end Decimal

end Scriptlet
