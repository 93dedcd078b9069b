import Mathlib
import Scriptlet.Token.Lexer

open scoped Computability

namespace Scriptlet.Lexeme

def oneOf (p : Char → Bool) : Language Char := {w | ∃ c, p c ∧ w = [c]}

def exactly (c : Char) : Language Char := {[c]}

def optionally (l : Language Char) : Language Char := 1 + l

def digits : Language Char := (oneOf Char.isDigit)∗

def someDigits : Language Char := oneOf Char.isDigit * digits

def quotedBy (q : Char) : Language Char := exactly q * (oneOf (· ≠ q))∗ * exactly q

/-- The rules: the fixed spellings, three patterns for reals, integers, strings and names. -/
def Class.language : Class → Language Char
  | fixed f => {f.spelling.toList}
  | real =>
    exactly '.' * someDigits +
    exactly '.' * digits * exactly 'e' * optionally (exactly '-') * someDigits +
    someDigits * exactly '.' * digits * optionally (exactly 'e' * optionally (exactly '-')) * digits
  | int => someDigits
  | str => quotedBy '"' + quotedBy '\''
  | word => oneOf Char.isAlpha * (oneOf isWordChar)∗

theorem mem_star_oneOf {p : Char → Bool} {w : List Char} : w ∈ (oneOf p)∗ ↔ ∀ c ∈ w, p c := by
  rw [Language.mem_kstar]
  constructor
  · rintro ⟨parts, rfl, h⟩ c member
    obtain ⟨part, listed, member⟩ := List.mem_flatten.mp member
    obtain ⟨d, hd, rfl⟩ := h part listed
    rwa [List.mem_singleton.mp member]
  · intro h
    refine ⟨w.map ([·]), ?_, ?_⟩
    · induction w with
      | nil => rfl
      | cons c w ih =>
        rw [List.map_cons, List.flatten_cons,
          ← ih fun d member => h d (List.mem_cons_of_mem _ member)]
        rfl
    · intro part listed
      obtain ⟨c, member, rfl⟩ := List.mem_map.mp listed
      exact ⟨c, h c member, rfl⟩

theorem mem_digits {w : List Char} : w ∈ digits ↔ ∀ c ∈ w, c.isDigit := mem_star_oneOf

theorem mem_oneOf_mul {p : Char → Bool} {l : Language Char} {w : List Char} :
    w ∈ oneOf p * l ↔ ∃ c v, p c ∧ v ∈ l ∧ w = c :: v := by
  rw [Language.mem_mul]
  constructor
  · rintro ⟨_, ⟨c, hc, rfl⟩, v, hv, rfl⟩
    exact ⟨c, v, hc, hv, rfl⟩
  · rintro ⟨c, v, hc, hv, rfl⟩
    exact ⟨[c], ⟨c, hc, rfl⟩, v, hv, rfl⟩

theorem mem_someDigits {w : List Char} : w ∈ someDigits ↔ w ≠ [] ∧ ∀ c ∈ w, c.isDigit := by
  rw [someDigits, mem_oneOf_mul]
  constructor
  · rintro ⟨c, v, hc, hv, rfl⟩
    refine ⟨List.cons_ne_nil c v, fun d member => ?_⟩
    rcases List.mem_cons.mp member with rfl | member
    · exact hc
    · exact mem_digits.mp hv d member
  · rintro ⟨ne, h⟩
    cases w with
    | nil => exact absurd rfl ne
    | cons c v =>
      exact ⟨c, v, h c List.mem_cons_self,
        mem_digits.mpr fun d member => h d (List.mem_cons_of_mem _ member), rfl⟩

theorem mem_optionally {l : Language Char} {w : List Char} : w ∈ optionally l ↔ w = [] ∨ w ∈ l := by
  rw [optionally, Language.mem_add, Language.mem_one]

theorem mem_exactly {c : Char} {w : List Char} : w ∈ exactly c ↔ w = [c] := Iff.rfl

def Pointed (w : List Char) : Prop := ∃ ds, ds ≠ [] ∧ (∀ d ∈ ds, d.isDigit) ∧ w = '.' :: ds

def PointedExponent (w : List Char) : Prop :=
  ∃ ds sign es, (∀ d ∈ ds, d.isDigit) ∧ (sign = [] ∨ sign = ['-']) ∧ es ≠ [] ∧
    (∀ d ∈ es, d.isDigit) ∧ w = '.' :: (ds ++ 'e' :: (sign ++ es))

def Leading (w : List Char) : Prop :=
  ∃ ds fs mark es, ds ≠ [] ∧ (∀ d ∈ ds, d.isDigit) ∧ (∀ d ∈ fs, d.isDigit) ∧
    (mark = [] ∨ mark = ['e'] ∨ mark = ['e', '-']) ∧ (∀ d ∈ es, d.isDigit) ∧
    w = ds ++ '.' :: (fs ++ mark ++ es)

theorem mem_pointed {w : List Char} : w ∈ exactly '.' * someDigits ↔ Pointed w := by
  simp only [Language.mem_mul, mem_exactly, mem_someDigits, Pointed]
  constructor
  · rintro ⟨_, rfl, ds, ⟨ne, h⟩, rfl⟩
    exact ⟨ds, ne, h, rfl⟩
  · rintro ⟨ds, ne, h, rfl⟩
    exact ⟨_, rfl, ds, ⟨ne, h⟩, rfl⟩

theorem mem_pointedExponent {w : List Char} :
    w ∈ exactly '.' * digits * exactly 'e' * optionally (exactly '-') * someDigits ↔
      PointedExponent w := by
  simp only [Language.mem_mul, mem_exactly, mem_digits, mem_someDigits, mem_optionally,
    PointedExponent]
  constructor
  · rintro ⟨_, ⟨_, ⟨_, ⟨_, rfl, ds, hds, rfl⟩, _, rfl, rfl⟩, sign, hsign, rfl⟩, es, ⟨ne, hes⟩, rfl⟩
    exact ⟨ds, sign, es, hds, hsign, ne, hes, by simp⟩
  · rintro ⟨ds, sign, es, hds, hsign, ne, hes, rfl⟩
    exact ⟨_, ⟨_, ⟨_, ⟨_, rfl, ds, hds, rfl⟩, _, rfl, rfl⟩, sign, hsign, rfl⟩, es, ⟨ne, hes⟩, by simp⟩

theorem mem_leading {w : List Char} :
    w ∈ someDigits * exactly '.' * digits * optionally (exactly 'e' * optionally (exactly '-')) *
      digits ↔ Leading w := by
  simp only [Language.mem_mul, mem_exactly, mem_digits, mem_someDigits, mem_optionally, Leading]
  constructor
  · rintro ⟨_, ⟨_, ⟨_, ⟨ds, ⟨ne, hds⟩, _, rfl, rfl⟩, fs, hfs, rfl⟩, mark, hmark, rfl⟩, es, hes, rfl⟩
    refine ⟨ds, fs, mark, es, ne, hds, hfs, ?_, hes, by simp⟩
    rcases hmark with rfl | ⟨_, rfl, _, rfl | rfl, rfl⟩
    · exact .inl rfl
    · exact .inr (.inl rfl)
    · exact .inr (.inr rfl)
  · rintro ⟨ds, fs, mark, es, ne, hds, hfs, hmark, hes, rfl⟩
    refine ⟨_, ⟨_, ⟨_, ⟨ds, ⟨ne, hds⟩, _, rfl, rfl⟩, fs, hfs, rfl⟩, mark, ?_, rfl⟩, es, hes, by simp⟩
    rcases hmark with rfl | rfl | rfl
    · exact .inl rfl
    · exact .inr ⟨_, rfl, [], .inl rfl, rfl⟩
    · exact .inr ⟨_, rfl, _, .inr rfl, rfl⟩

theorem mem_real {w : List Char} :
    w ∈ Class.real.language ↔ Pointed w ∨ PointedExponent w ∨ Leading w := by
  rw [Class.language, Language.mem_add, Language.mem_add, mem_pointed, mem_pointedExponent,
    mem_leading, or_assoc]

theorem mem_quotedBy {q : Char} {w : List Char} :
    w ∈ quotedBy q ↔ ∃ cs, q ∉ cs ∧ w = q :: (cs ++ [q]) := by
  simp only [quotedBy, Language.mem_mul, mem_exactly, mem_star_oneOf]
  constructor
  · rintro ⟨_, ⟨_, rfl, cs, h, rfl⟩, _, rfl, rfl⟩
    exact ⟨cs, fun member => by simpa using h q member, rfl⟩
  · rintro ⟨cs, h, rfl⟩
    have other : ∀ c ∈ cs, decide (c ≠ q) := by
      intro c member
      exact decide_eq_true (ne_of_mem_of_not_mem member h)
    exact ⟨_, ⟨_, rfl, cs, other, rfl⟩, _, rfl, rfl⟩

theorem mem_str {w : List Char} : w ∈ Class.str.language ↔
    ∃ q cs, (q = '"' ∨ q = '\'') ∧ q ∉ cs ∧ w = q :: (cs ++ [q]) := by
  rw [Class.language, Language.mem_add, mem_quotedBy, mem_quotedBy]
  constructor
  · rintro (⟨cs, h, rfl⟩ | ⟨cs, h, rfl⟩)
    · exact ⟨_, cs, .inl rfl, h, rfl⟩
    · exact ⟨_, cs, .inr rfl, h, rfl⟩
  · rintro ⟨q, cs, rfl | rfl, h, rfl⟩
    · exact .inl ⟨cs, h, rfl⟩
    · exact .inr ⟨cs, h, rfl⟩

theorem mem_word {w : List Char} : w ∈ Class.word.language ↔
    ∃ c cs, c.isAlpha ∧ (∀ d ∈ cs, isWordChar d) ∧ w = c :: cs := by
  simp only [Class.language, mem_oneOf_mul, mem_star_oneOf]

theorem mem_int {w : List Char} :
    w ∈ Class.int.language ↔ w ≠ [] ∧ ∀ c ∈ w, c.isDigit := mem_someDigits

theorem mem_fixed {f : Fixed} {w : List Char} :
    w ∈ (Class.fixed f).language ↔ w = f.spelling.toList := Iff.rfl

end Scriptlet.Lexeme
