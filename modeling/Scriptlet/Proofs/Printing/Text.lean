import Scriptlet.Proofs.Lexing.Layout
import Scriptlet.Proofs.Printing.WellFormed

namespace Scriptlet

namespace Lexeme

def SpellsReals (spell : Float → List Char) : Prop :=
  ∀ x, Unsigned x → spell x ∈ Class.real.language ∧ realValue (spell x) = some x

end Lexeme

namespace Token

def lexemeClass : Token → Lexeme.Class
  | fixed f => .fixed f
  | int _ => .int
  | real _ => .real
  | str _ => .str
  | name _ => .word

/-- A string stands between `"`, and between `'` if it contains `"`. -/
def spelling (spell : Float → List Char) : Token → List Char
  | fixed f => f.spelling.toList
  | int n => Nat.toDigits 10 n.toInt.toNat
  | real x => spell x
  | str s =>
    let q := if '"' ∈ s.toList then '\'' else '"'
    q :: (s.toList ++ [q])
  | name x => x.toList

def text (spell : Float → List Char) (ts : List Token) : String :=
  String.ofList (List.intercalate [' '] (ts.map (spelling spell)))

variable {spell : Float → List Char}

open Lexeme

theorem WellFormed.spelling_mem (spells : SpellsReals spell) {t : Token} (wf : t.WellFormed) :
    t.spelling spell ∈ t.lexemeClass.language := by
  cases t with
  | fixed f => exact mem_fixed.mpr rfl
  | int n =>
    exact mem_int.mpr ⟨Nat.toDigits_ne_nil, fun c =>
      Nat.isDigit_of_mem_toDigits (by decide) (by decide)⟩
  | real x => exact (spells x wf).1
  | str s =>
    refine mem_str.mpr ⟨_, _, ?_, ?_, rfl⟩
    · split
      · exact .inr rfl
      · exact .inl rfl
    · split
      · rename_i double
        exact wf.resolve_left (not_not_intro double)
      · assumption
  | name x => exact wf.1

theorem WellFormed.unreserved {t : Token} (wf : t.WellFormed) (word : t.lexemeClass = .word)
    (f : Fixed) : t.spelling spell ∉ (Class.fixed f).language := by
  cases t with
  | name x =>
    intro same
    have eq : x.toList = f.spelling.toList := mem_fixed.mp same
    obtain ⟨name, other⟩ := wf
    rcases fixed_cases f with ⟨reserved, _⟩ | ⟨_, start⟩
    · exact other f reserved (String.toList_injective eq.symm)
    · obtain ⟨c, cs, alpha, _, letters⟩ := mem_word.mp name
      have noAlpha := (start c (by rw [← eq, letters, List.head?_cons])).1
      rw [alpha] at noAlpha
      cases noAlpha
  | _ => cases word

theorem WellFormed.token? (spells : SpellsReals spell) {t : Token} (wf : t.WellFormed) :
    t.lexemeClass.token? (t.spelling spell) = some t := by
  cases t with
  | fixed f => rfl
  | int n =>
    have digits : Nat.ofDigitChars 10 (Nat.toDigits 10 n.toInt.toNat) 0 = n.toInt.toNat :=
      Nat.ofDigitChars_ten_toDigits
    have nonneg : 0 ≤ n.toInt := Int64.le_iff_toInt_le.mp wf
    have small : n.toInt.toNat < 2 ^ 63 := by
      have bound := n.toInt_lt
      omega
    rw [lexemeClass, spelling, Class.token?, intValue_eq, digits, if_pos small, Option.map_some,
      ← Int64.ofInt_eq_ofNat, Int.toNat_of_nonneg nonneg, Int64.ofInt_toInt]
  | real x => exact Option.map_eq_some_iff.mpr ⟨x, (spells x wf).2, rfl⟩
  | str s =>
    rw [lexemeClass, spelling, Class.token?, List.drop_one, List.tail_cons, List.dropLast_concat,
      String.ofList_toList]
  | name x => rw [lexemeClass, spelling, Class.token?, String.ofList_toList]

theorem reading_text (spells : SpellsReals spell) {ts : List Token} (wf : Written ts)
    (before : List Char) : ∃ ps, Reading (List.intercalate [' '] (ts.map (spelling spell))) ps [] ∧
      (located before ps).map Located.token = ts := by
  induction ts generalizing before with
  | nil => exact ⟨[], .done _, rfl⟩
  | cons t ts ih =>
    obtain ⟨first, rest⟩ := written_cons.mp wf
    have longest {text : List Char} (stop : ∀ c, text.head? = some c → isBlank c) :
        Longest t.lexemeClass (t.spelling spell) (t.spelling spell ++ text) :=
      longest_of_blank (first.spelling_mem spells) first.unreserved stop
    have value := first.token? spells
    cases ts with
    | nil =>
      have ends : Longest t.lexemeClass (t.spelling spell) (t.spelling spell ++ []) :=
        longest (by simp)
      have last := Reading.lexeme ends value (.done [])
      rw [List.append_nil] at last
      refine ⟨[.lexeme (t.spelling spell) t], ?_, rfl⟩
      rwa [List.map_cons, List.map_nil, List.intercalate_singleton]
    | cons u us =>
      obtain ⟨ps, reading, tokens⟩ := ih rest (before ++ t.spelling spell ++ [' '])
      refine ⟨.lexeme (t.spelling spell) t :: .blank ' ' :: ps, ?_, congrArg (t :: ·) tokens⟩
      rw [List.map_cons, List.map_cons, List.intercalate_cons_cons, List.append_assoc]
      exact .lexeme (longest (by simp [isBlank])) value (.blank rfl reading)

theorem readAll_text (spells : SpellsReals spell) {ts : List Token} (wf : Written ts) :
    ∃ ls, readAll (text spell ts) = .ok ls ∧ ls.map Located.token = ts := by
  obtain ⟨ps, reading, tokens⟩ := reading_text spells wf []
  refine ⟨_, readAll_eq_ok_iff.mpr ⟨ps, ?_, rfl⟩, tokens⟩
  rwa [text, String.toList_ofList]

end Token

end Scriptlet
