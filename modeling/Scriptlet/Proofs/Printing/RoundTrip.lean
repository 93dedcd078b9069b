import Scriptlet.Proofs.Grammar.Exact
import Scriptlet.Proofs.Printing.Parsed
import Scriptlet.Proofs.Printing.Printer
import Scriptlet.Proofs.Printing.Reals

namespace Scriptlet

variable {spell : Float → List Char}

theorem Script.Proper.parse_text {g : Script} (proper : g.Proper) (wf : g.tree.WellFormed)
    (spells : Lexeme.SpellsReals spell) :
    Program.parse (Token.text spell g.tokens) = .ok g.tree := by
  obtain ⟨ts, lexed, tokens⟩ := Token.readAll_text spells (proper.written_iff.mpr wf)
  rw [Program.parse, lexed]
  exact proper.read tokens

def Program.text (spell : Float → List Char) (p : Program) : String :=
  Token.text spell p.script.tokens

theorem Program.parse_text {p : Program} (wf : p.WellFormed) (spells : Lexeme.SpellsReals spell) :
    parse (p.text spell) = .ok p := by
  have tree := p.tree_script
  have read := (proper_script wf).parse_text (tree.symm ▸ wf) spells
  rwa [tree] at read

example : Program.text Lexeme.realText ⟨[], [.print (.binary (.arith .sub) (.var "a")
    (.binary (.arith .sub) (.var "b") (.unary .neg (.var "c"))))]⟩ =
      "\x7b print ( a - ( b - - c ) ) ; \x7d" := rfl

/--
The programs that texts spell are the well-formed ones: what is read is well formed, and each
well-formed program is read from its text.
-/
theorem source_round_trip (spells : Lexeme.SpellsReals spell) :
    (∀ source p, Program.parse source = .ok p → p.WellFormed) ∧
      ∀ p, Program.WellFormed p → Program.parse (p.text spell) = .ok p :=
  ⟨fun _ _ => Program.parse_wellFormed, fun _ wf => Program.parse_text wf spells⟩

namespace Program

/-- The program `{ x = (1 - (2 - 3)) ** (-4); print(#1 (x, 0.5)); }`. -/
def powerOfDifference : Program :=
  let int (n : Int64) : Expr := .literal (.int n)
  let difference := .binary (.arith .sub) (int 1) (.binary (.arith .sub) (int 2) (int 3))
  ⟨[], [.assign "x" (.binary (.arith .pow) difference (.unary .neg (int 4))),
    .print (.field 1 (.tuple [.var "x", .literal (.real (Float.ofBits 0x3FE0000000000000))]))]⟩

theorem wellFormed_powerOfDifference : powerOfDifference.WellFormed := by
  have name : IsName "x" := ⟨Lexeme.mem_word.mpr ⟨'x', [], rfl, by simp, rfl⟩, by decide⟩
  have half : Unsigned (Float.ofBits 0x3FE0000000000000) :=
    Decimal.unsigned_ofBits (n := 0x3FE0000000000000) (by decide)
  constructor
  · simp [powerOfDifference]
  · simp [powerOfDifference, Stmt.WellFormed, Expr.WellFormed, Literal.token, Token.WellFormed, name,
      half]

theorem source_round_trip_powerOfDifference :
    Lexeme.SpellsReals Lexeme.realText ∧ powerOfDifference.WellFormed ∧
      parse (powerOfDifference.text Lexeme.realText) = .ok powerOfDifference := by
  obtain ⟨image, read⟩ := source_round_trip Lexeme.spellsReals_realText
  have same := read powerOfDifference wellFormed_powerOfDifference
  exact ⟨Lexeme.spellsReals_realText, image _ _ same, same⟩

end Program

end Scriptlet
