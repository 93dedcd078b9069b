import Scriptlet.Proofs.Decimal.Nearest
import Scriptlet.Proofs.Grammar.Faithful
import Scriptlet.Proofs.Lexing.Reading
import Scriptlet.Proofs.Printing.WellFormed

namespace Scriptlet

namespace Lexeme

theorem intValue_nonneg {w : List Char} {n : Int64} (value : intValue w = some n) : 0 ≤ n := by
  rw [intValue_eq] at value
  split at value
  · rename_i small
    cases value
    rw [Int64.le_iff_toInt_le, Int64.toInt_ofNat_of_lt small]
    exact Int.natCast_nonneg _
  · cases value

theorem realValue_unsigned {w : List Char} {x : Float} (value : realValue w = some x) :
    Unsigned x := by
  simp only [realValue] at value
  split at value
  · cases value
  · split at value
    · cases value
      exact Decimal.unsigned_ofScientific _ _
    · split at value
      · cases value
      · cases value
        exact Decimal.unsigned_ofScientific _ _
    · split at value
      · cases value
      · cases value
        exact Decimal.unsigned_ofScientific _ _

theorem Longest.wellFormed {cls : Class} {w text : List Char} (longest : Longest cls w text)
    {t : Token} (value : cls.token? w = some t) : t.WellFormed := by
  cases cls with
  | fixed f =>
    cases value
    exact True.intro
  | int =>
    obtain ⟨n, found, rfl⟩ := Option.map_eq_some_iff.mp value
    exact intValue_nonneg found
  | real =>
    obtain ⟨x, found, rfl⟩ := Option.map_eq_some_iff.mp value
    exact realValue_unsigned found
  | str =>
    obtain ⟨q, cs, quote, closed, rfl⟩ := mem_str.mp longest.lexeme
    cases value
    rw [Token.WellFormed, List.drop_one, List.tail_cons, List.dropLast_concat, String.toList_ofList]
    rcases quote with rfl | rfl
    · exact .inl closed
    · exact .inr closed
  | word =>
    cases value
    refine ⟨?_, fun f _ same => ?_⟩
    · rw [String.toList_ofList]
      exact longest.lexeme
    · apply longest.reserved rfl f
      rw [mem_fixed, same, String.toList_ofList]

theorem Reading.wellFormed {text rest : List Char} {ps : List Piece} (reading : Reading text ps rest)
    (before : List Char) : ∀ t ∈ located before ps, t.token.WellFormed := by
  induction reading generalizing before with
  | done text => exact fun t member => absurd member List.not_mem_nil
  | blank _ _ ih => exact ih _
  | lexeme longest value _ ih =>
    intro t member
    rcases List.mem_cons.mp member with rfl | member
    · exact longest.wellFormed value
    · exact ih _ t member

end Lexeme

theorem Program.parse_wellFormed {source : String} {p : Program} (read : parse source = .ok p) :
    p.WellFormed := by
  rw [parse] at read
  split at read
  · rename_i ts lexed
    obtain ⟨ps, reading, rfl⟩ := Lexeme.readAll_eq_ok_iff.mp lexed
    obtain ⟨g, proper, rfl, tokens⟩ := Program.written_of_ofTokens read
    refine proper.written_iff.mp ?_
    rw [tokens, Written, List.forall_mem_map]
    exact reading.wellFormed []
  · cases read

end Scriptlet
