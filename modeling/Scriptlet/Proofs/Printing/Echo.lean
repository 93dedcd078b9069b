import Scriptlet.Proofs.Grammar.Exact
import Scriptlet.Proofs.Values.Evaluation
import Scriptlet.Run.Session

namespace Scriptlet

open Lexeme

/-- The text of `x = …; print(x);` as a program, with an expression in it. -/
def echo (e : String) : String := "\x7b x = " ++ e ++ "; print(x); \x7d"

namespace Echo

def script (g : Phrase) : Script := ⟨[], [.assign "x" g, .print (.name "x")]⟩

def program (e : Expr) : Program := ⟨[], [.assign "x" e, .print (.var "x")]⟩

def opening : List Token := [.fixed .lbrace, .name "x", .fixed .assign]

def closing : List Token :=
  [.fixed .semicolon, .fixed .print, .fixed .lparen, .name "x", .fixed .rparen, .fixed .semicolon,
    .fixed .rbrace]

theorem tokens_script (g : Phrase) : (script g).tokens = opening ++ g.tokens ++ closing := by
  simp [script, Script.tokens, Clause.braced, Clause.tokens, Phrase.tokens, opening, closing]

theorem proper_script {g : Phrase} (proper : g.Proper) : (script g).Proper := by
  refine ⟨by simp [script], fun c member => ?_⟩
  rcases List.mem_pair.mp member with rfl | rfl
  · exact .assign "x" proper
  · exact .print (.name "x")

theorem toList_echo (e : String) : (echo e).toList =
    "\x7b x = ".toList ++ (e.toList ++ "; print(x); \x7d".toList) := by
  rw [echo, String.toList_append, String.toList_append, List.append_assoc]

theorem readsAs_opening {text rest : List Char} {ts : List Token} (reads : ReadsAs text ts rest) :
    ReadsAs ("\x7b x = ".toList ++ text) (opening ++ ts) rest :=
  .scan rfl rfl (.blank rfl (.scan rfl rfl (.blank rfl (.scan rfl rfl (.blank rfl reads)))))

theorem readsAs_closing : ReadsAs "; print(x); \x7d".toList closing [] :=
  .scan rfl rfl (.blank rfl (.scan rfl rfl (.scan rfl rfl (.scan rfl rfl (.scan rfl rfl
    (.scan rfl rfl (.blank rfl (.scan rfl rfl (.nil [])))))))))

theorem parse_echo {g : Phrase} (proper : g.Proper) {e : String}
    (spelt : SpeltAs e.toList g.tokens) : Program.parse (echo e) = .ok (program g.tree) := by
  have stop : Stops "; print(x); \x7d".toList := by
    rintro d ⟨⟩
    decide
  have reads := readsAs_opening (spelt _ _ _ stop readsAs_closing)
  rw [← toList_echo, ← List.append_assoc, ← tokens_script] at reads
  obtain ⟨ts, read, tokens⟩ := reads.readAll
  rw [Program.parse, read]
  exact (proper_script proper).read tokens

end Echo

def State.among (heap : Lists) : State := { State.fresh .unlimited with lists := heap }

namespace Echo

/-- Run among these lists, the program of the text comes to the given end. -/
def Ends (limit : Nat) (heap : Lists) (source : String) (m : Machine) : Prop :=
  ∃ start, (State.among heap).load source = .ok start ∧ start.Reaches limit m

/-- The text is no program, or the program fails. -/
def Fails (limit : Nat) (heap : Lists) (source : String) : Prop :=
  (∃ e, (State.among heap).load source = .error e) ∨ ∃ f s, Ends limit heap source (.failed f s)

variable {limit : Nat} {heap : Lists} {source : String}

theorem Ends.of_parse {p : Program} (read : Program.parse source = .ok p) {m : Machine}
    (run : ((State.among heap).start p).Reaches limit m) : Ends limit heap source m :=
  ⟨_, by rw [State.load, read], run⟩

theorem Fails.of_parse (read : ∃ e, Program.parse source = .error e) : Fails limit heap source := by
  obtain ⟨e, read⟩ := read
  exact .inl ⟨e, by rw [State.load, read]⟩

end Echo

theorem Expr.Yields.echo {limit : Nat} {e : Expr} {t : Tree} (yields : e.Yields limit t)
    (heap : Lists) : ∃ w s,
      ((State.among heap).start (Echo.program e)).Reaches limit (.finished s) ∧
      s.lookup? "x" = some w ∧ w.Unfolds s.lists t ∧ heap.GrowTo s.lists ∧
      s.output.bytes = (w.display s.lists ++ "\n").toUTF8 := by
  obtain ⟨w, ls, returns, grow, unfolds⟩ := yields (State.among heap)
  have run := returns.reaches (.assign "x" (.rest [.print (.var "x")] .halt))
  let bound : State := (State.among ls).assign "x" w
  let printed : State := (bound.print (w.display ls)).1
  have visible : bound.lookup? "x" = some w := by
    simp [bound, State.among, State.fresh, State.assign, State.lookup?, Calls.empty,
      Bindings.get?_put]
  have read : Machine.pass (bound.lookup "x") (.print (.rest [] .halt)) bound =
      .value w (.print (.rest [] .halt)) bound := by
    rw [State.lookup, visible]
    rfl
  have shown :
      (Machine.value w (.print (.rest [] .halt)) bound).Reaches limit (.finished printed) :=
    .step (.step (.step (.refl _)))
  have assigned : (Machine.value w (.assign "x" (.rest [.print (.var "x")] .halt))
      (State.among ls)).Reaches limit (.finished printed) := by
    refine .step (.step (.step (.step ?_)))
    show (Machine.pass (bound.lookup "x") _ bound).Reaches limit _
    rw [read]
    exact shown
  exact ⟨w, printed, .step (run.trans assigned), visible, unfolds, grow, ByteArray.empty_append⟩

end Scriptlet
