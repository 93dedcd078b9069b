import Scriptlet.Proofs.Run.Frames
import Scriptlet.Proofs.Run.Refit

namespace Scriptlet

namespace Output

theorem extract_of_size_le {bytes : ByteArray} {n : Nat} (le : bytes.size ≤ n) :
    bytes.extract 0 n = bytes := by
  rw [← Nat.max_eq_left le, ByteArray.extract_zero_max_size]

theorem extract_append_add (bytes more : ByteArray) (n : Nat) :
    (bytes ++ more).extract 0 (bytes.size + n) = bytes ++ more.extract 0 n := by
  rw [ByteArray.extract_append, Nat.zero_sub, Nat.add_sub_cancel_left,
    extract_of_size_le (Nat.le_add_right ..)]

theorem write_of_le {bytes : ByteArray} {n : Nat} {line : String} (fits : line.toUTF8.size ≤ n) :
    (Output.mk bytes (some n)).write line =
      (⟨bytes ++ line.toUTF8, some (n - line.toUTF8.size)⟩, true) := if_pos fits

theorem write_of_lt {bytes : ByteArray} {n : Nat} {line : String} (cut : n < line.toUTF8.size) :
    (Output.mk bytes (some n)).write line = (⟨bytes ++ line.toUTF8.extract 0 n, some 0⟩, false) :=
  if_neg (Nat.not_le_of_lt cut)

theorem write_append (o : Output) (piece rest : String) :
    o.write (piece ++ rest) =
      if (o.write piece).2 then (o.write piece).1.write rest else ((o.write piece).1, false) := by
  obtain ⟨bytes, room⟩ := o
  have joined : (piece ++ rest).toUTF8 = piece.toUTF8 ++ rest.toUTF8 := String.toByteArray_append
  have size : (piece.toUTF8 ++ rest.toUTF8).size = piece.toUTF8.size + rest.toUTF8.size :=
    ByteArray.size_append
  cases room with
  | none => simp only [write, joined, if_true, ByteArray.append_assoc]
  | some n =>
    rcases Nat.lt_or_ge n piece.toUTF8.size with cut | fits
    · rw [write_of_lt cut, write_of_lt (by rw [joined]; omega), joined, ByteArray.extract_append,
        Nat.zero_sub, Nat.sub_eq_zero_of_le (Nat.le_of_lt cut), ByteArray.extract_same,
        ByteArray.append_empty]
      rfl
    · rw [write_of_le fits, if_pos rfl]
      rcases Nat.lt_or_ge (n - piece.toUTF8.size) rest.toUTF8.size with cut | restFits
      · rw [write_of_lt cut, write_of_lt (by rw [joined]; omega), joined, ByteArray.extract_append,
          extract_of_size_le fits, Nat.zero_sub, ByteArray.append_assoc]
      · rw [write_of_le restFits, write_of_le (by rw [joined]; omega), joined, size,
          Nat.sub_sub, ByteArray.append_assoc]

def capped (total : Nat) (o : Output) : Output := ⟨o.bytes, some (total - o.bytes.size)⟩

variable {o : Output} {total : Nat} {line : String}

theorem write_of_endless (endless : o.room = none) (line : String) :
    o.write line = (⟨o.bytes ++ line.toUTF8, none⟩, true) := by
  obtain ⟨bytes, room⟩ := o
  cases endless
  rfl

theorem write_capped_of_le (endless : o.room = none)
    (fits : (o.write line).1.bytes.size ≤ total) :
    (o.capped total).write line = ((o.write line).1.capped total, true) := by
  rw [write_of_endless endless] at fits ⊢
  change (o.bytes ++ line.toUTF8).size ≤ total at fits
  rw [ByteArray.size_append] at fits
  rw [capped, capped, write_of_le (by omega), ByteArray.size_append, Nat.sub_sub]

theorem write_capped_of_lt (endless : o.room = none) (before : o.bytes.size ≤ total)
    (goesOver : total < (o.write line).1.bytes.size) :
    (o.capped total).write line = (⟨(o.write line).1.bytes.extract 0 total, some 0⟩, false) := by
  rw [write_of_endless endless] at goesOver ⊢
  change total < (o.bytes ++ line.toUTF8).size at goesOver
  rw [ByteArray.size_append] at goesOver
  rw [capped, write_of_lt (by omega), ByteArray.extract_append, extract_of_size_le before,
    Nat.zero_sub]

end Output

namespace State

def capped (total : Nat) (s : State) : State := s.refit id (Output.capped total)

def withRoom (room : Option Nat) (s : State) : State :=
  s.refit id fun output => { output with room }

variable {s : State} {total : Nat} {line : String}

theorem capped_eq_withRoom {room : Nat} (left : total - s.output.bytes.size = room) :
    s.capped total = s.withRoom (some room) := by
  rw [← left]
  rfl

theorem start_withRoom (s : State) (room : Nat) (p : Program) :
    (s.withRoom (some room)).start p =
      ((s.withRoom none).start p).mapState (State.capped (s.output.bytes.size + room)) := by
  have left : s.output.bytes.size + room - s.output.bytes.size = room := Nat.add_sub_cancel_left ..
  have capped := capped_eq_withRoom (s := (s.withRoom none).define p.functions) left
  exact congrArg (Machine.run p.main .halt) capped.symm

theorem print_eq (s : State) (line : String) :
    s.print line = ({ s with output := (s.output.write (line ++ "\n")).1 },
      (s.output.write (line ++ "\n")).2) := rfl

theorem print_of_endless (endless : s.output.room = none) (line : String) :
    s.print line = ((s.print line).1, true) := by
  rw [print_eq, Output.write_of_endless endless]

theorem print_capped_of_le (endless : s.output.room = none)
    (fits : (s.print line).1.output.bytes.size ≤ total) :
    (s.capped total).print line = ((s.print line).1.capped total, true) := by
  rw [print_eq (s.capped total)]
  have wrote := Output.write_capped_of_le endless fits
  change (s.capped total).output.write (line ++ "\n") = _ at wrote
  rw [wrote]
  rfl

theorem print_capped_of_lt (endless : s.output.room = none) (before : s.output.bytes.size ≤ total)
    (goesOver : total < (s.print line).1.output.bytes.size) :
    (s.capped total).print line =
      ({ s with output := ⟨(s.print line).1.output.bytes.extract 0 total, some 0⟩ }, false) := by
  rw [print_eq (s.capped total)]
  have wrote := Output.write_capped_of_lt endless before goesOver
  change (s.capped total).output.write (line ++ "\n") = _ at wrote
  rw [wrote]
  rfl

end State

namespace Machine

variable {limit total : Nat} {m : Machine}

theorem room_step (endless : m.state.output.room = none) :
    (m.step limit).state.output.room = none := by
  rcases m.output_step limit with same | ⟨v, k, s, rfl, written⟩
  · rw [same, endless]
  · change s.output.room = none at endless
    rw [written, Output.write_of_endless endless]

theorem room_advance (endless : m.state.output.room = none) (n : Nat) :
    (m.advance limit n).state.output.room = none := by
  induction n with
  | zero => exact endless
  | succ n ih =>
    rw [advance_succ]
    exact room_step ih

theorem step_capped (endless : m.state.output.room = none)
    (fits : (m.step limit).state.output.bytes.size ≤ total) :
    (m.mapState (State.capped total)).step limit =
      (m.step limit).mapState (State.capped total) := by
  rcases m.step_refit with ⟨f, args, k, calls⟩ | ⟨v, k, s, rfl⟩ | commutes
  · obtain ⟨here, there⟩ := calls limit
    rw [here]
    exact (there id (Output.capped total)).trans (call_refit id _ rfl args k)
  · have free : (value v (.print k) s).step limit = run [] k (s.print (v.display s.lists)).1 :=
      step_print v k (s.print_of_endless endless _)
    rw [free] at fits ⊢
    exact step_print v k (State.print_capped_of_le endless fits)
  · exact commutes limit id (Output.capped total)

/-- A step that goes over is a print, and fails where the room ends. -/
theorem step_capped_over (endless : m.state.output.room = none)
    (before : m.state.output.bytes.size ≤ total)
    (goesOver : total < (m.step limit).state.output.bytes.size) :
    ∃ v k s calls, m = value v (.print k) s ∧
      (m.mapState (State.capped total)).step limit = failed .output
        { s with
          calls
          output := ⟨(m.step limit).state.output.bytes.extract 0 total, some 0⟩ } := by
  rcases m.output_step limit with same | ⟨v, k, s, rfl, written⟩
  · rw [same] at goesOver
    omega
  · change (step limit _).state.output = (s.print (v.display s.lists)).1.output at written
    rw [written] at goesOver ⊢
    have cut := State.print_capped_of_lt (s := s) endless before goesOver
    obtain ⟨calls, unwound⟩ := k.unwind_eq
      { s with output := ⟨(s.print (v.display s.lists)).1.output.bytes.extract 0 total, some 0⟩ }
    exact ⟨v, k, s, calls, rfl, (step_print_cut v k cut).trans (congrArg (failed .output) unwound)⟩

theorem advance_capped (endless : m.state.output.room = none) (n : Nat)
    (fits : (m.advance limit n).state.output.bytes.size ≤ total) :
    (m.mapState (State.capped total)).advance limit n =
      (m.advance limit n).mapState (State.capped total) := by
  induction n with
  | zero => rfl
  | succ n ih =>
    obtain ⟨more, eq⟩ := m.bytes_advance limit (Nat.le_succ n)
    have before : (m.advance limit n).state.output.bytes.size ≤ total := by
      rw [eq, ByteArray.size_append] at fits
      omega
    rw [advance_succ] at fits
    rw [advance_succ, advance_succ, ih before]
    exact step_capped (room_advance endless n) fits

theorem exists_step_over (fits : m.state.output.bytes.size ≤ total) {n : Nat}
    (goesOver : total < (m.advance limit n).state.output.bytes.size) :
    ∃ j < n, (m.advance limit j).state.output.bytes.size ≤ total ∧
      total < (m.advance limit (j + 1)).state.output.bytes.size := by
  induction n with
  | zero => exact absurd fits (Nat.not_le_of_lt goesOver)
  | succ n ih =>
    by_cases already : total < (m.advance limit n).state.output.bytes.size
    · obtain ⟨j, lt, here⟩ := ih already
      exact ⟨j, Nat.lt_succ_of_lt lt, here⟩
    · exact ⟨n, Nat.lt_succ_self n, Nat.le_of_not_lt already, goesOver⟩

theorem advance_capped_over (endless : m.state.output.room = none)
    (fits : m.state.output.bytes.size ≤ total) {n : Nat}
    (goesOver : total < (m.advance limit n).state.output.bytes.size) :
    ∃ j < n, ∃ v k t, m.advance limit j = value v (.print k) t ∧
      t.output.bytes.size ≤ total ∧
      total < (m.advance limit (j + 1)).state.output.bytes.size ∧
      ∃ calls, (m.mapState (State.capped total)).advance limit (j + 1) = failed .output
        { t with
          calls
          output := ⟨(m.advance limit n).state.output.bytes.extract 0 total, some 0⟩ } := by
  obtain ⟨j, lt, before, after⟩ := exists_step_over fits goesOver
  obtain ⟨more, eq⟩ := m.bytes_advance limit lt
  have cut : (m.advance limit n).state.output.bytes.extract 0 total =
      (m.advance limit (j + 1)).state.output.bytes.extract 0 total := by
    rw [eq, ByteArray.extract_append, Nat.zero_sub, Nat.sub_eq_zero_of_le (Nat.le_of_lt after),
      ByteArray.extract_same, ByteArray.append_empty]
  have step := after
  rw [advance_succ] at step
  obtain ⟨v, k, t, calls, here, failed⟩ :=
    step_capped_over (room_advance endless j) before step
  rw [← advance_capped endless j before, ← advance_succ, ← advance_succ, ← cut] at failed
  rw [here] at before
  exact ⟨j, lt, v, k, t, here, before, after, calls, failed⟩

end Machine

/--
Output that takes only `N` more bytes only cuts runs short. Up to there the run is the same as with
room for everything, at every moment and thus in how it ends. If ever more than that is printed,
the run fails at the print that goes over; it has printed just the first `N` bytes, and leaves
variables and lists as they were at that print. However it ends, its calls have been left.
-/
theorem bounded_output_only_cuts (limit N : Nat) (s : State) (p : Program) :
    let free n := ((s.withRoom none).start p).advance limit n
    let bounded n := ((s.withRoom (some N)).start p).advance limit n
    (∀ n, ∃ printed, (free n).state.output.bytes = s.output.bytes ++ printed ∧
      (printed.size ≤ N →
        bounded n = (free n).mapState (·.withRoom (some (N - printed.size)))) ∧
      (N < printed.size → ∃ j < n, ∃ v k t, free j = .value v (.print k) t ∧
        t.output.bytes.size ≤ s.output.bytes.size + N ∧
        s.output.bytes.size + N < (free (j + 1)).state.output.bytes.size ∧
        ∃ calls, bounded (j + 1) = .failed .output
          { t with calls, output := ⟨s.output.bytes ++ printed.extract 0 N, some 0⟩ })) ∧
    ∀ n, (bounded n).isOver → (bounded n).state.depth = s.depth := by
  intro free bounded
  refine ⟨fun n => ?_, fun n ended => ?_⟩
  · have endless : ((s.withRoom none).start p).state.output.room = none := rfl
    have start := s.start_withRoom N p
    obtain ⟨printed, written⟩ := Machine.bytes_advance limit ((s.withRoom none).start p) n.zero_le
    change (free n).state.output.bytes = s.output.bytes ++ printed at written
    have size : (free n).state.output.bytes.size = s.output.bytes.size + printed.size := by
      rw [written, ByteArray.size_append]
    refine ⟨printed, written, fun fits => ?_, fun goesOver => ?_⟩
    · have within : (free n).state.output.bytes.size ≤ s.output.bytes.size + N := by omega
      have same := Machine.advance_capped endless n within
      rw [← start] at same
      refine same.trans (Machine.mapState_congr (State.capped_eq_withRoom ?_))
      change _ - (free n).state.output.bytes.size = _
      omega
    · have within : ((s.withRoom none).start p).state.output.bytes.size ≤
          s.output.bytes.size + N := Nat.le_add_right _ N
      have beyond : s.output.bytes.size + N < (free n).state.output.bytes.size := by omega
      obtain ⟨j, lt, v, k, t, here, before, after, calls, failed⟩ :=
        Machine.advance_capped_over endless within beyond
      refine ⟨j, lt, v, k, t, here, before, after, calls, ?_⟩
      rw [← Output.extract_append_add, ← written]
      rwa [← start] at failed
  · have started : ((s.withRoom (some N)).start p).Inside limit (.halt : Cont .done)
        ((s.withRoom (some N)).define p.functions).KeepsFrames := .base (.refl _)
    exact (started.state_of_isOver (State.keepsFrames_lasting _ .done) n ended).depth

namespace Program

/-- `fun f(x) = { print(x); } x; { y = [1, f("two")]; f("too"); }` -/
def printing : Program where
  functions := [⟨"f", ["x"], [.print (.var "x")], .var "x"⟩]
  main := [.assign "y" (.list [.literal (.int 1), .call "f" [.literal (.str "two")]]),
    .call "f" [.literal (.str "too")]]

theorem bounded_output_only_cuts_printing :
    let s := State.fresh .unlimited
    let free n := ((s.withRoom none).start printing).advance 9 n
    let bounded N n := ((s.withRoom (some N)).start printing).advance 9 n
    (∃ printed, (free 40).state.output.bytes = s.output.bytes ++ printed ∧ printed.size ≤ 8 ∧
      bounded 8 40 = (free 40).mapState (·.withRoom (some (8 - printed.size)))) ∧
    (∃ printed, (free 40).state.output.bytes = s.output.bytes ++ printed ∧ 6 < printed.size ∧
      ∃ j < 40, ∃ v k t, free j = .value v (.print k) t ∧
        t.output.bytes.size ≤ s.output.bytes.size + 6 ∧
        s.output.bytes.size + 6 < (free (j + 1)).state.output.bytes.size ∧
        ∃ calls, bounded 6 (j + 1) = .failed .output
          { t with calls, output := ⟨s.output.bytes ++ printed.extract 0 6, some 0⟩ }) ∧
    (bounded 6 40).isOver ∧ (bounded 6 40).state.depth = s.depth := by
  intro s free bounded
  have written : (free 40).state.output.bytes.size = s.output.bytes.size + 8 := by decide
  have ended : (bounded 6 40).isOver := by decide
  have size {printed : ByteArray}
      (h : (free 40).state.output.bytes = s.output.bytes ++ printed) : printed.size = 8 := by
    rw [h, ByteArray.size_append] at written
    exact Nat.add_left_cancel written
  obtain ⟨printed, eq, fits, -⟩ := (bounded_output_only_cuts 9 8 s printing).1 40
  obtain ⟨printed', eq', -, goesOver⟩ := (bounded_output_only_cuts 9 6 s printing).1 40
  have fit : printed.size ≤ 8 := Nat.le_of_eq (size eq)
  have more : 6 < printed'.size := by
    rw [size eq']
    decide
  exact ⟨⟨printed, eq, fit, fits fit⟩, ⟨printed', eq', more, goesOver more⟩, ended,
    (bounded_output_only_cuts 9 6 s printing).2 40 ended⟩

end Program

end Scriptlet
