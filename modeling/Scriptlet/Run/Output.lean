namespace Scriptlet

structure Output where
  bytes : ByteArray
  room : Option Nat
  deriving Inhabited

namespace Output

def unlimited : Output := ⟨.empty, none⟩

def limited (room : Nat) : Output := ⟨.empty, some room⟩

/-- Writes as many bytes as there is room for; true if that was all of them. -/
def write (o : Output) (s : String) : Output × Bool :=
  let more := s.toUTF8
  match o with
  | ⟨bytes, none⟩ => (⟨bytes ++ more, none⟩, true)
  | ⟨bytes, some n⟩ =>
    if more.size ≤ n then (⟨bytes ++ more, some (n - more.size)⟩, true)
    else (⟨bytes ++ more.extract 0 n, some 0⟩, false)

def drained (o : Output) : Output := ⟨.empty, o.room⟩

def text (o : Output) : String :=
  let start? (cut : Nat) := String.fromUTF8? (o.bytes.extract 0 (o.bytes.size - cut))
  match start? 0 with
  | some s => s
  | none => ([1, 2, 3].findSome? start?).getD "" ++ "\uFFFD"

/--
The lines of a text: each ends in a line feed, before which one carriage return is dropped.
Both the lines read so far and the characters of the open line stand the last first.
-/
def linesOf (read : List (List Char)) (line : List Char) : List Char → List (List Char)
  | [] => (if line.isEmpty then read else line.reverse :: read).reverse
  | '\n' :: cs =>
    let ended := match line with
      | '\r' :: r => r
      | r => r
    linesOf (ended.reverse :: read) [] cs
  | c :: cs => linesOf read (c :: line) cs

def lines (o : Output) : List String := (linesOf [] [] o.text.toList).map String.ofList

end Output

end Scriptlet
