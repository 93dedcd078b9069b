namespace Scriptlet.CommandLine

structure Words where
  file : Option String
  limit : Option String

def Words.withFile? (w : Words) (file : String) : Option Words :=
  if w.file.isSome || file.isEmpty then none else some { w with file := some file }

def Words.withLimit? (w : Words) (limit : String) : Option Words :=
  if w.limit.isSome then none else some { w with limit := some limit }

/-- A word that names an option. A lone `-` does not. -/
def isOption (word : String) : Bool := word.startsWith "-" && word != "-"

def limitOption : String := "--max-call-depth"

def sortFiles (w : Words) : List String → Option Words
  | [] => some w
  | word :: rest => (w.withFile? word).bind fun w => sortFiles w rest

def sort (w : Words) : List String → Option Words
  | [] => some w
  | word :: rest =>
    if word = "--" then sortFiles w rest
    else if word = limitOption then
      match rest with
      | [] => none
      | value :: rest =>
        if isOption value then none else (w.withLimit? value).bind fun w => sort w rest
    else match word.dropPrefix? (limitOption ++ "=") with
      | some value => (w.withLimit? value.toString).bind fun w => sort w rest
      | none =>
        if isOption word then none else (w.withFile? word).bind fun w => sort w rest

/-- A number of calls: decimal digits, after at most one `+`, below `2^64`. -/
def limit? (text : String) : Option Nat :=
  let digits := match text.toList with
    | '+' :: ds => ds
    | ds => ds
  if digits.isEmpty || !digits.all Char.isDigit then none else
    let n := digits.foldl (fun n d => 10 * n + (d.toNat - '0'.toNat)) 0
    if n < Nat.pow 2 64 then some n else none

structure Request where
  file : String
  limit : Nat
  deriving DecidableEq, Repr

/--
Reads the words of a command line. Without the option the limit is that of the environment, if
it has one, else `standard`.
-/
def request? (words : List String) (environment : Option String) (standard : Nat) :
    Option Request :=
  match sort ⟨none, none⟩ words with
  | some ⟨some file, given⟩ =>
    match given.orElse fun _ => environment with
    | some text => (limit? text).map (⟨file, ·⟩)
    | none => some ⟨file, standard⟩
  | _ => none

end Scriptlet.CommandLine
