import Scriptlet.Text.Characters
import Scriptlet.Value.Equality

namespace Scriptlet

def Value.member (ls : Lists) (item container : Value) : Except SemanticError Bool :=
  match item, container with
  | str part, str whole => .ok (whole.contains part)
  | item, list id => .ok ((ls.get id).toList.any fun v => v.equal ls item)
  | item, container =>
    .error (.typeMismatch BinaryOp.member.spelling [item.kind, container.kind])

def atIndex {α : Type} (at? : Nat → Option α) (length : Nat) (i : Int64) :
    Except SemanticError α :=
  if i.toInt < 0 then .error (.indexOutOfRange i length) else
    match at? i.toInt.toNat with
    | some a => .ok a
    | none => .error (.indexOutOfRange i length)

def Lists.elementAt (ls : Lists) (id : ListId) (i : Int64) : Except SemanticError Value :=
  let items := ls.get id
  atIndex items.get? items.size i

def Value.step (ls : Lists) (target index : Value) : Except SemanticError Value :=
  match index with
  | int i =>
    match target with
    | list id => ls.elementAt id i
    | str s => (atIndex (Text.characterAt? s) s.length i).map fun c => str c.toString
    | target => .error (.typeMismatch "[]" [target.kind])
  | index => .error (.typeMismatch "[]" [index.kind])

def Value.at (ls : Lists) (target : Value) : List Value → Except SemanticError Value
  | [] => .ok target
  | i :: is =>
    match target.step ls i with
    | .ok v => v.at ls is
    | .error e => .error e

def Value.position : Value → Except SemanticError Int64
  | int i => .ok i
  | v => .error (.typeMismatch "[]" [v.kind])

def Value.place (ls : Lists) (target : Value) (i : Int64) :
    List Int64 → Except SemanticError (ListId × Nat)
  | [] =>
    match target with
    | list id => (ls.elementAt id i).map fun _ => (id, i.toInt.toNat)
    | target => .error (.typeMismatch "[]=" [target.kind])
  | j :: is =>
    match target with
    | list id =>
      match ls.elementAt id i with
      | .ok v => v.place ls j is
      | .error e => .error e
    | target => .error (.typeMismatch "[]=" [target.kind])

/--
The list and the position in it that `target[i][j]… = v` writes to. Without an index there is
none.
-/
def Value.place? (ls : Lists) (target : Value) (indices : List Value) :
    Except SemanticError (Option (ListId × Nat)) :=
  match indices.mapM Value.position with
  | .error e => .error e
  | .ok [] => .ok none
  | .ok (i :: is) => (target.place ls i is).map some

def Lists.write (ls : Lists) (place : Option (ListId × Nat)) (v : Value) : Lists :=
  match place with
  | none => ls
  | some (id, n) => ls.set id n v

def Value.field (n : Int64) (target : Value) : Except SemanticError Value :=
  match target with
  | tuple items =>
    if n.toInt < 1 then .error (.fieldOutOfRange n items.length) else
      match items[n.toInt.toNat - 1]? with
      | some v => .ok v
      | none => .error (.fieldOutOfRange n items.length)
  | target => .error (.typeMismatch "#" [target.kind])

end Scriptlet
