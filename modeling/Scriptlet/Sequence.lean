namespace Scriptlet

inductive Sequence.Tree (α : Type) : Nat → Type where
  | empty : Tree α 0
  | leaf (a : α) : Tree α 1
  | node {size : Nat} (m n : Nat) (l : Tree α m) (r : Tree α n) (sum : size = m + n) : Tree α size

namespace Sequence.Tree

variable {α : Type}

def before {n : Nat} (t : Tree α n) (rest : List α) : List α :=
  match t with
  | empty => rest
  | leaf a => a :: rest
  | node _ _ l r _ => l.before (r.before rest)

def toList {n : Nat} (t : Tree α n) : List α := t.before []

theorem before_eq {n : Nat} (t : Tree α n) (rest : List α) : t.before rest = t.toList ++ rest := by
  induction t generalizing rest with
  | empty => rfl
  | leaf a => rfl
  | node m n l r sum ihl ihr =>
    simp only [toList, before]
    rw [ihl, ihr, ihl (r.before []), ihr [], List.append_assoc, List.append_nil]

@[simp] theorem toList_empty : (empty : Tree α 0).toList = [] := rfl

@[simp] theorem toList_leaf (a : α) : (leaf a).toList = [a] := rfl

@[simp] theorem toList_node {size : Nat} (m n : Nat) (l : Tree α m) (r : Tree α n)
    (sum : size = m + n) : (node m n l r sum).toList = l.toList ++ r.toList := by
  simp only [toList, before]
  rw [before_eq]
  rfl

theorem length_toList {n : Nat} (t : Tree α n) : t.toList.length = n := by
  induction t with
  | empty => rfl
  | leaf a => rfl
  | node m n l r sum ihl ihr => rw [toList_node, List.length_append, ihl, ihr, sum]

def get? {n : Nat} (t : Tree α n) (i : Nat) : Option α :=
  match t with
  | empty => none
  | leaf a => if i = 0 then some a else none
  | node m _ l r _ => if i < m then l.get? i else r.get? (i - m)

theorem get?_eq {n : Nat} (t : Tree α n) (i : Nat) : t.get? i = t.toList[i]? := by
  induction t generalizing i with
  | empty => rfl
  | leaf a => cases i <;> rfl
  | node m n l r sum ihl ihr =>
    rw [get?, toList_node, List.getElem?_append, length_toList, ihl, ihr]

def set {n : Nat} (t : Tree α n) (i : Nat) (a : α) : Tree α n :=
  match t with
  | empty => empty
  | leaf b => leaf (if i = 0 then a else b)
  | node m n l r sum =>
    if i < m then node m n (l.set i a) r sum else node m n l (r.set (i - m) a) sum

@[simp] theorem toList_set {n : Nat} (t : Tree α n) (i : Nat) (a : α) :
    (t.set i a).toList = t.toList.set i a := by
  induction t generalizing i with
  | empty => rfl
  | leaf b => cases i <;> rfl
  | node m n l r sum ihl ihr =>
    rw [set, toList_node, List.set_append, length_toList]
    split <;> simp only [toList_node, ihl, ihr]

/-- The parts of a node may differ in size by this factor. -/
def slack : Nat := 3

def shiftLeft {size m n : Nat} (l : Tree α m) (r : Tree α n) (sum : size = m + n) :
    Tree α size :=
  if n ≤ slack * m then node m n l r sum else
    match r with
    | node p q rl rr _ =>
      if p < 2 * q then node (m + p) q (node m p l rl rfl) rr (by omega) else
        match rl with
        | node s t rll rlr _ =>
          node (m + s) (t + q) (node m s l rll rfl) (node t q rlr rr rfl) (by omega)
        | rl => node (m + p) q (node m p l rl rfl) rr (by omega)
    | r => node m n l r sum

def shiftRight {size m n : Nat} (l : Tree α m) (r : Tree α n) (sum : size = m + n) :
    Tree α size :=
  if m ≤ slack * n then node m n l r sum else
    match l with
    | node p q ll lr _ =>
      if q < 2 * p then node p (q + n) ll (node q n lr r rfl) (by omega) else
        match lr with
        | node s t lrl lrr _ =>
          node (p + s) (t + n) (node p s ll lrl rfl) (node t n lrr r rfl) (by omega)
        | lr => node p (q + n) ll (node q n lr r rfl) (by omega)
    | l => node m n l r sum

/-- `l` and then `r`, which goes down the right edge of `l` to where the sizes match. -/
def joinRight {size m n : Nat} (l : Tree α m) (r : Tree α n) (sum : size = m + n) :
    Tree α size :=
  match l with
  | node p q ll lr sum' =>
    if m ≤ slack * n then node m n (node p q ll lr sum') r sum
    else shiftLeft ll (lr.joinRight r rfl) (by omega)
  | l => node m n l r sum

def joinLeft {size m n : Nat} (l : Tree α m) (r : Tree α n) (sum : size = m + n) :
    Tree α size :=
  match r with
  | node p q rl rr sum' =>
    if n ≤ slack * m then node m n l (node p q rl rr sum') sum
    else shiftRight (l.joinLeft rl rfl) rr (by omega)
  | r => node m n l r sum

def join {m n : Nat} (l : Tree α m) (r : Tree α n) : Tree α (m + n) :=
  if n ≤ m then l.joinRight r rfl else l.joinLeft r rfl

@[simp] theorem toList_shiftLeft {size m n : Nat} (l : Tree α m) (r : Tree α n)
    (sum : size = m + n) : (shiftLeft l r sum).toList = l.toList ++ r.toList := by
  unfold shiftLeft
  repeat' split
  all_goals simp only [toList_node, List.append_assoc]

@[simp] theorem toList_shiftRight {size m n : Nat} (l : Tree α m) (r : Tree α n)
    (sum : size = m + n) : (shiftRight l r sum).toList = l.toList ++ r.toList := by
  unfold shiftRight
  repeat' split
  all_goals simp only [toList_node, List.append_assoc]

theorem toList_joinRight {size m n : Nat} (l : Tree α m) (r : Tree α n) (sum : size = m + n) :
    (l.joinRight r sum).toList = l.toList ++ r.toList := by
  induction l generalizing size with
  | empty => simp only [joinRight, toList_node]
  | leaf a => simp only [joinRight, toList_node]
  | node p q ll lr sum' _ ih =>
    simp only [joinRight]
    split
    · simp only [toList_node]
    · simp only [toList_shiftLeft, ih, toList_node, List.append_assoc]

theorem toList_joinLeft {size m n : Nat} (l : Tree α m) (r : Tree α n) (sum : size = m + n) :
    (l.joinLeft r sum).toList = l.toList ++ r.toList := by
  induction r generalizing size with
  | empty => simp only [joinLeft, toList_node]
  | leaf a => simp only [joinLeft, toList_node]
  | node p q rl rr sum' ih _ =>
    simp only [joinLeft]
    split
    · simp only [toList_node]
    · simp only [toList_shiftRight, ih, toList_node, List.append_assoc]

@[simp] theorem toList_join {m n : Nat} (l : Tree α m) (r : Tree α n) :
    (l.join r).toList = l.toList ++ r.toList := by
  unfold join
  split
  · exact toList_joinRight l r rfl
  · exact toList_joinLeft l r rfl

end Sequence.Tree

/--
A sequence in a balanced tree: finding or replacing an element and joining take about as many steps
as the logarithm of the sizes, and a sequence made from others shares nearly all nodes with them.
-/
structure Sequence (α : Type) where
  size : Nat
  tree : Sequence.Tree α size

namespace Sequence

variable {α : Type}

def empty : Sequence α := ⟨0, .empty⟩

instance : Inhabited (Sequence α) := ⟨empty⟩

def singleton (a : α) : Sequence α := ⟨1, .leaf a⟩

def toList (s : Sequence α) : List α := s.tree.toList

def get? (s : Sequence α) (i : Nat) : Option α := s.tree.get? i

def set (s : Sequence α) (i : Nat) (a : α) : Sequence α := ⟨s.size, s.tree.set i a⟩

def append (s t : Sequence α) : Sequence α :=
  if s.size = 0 then t else if t.size = 0 then s else ⟨s.size + t.size, s.tree.join t.tree⟩

instance : Append (Sequence α) := ⟨append⟩

def cons (a : α) (s : Sequence α) : Sequence α := singleton a ++ s

def ofList (l : List α) : Sequence α := l.foldr cons empty

@[simp] theorem length_toList (s : Sequence α) : s.toList.length = s.size :=
  s.tree.length_toList

theorem toList_eq_nil (s : Sequence α) (h : s.size = 0) : s.toList = [] :=
  List.eq_nil_of_length_eq_zero (s.length_toList.trans h)

@[simp] theorem toList_empty : (empty : Sequence α).toList = [] := rfl

@[simp] theorem toList_singleton (a : α) : (singleton a).toList = [a] := rfl

theorem get?_eq (s : Sequence α) (i : Nat) : s.get? i = s.toList[i]? := s.tree.get?_eq i

@[simp] theorem toList_set (s : Sequence α) (i : Nat) (a : α) :
    (s.set i a).toList = s.toList.set i a := s.tree.toList_set i a

@[simp] theorem size_set (s : Sequence α) (i : Nat) (a : α) : (s.set i a).size = s.size := rfl

@[simp] theorem toList_append (s t : Sequence α) : (s ++ t).toList = s.toList ++ t.toList := by
  show (append s t).toList = _
  unfold append
  split
  · next h => rw [toList_eq_nil s h, List.nil_append]
  · split
    · next h => rw [toList_eq_nil t h, List.append_nil]
    · exact s.tree.toList_join t.tree

@[simp] theorem toList_cons (a : α) (s : Sequence α) : (cons a s).toList = a :: s.toList := by
  rw [cons, toList_append, toList_singleton, List.singleton_append]

@[simp] theorem toList_ofList (l : List α) : (ofList l).toList = l := by
  induction l with
  | nil => rfl
  | cons a l ih => rw [ofList, List.foldr_cons, toList_cons, ← ofList, ih]

end Sequence

end Scriptlet
