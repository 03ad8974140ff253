import Coedit.Operation.Basic

/-!
# Pieces

For work on two operations at once, a replacement is cut into a deletion and an insertion. A
`Piece` is a run of characters that are all kept, all deleted or all inserted. `pieces` cuts
components into non-empty pieces, and `gather` puts pieces back together: neighbouring runs of kept
characters merge, and so do a deletion and an insertion next to each other, in either order.

`gather` neither loses nor adds characters (`inputLength_gather`, `outputLength_gather`).
-/

namespace Coedit

/-- A run of characters with one fate. -/
inductive Piece where
  | retain (count : Nat)
  | delete (text : Text)
  | insert (text : Text)
  deriving DecidableEq, Repr

namespace Piece

/-- The number of characters in the run. -/
def size : Piece → Nat
  | retain n => n
  | delete t => t.length
  | insert t => t.length

/-- The number of characters of the run that stand in the text before the change. -/
def lenBefore : Piece → Nat
  | retain n => n
  | delete t => t.length
  | insert _ => 0

/-- The number of characters of the run that stand in the text after the change. -/
def lenAfter : Piece → Nat
  | retain n => n
  | delete _ => 0
  | insert t => t.length

def isDelete : Piece → Bool
  | delete _ => true
  | _ => false

def isInsert : Piece → Bool
  | insert _ => true
  | _ => false

/-- The first `k` characters of the run. -/
def take (k : Nat) : Piece → Piece
  | retain n => retain (min k n)
  | delete t => delete (t.take k)
  | insert t => insert (t.take k)

/-- The run without its first `k` characters. -/
def drop (k : Nat) : Piece → Piece
  | retain n => retain (n - k)
  | delete t => delete (t.drop k)
  | insert t => insert (t.drop k)

/-- Puts a run in front of components, merging it into the first one where the two are of one
kind. An empty run leaves the components alone. -/
def onto (p : Piece) (cs : List Component) : List Component :=
  if p.size = 0 then cs
  else match p, cs with
    | retain n, .retain m :: rest => .retain (n + m) :: rest
    | retain n, cs => .retain n :: cs
    | delete t, .replace d i :: rest => .replace (t ++ d) i :: rest
    | delete t, cs => .replace t [] :: cs
    | insert t, .replace d i :: rest => .replace d (t ++ i) :: rest
    | insert t, cs => .replace [] t :: cs

@[simp] theorem size_take (k : Nat) (p : Piece) : (p.take k).size = min k p.size := by
  cases p <;> simp [take, size]

@[simp] theorem size_drop (k : Nat) (p : Piece) : (p.drop k).size = p.size - k := by
  cases p <;> simp [drop, size]

theorem inputLength_onto (p : Piece) (cs : List Component) :
    inputLength (p.onto cs) = p.lenBefore + inputLength cs := by
  unfold onto
  split
  · next h => cases p <;> simp_all [size, lenBefore]
  · split <;> simp [lenBefore, Component.lenBefore] <;> omega

theorem outputLength_onto (p : Piece) (cs : List Component) :
    outputLength (p.onto cs) = p.lenAfter + outputLength cs := by
  unfold onto
  split
  · next h => cases p <;> simp_all [size, lenAfter]
  · split <;> simp [lenAfter, Component.lenAfter] <;> omega

end Piece

/-- The non-empty runs of a component, the deletion before the insertion. -/
def Component.pieces : Component → List Piece
  | retain n => [Piece.retain n].filter fun p => p.size != 0
  | replace d i => [Piece.delete d, Piece.insert i].filter fun p => p.size != 0

/-- The non-empty runs of a list of components, in order. -/
def pieces (cs : List Component) : List Piece := cs.flatMap Component.pieces

/-- The components that a list of runs amounts to, merged as far as possible. -/
def gather (ps : List Piece) : List Component := ps.foldr Piece.onto []

@[simp] theorem gather_nil : gather [] = [] := rfl

@[simp] theorem gather_cons (p : Piece) (ps : List Piece) :
    gather (p :: ps) = p.onto (gather ps) := rfl

theorem inputLength_gather (ps : List Piece) :
    inputLength (gather ps) = total Piece.lenBefore ps := by
  induction ps with
  | nil => rfl
  | cons p ps ih => rw [gather_cons, Piece.inputLength_onto, ih, total_cons]

theorem outputLength_gather (ps : List Piece) :
    outputLength (gather ps) = total Piece.lenAfter ps := by
  induction ps with
  | nil => rfl
  | cons p ps ih => rw [gather_cons, Piece.outputLength_onto, ih, total_cons]

theorem Component.total_lenBefore_pieces (c : Component) :
    total Piece.lenBefore c.pieces = c.lenBefore := by
  cases c with
  | retain n => by_cases h : n = 0 <;> simp [pieces, Piece.size, Piece.lenBefore, lenBefore, h]
  | replace d i =>
    by_cases hd : d = [] <;> by_cases hi : i = [] <;>
      simp [pieces, Piece.size, Piece.lenBefore, lenBefore, hd, hi]

theorem Component.total_lenAfter_pieces (c : Component) :
    total Piece.lenAfter c.pieces = c.lenAfter := by
  cases c with
  | retain n => by_cases h : n = 0 <;> simp [pieces, Piece.size, Piece.lenAfter, lenAfter, h]
  | replace d i =>
    by_cases hd : d = [] <;> by_cases hi : i = [] <;>
      simp [pieces, Piece.size, Piece.lenAfter, lenAfter, hd, hi]

theorem total_lenBefore_pieces (cs : List Component) :
    total Piece.lenBefore (pieces cs) = inputLength cs := by
  induction cs with
  | nil => rfl
  | cons c cs ih =>
    rw [pieces, List.flatMap_cons, total_append, inputLength_cons,
      c.total_lenBefore_pieces, ← ih, pieces]

theorem total_lenAfter_pieces (cs : List Component) :
    total Piece.lenAfter (pieces cs) = outputLength cs := by
  induction cs with
  | nil => rfl
  | cons c cs ih =>
    rw [pieces, List.flatMap_cons, total_append, outputLength_cons,
      c.total_lenAfter_pieces, ← ih, pieces]

namespace Operation

/-- The non-empty runs of the operation. -/
def pieces (op : Operation) : List Piece := Coedit.pieces op.components

/-- The operation that a list of runs amounts to, if both of its lengths are words. -/
def ofPieces (ps : List Piece) : Except Fault Operation := ofComponents (gather ps)

end Operation

end Coedit
