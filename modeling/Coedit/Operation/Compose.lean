import Coedit.Operation.Alignment

/-!
# Composing operations

`a.compose b` does at once what `a` and then `b` do. The two meet at the text between them: what
`a` deletes is not in that text any more, and what `b` inserts is not in it yet, so these are the
free runs of the alignment. Text that `a` inserts and `b` deletes leaves no trace.
-/

namespace Coedit

/-- What a cell of the alignment at the text in between contributes to the composition. -/
def Cell.composed : Cell → List Piece
  | left p => [p]
  | right q => [q]
  | both (.retain n) (.retain _) => [.retain n]
  | both (.retain _) (.delete t) => [.delete t]
  | both (.insert t) (.retain _) => [.insert t]
  | both _ _ => []
  | strayLeft p => [p]
  | strayRight q => [q]

namespace Operation

/-- The runs of the first and then the second operation, aligned at the text in between. -/
def composition (first second : List Piece) : List Cell :=
  align Piece.isDelete Piece.isInsert .left first second

/-- The operation that does what `first` and then `second` do. An empty operation composes with
everything; otherwise `second` has to start from the length that `first` ends with. -/
def compose (first second : Operation) : Except Fault Operation :=
  if first.isEmpty then .ok second
  else if second.isEmpty then .ok first
  else if first.lenAfter = second.lenBefore then
    ofPieces ((composition first.pieces second.pieces).flatMap Cell.composed)
  else
    .error (.cannotCompose first.lenAfter second.lenBefore)

/-- The composition of consecutive operations, oldest first. -/
def composeAll (ops : List Operation) : Except Fault Operation := ops.foldlM compose empty

end Operation

end Coedit
