import Coedit.Operation.Alignment

/-!
# Transforming concurrent operations

Two operations from the same text can be done in either order once one of them has been adapted:
`a.transform b side` does after `b` what `a` does before it. The two meet at the text they both
start from, so insertions are the free runs of the alignment. Text that `b` deletes is no longer
there to be kept or deleted, and text that `b` inserts is kept. Where both insert at the same
place, `side` is the side of `b`'s text on which `a`'s text goes.
-/

namespace Coedit

/-- What a cell of the alignment at the common start contributes to the left operation, done after
the right one. -/
def Cell.transformed : Cell → List Piece
  | left p => [p]
  | right q => [.retain q.size]
  | both (.retain n) (.retain _) => [.retain n]
  | both (.delete t) (.retain _) => [.delete t]
  | both _ _ => []
  | strayLeft p => [p]
  | strayRight _ => []

namespace Operation

/-- The runs of two operations, aligned at the text that both start from. -/
def concurrence (side : Side) (mine theirs : List Piece) : List Cell :=
  align Piece.isInsert Piece.isInsert side mine theirs

/-- The operation that does after `theirs` what `mine` does without it. An empty operation is
neither changed nor does it change anything; otherwise both have to start from the same length. -/
def transform (mine theirs : Operation) (side : Side) : Except Fault Operation :=
  if mine.isEmpty ∨ theirs.isEmpty then .ok mine
  else if mine.lenBefore = theirs.lenBefore then
    ofPieces ((concurrence side mine.pieces theirs.pieces).flatMap Cell.transformed)
  else
    .error (.cannotTransform mine.lenBefore theirs.lenBefore)

end Operation

end Coedit
