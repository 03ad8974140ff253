import Coedit.Operation.Piece

/-!
# Making operations

The operations that a caller starts from: keep a whole document, replace one stretch of it, and
turn one text into another by a single replacement, as small as trimming both ends allows.
-/

namespace Coedit

/-- The runs that turn `old` into `new` by one replacement: what the two share at the front is
kept, then what the remainders share at the back. -/
def Piece.changing (old new : Text) : List Piece :=
  let start := Text.sharedStart old new
  let old := old.drop start
  let new := new.drop start
  let stop := Text.sharedEnd old new
  [retain start, delete (old.take (old.length - stop)), insert (new.take (new.length - stop)),
    retain stop]

namespace Operation

/-- The identity on a document of `length` characters. -/
def retain (length : Nat) : Except Fault Operation := ofPieces [.retain length]

/-- Replaces `deleted` at `offset` by `inserted` in a document of `length` characters. It is a
fault if the replaced stretch leaves the document. -/
def replace (offset : Nat) (deleted inserted : Text) (length : Nat) : Except Fault Operation := do
  let stop ← Word.add offset deleted.length
  if stop ≤ length then
    ofPieces [.retain offset, .delete deleted, .insert inserted, .retain (length - stop)]
  else
    .error (.replaceOverruns offset deleted.length length)

/-- Inserts `text` at `offset` in a document of `length` characters. -/
def insert (offset : Nat) (text : Text) (length : Nat) : Except Fault Operation :=
  replace offset [] text length

/-- Deletes `text` at `offset` in a document of `length` characters. -/
def delete (offset : Nat) (text : Text) (length : Nat) : Except Fault Operation :=
  replace offset text [] length

/-- Turns `old` into `new` by one replacement. -/
def difference (old new : Text) : Except Fault Operation := ofPieces (Piece.changing old new)

end Operation

end Coedit
