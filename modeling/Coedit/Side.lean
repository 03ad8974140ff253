/-!
# Sides

Where text is inserted exactly at a position, the position can stay on either side of it.
-/

namespace Coedit

/-- A side of inserted text: before it or after it. -/
inductive Side where
  | left
  | right
  deriving DecidableEq, Repr

end Coedit
