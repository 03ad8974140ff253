import Coedit.Span

/-!
# Carets

A caret is an offset, perhaps with a selected span beside it. Both follow an operation with the
same side.
-/

namespace Coedit

/-- A caret in a text, perhaps with a selection. -/
structure Caret where
  offset : Nat
  selection : Option Span
  deriving DecidableEq, Repr

namespace Caret

/-- The caret after an operation. -/
def transform (c : Caret) (op : Operation) (side : Side) : Except Fault Caret := do
  let offset ← op.mapOffset c.offset side
  let selection ← c.selection.mapM fun s => s.transform op side
  .ok ⟨offset, selection⟩

end Caret

end Coedit
