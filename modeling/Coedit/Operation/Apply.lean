import Coedit.Operation.Basic

/-!
# Applying an operation to a text

The components run over the text from left to right. A text that does not hold what a replacement
deletes is a fault, and so is a text of the wrong length. The first kind is noticed first: the
length is only known at the end of the walk. A stretch for which the text is too short is not
compared at all, since the length will be wrong anyway.
-/

namespace Coedit

/-- Runs components over a text of which `offset` characters have been consumed already. Characters
that the text lacks are passed over, and characters beyond the last component are dropped. -/
def runComponents (offset : Nat) : List Component → Text → Except Fault Text
  | [], _ => .ok []
  | .retain n :: cs, t => do
    let kept := t.take n
    let out ← runComponents (offset + kept.length) cs (t.drop n)
    .ok (kept ++ out)
  | .replace d i :: cs, t =>
    let found := t.take d.length
    if found.length < d.length ∨ found = d then do
      let out ← runComponents (offset + found.length) cs (t.drop d.length)
      .ok (i ++ out)
    else
      .error (.deletedTextDiffers d offset found)

namespace Operation

/-- The text that the operation makes of `text`. -/
def apply (op : Operation) (text : Text) : Except Fault Text :=
  if op.isEmpty then .ok text
  else do
    let out ← runComponents 0 op.components text
    if text.length = op.lenBefore then .ok out
    else .error (.lengthDiffers op.lenBefore)

end Operation

end Coedit
