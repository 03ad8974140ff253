import Coedit.Operation.Basic
import Coedit.Side

/-!
# Moving an offset through an operation

An offset into the text before an operation has a place in the text after it. In a kept run it
moves with its character. In replaced text it goes to the start or the end of the replacement, and
where text is inserted exactly at the offset it stays before that text or goes past it, as the
side says. An offset past the end moves by the change in length.
-/

namespace Coedit

/-- Moves `offset` through components, the first of which starts at `before` in the old text and at
`after` in the new text. -/
def moveOffset (side : Side) (offset : Nat) :
    List Component → (before after : Nat) → Except Fault Nat
  | [], before, after => do
    let sum ← Word.add after offset
    .ok (sum - before)
  | .retain n :: cs, before, after =>
    if offset < before + n then do
      let into ← Word.sub offset before
      .ok (after + into)
    else moveOffset side offset cs (before + n) (after + n)
  | .replace d i :: cs, before, after =>
    if d.length = 0 then
      if offset = before ∧ side = .left then .ok after
      else moveOffset side offset cs before (after + i.length)
    else if offset < before + d.length then
      match side with
      | .left => .ok after
      | .right => .ok (after + i.length)
    else moveOffset side offset cs (before + d.length) (after + i.length)

namespace Operation

/-- The place of `offset` in the text after the operation. -/
def mapOffset (op : Operation) (offset : Nat) (side : Side) : Except Fault Nat :=
  moveOffset side offset op.components 0 0

end Operation

end Coedit
