import Coedit.Caret
import Coedit.History.Bridge
import Coedit.Interval.Basic
import Coedit.Operation.Transform

/-!
# Captured values

A value that refers to a text, such as an operation, an offset or a span, is only good for the text
it was made for. A captured value keeps the history at that point. To use it later it is *rebased*:
the histories are bridged, and the value is carried through the bridge. Positions stay to the left
of text inserted at them, unless the caller chooses the side.

Histories that cannot be bridged are nothing unusual for an old value, so rebasing gives `none`.
-/

namespace Coedit

/-- A value together with the history it was made for. -/
structure Captured (α : Type) where
  value : α
  base : History

namespace Captured

variable {α : Type}

/-- The value as made for a history at a timestamp. -/
def capture (value : α) (h : History) (timestamp : Nat) :
    Except (Failure LookupError) (Captured α) := do
  let base ← h.rewind timestamp
  .ok ⟨value, base⟩

/-- Carries the value through the bridge to another history. -/
def rebaseBy (follow : α → Operation → Except Fault α) (c : Captured α) (h : History) :
    Except Fault (Option α) := do
  match ← c.base.bridge? h with
  | none => .ok none
  | some op => do
    let value ← follow c.value op
    .ok (some value)

/-- The operation, adapted to go after what happened since. -/
def rebaseOperation (c : Captured Operation) (h : History) : Except Fault (Option Operation) :=
  c.rebaseBy (fun mine op => mine.transform op .left) h

/-- The offset in the text of another history. -/
def rebaseOffset (c : Captured Nat) (h : History) : Except Fault (Option Nat) :=
  c.rebaseBy (fun offset op => op.mapOffset offset .left) h

/-- The span in the text of another history; the side is for an empty span. -/
def rebaseSpan (c : Captured Span) (h : History) (side : Side) : Except Fault (Option Span) :=
  c.rebaseBy (fun span op => span.transform op side) h

/-- The intervals in the text of another history. -/
def rebaseIntervals {κ ν : Type} (c : Captured (IntervalSet κ ν)) (h : History) :
    Except Fault (Option (IntervalSet κ ν)) :=
  c.rebaseBy IntervalSet.edit h

/-- The caret in the text of another history. -/
def rebaseCaret (c : Captured Caret) (h : History) : Except Fault (Option Caret) :=
  c.rebaseBy (fun caret op => caret.transform op .left) h

/-- The rebased value; it is a fault if there is none. -/
def require : Except Fault (Option α) → Except Fault α
  | .ok (some a) => .ok a
  | .ok none => .error .cannotRebase
  | .error f => .error f

/-- The operation rebased and captured again for the other history. -/
def update (c : Captured Operation) (h : History) : Except Fault (Option (Captured Operation)) := do
  let rebased ← c.rebaseOperation h
  .ok (rebased.map fun op => ⟨op, h⟩)

end Captured

end Coedit
