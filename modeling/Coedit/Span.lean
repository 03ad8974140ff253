import Coedit.Operation.Offset

/-!
# Spans

A span is a stretch of a text, given by the offsets of its two ends. Spans made by `between` have
their ends in order; a span that comes from elsewhere need not, and then it has no length.

A span that is not empty never grows under an operation: text inserted at either end stays outside.
-/

namespace Coedit

/-- A stretch of a text. -/
structure Span where
  start : Nat
  stop : Nat
  deriving DecidableEq, Repr

namespace Span

/-- The span from `start` to `stop`; it is a fault if they are out of order. -/
def between (start stop : Nat) : Except Fault Span :=
  if start ≤ stop then .ok ⟨start, stop⟩ else .error (.spanReversed start stop)

/-- The empty span at `offset`. -/
def point (offset : Nat) : Span := ⟨offset, offset⟩

/-- The number of characters in the span. -/
def length (s : Span) : Except Fault Nat := Word.sub s.stop s.start

def isEmpty (s : Span) : Bool := s.start == s.stop

/-- The span after an operation. An empty span moves as an offset with the given side. Otherwise
the ends move inwards, and ends that cross collapse to the point at the end. -/
def transform (s : Span) (op : Operation) (side : Side) : Except Fault Span :=
  if s.isEmpty then do
    let offset ← op.mapOffset s.start side
    .ok (point offset)
  else do
    let start ← op.mapOffset s.start .right
    let stop ← op.mapOffset s.stop .left
    .ok (if stop < start then point stop else ⟨start, stop⟩)

end Span

end Coedit
