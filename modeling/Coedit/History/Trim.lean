import Coedit.History.Basic
import Coedit.History.Retention

/-!
# Trimming a history

Trimming evicts the oldest entries, one at a time, until the rest is within the bounds of a
retention policy. The timestamp stays.
-/

namespace Coedit.History

/-- What the entry at an index of the retained entries weighs. -/
def weightAt (h : History) (i : Nat) : Nat :=
  ((h.operationColumn.get? i).map Operation.size).getD 0

/-- Of the newest `count` entries, which together weigh `weight`, the number that stay within the
bounds, and their weight. -/
def withinBounds (h : History) (policy : Retention) : (count weight : Nat) → Nat × Nat
  | 0, weight => (0, weight)
  | count + 1, weight =>
    if count + 1 ≤ policy.maxEntries ∧ weight ≤ policy.maxWeight then (count + 1, weight)
    else h.withinBounds policy count (weight - h.weightAt (h.length - (count + 1)))

/-- The history without the entries that exceed the bounds. -/
def trim (h : History) (policy : Retention) : History :=
  let (count, weight) := h.withinBounds policy h.length h.weight
  if count = h.length then h
  else
    { h with
      operationColumn := h.operationColumn.drop (h.length - count)
      idColumn := h.idColumn.drop (h.length - count)
      weight := weight }

end Coedit.History
