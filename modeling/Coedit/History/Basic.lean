import Coedit.Operation.Basic
import Coedit.TrieVec.Search

/-!
# Histories

A history is a sequence of identified operations, each of which starts from the text that the one
before it ends with. Its timestamp counts the entries that were ever recorded; the entry recorded
when the timestamp was `t` has timestamp `t`. The oldest entries can be evicted, which does not
change the timestamp: a history with `n` entries retains those from `timestamp - n` on. Looking up
an evicted entry is refused, it never gives another one.

The operations and their ids are kept in two vectors, in the same order, and every call has to treat
both alike. Timestamps are translated to places in the vectors by `placeAt`.

A history is a value. Recording and cutting back give new histories that share storage with the
old one.
-/

namespace Coedit

/-- A recorded operation. -/
structure Entry where
  id : EditId
  operation : Operation
  deriving DecidableEq, Repr

/-- The retained part of a sequence of operations. -/
structure History where
  /-- The retained operations, oldest first. -/
  operationColumn : TrieVec Operation
  /-- The ids of the retained operations, in the same order. -/
  idColumn : TrieVec EditId
  /-- The number of entries ever recorded. -/
  timestamp : Nat
  /-- What the retained operations weigh together. -/
  weight : Nat

namespace History

/-- Histories are compared by their retained operations and ids, their timestamp and their
weight. -/
instance : BEq History where
  beq a b := a.operationColumn == b.operationColumn && a.idColumn == b.idColumn &&
    a.timestamp == b.timestamp && a.weight == b.weight

/-- The history in which nothing has been recorded. -/
def empty : History := ⟨.empty, .empty, 0, 0⟩

/-- The number of retained entries. -/
def length (h : History) : Nat := h.operationColumn.length

def isEmpty (h : History) : Bool := h.operationColumn.isEmpty

/-- Have entries been evicted? -/
def hasEvicted (h : History) : Bool := h.length < h.timestamp

/-- The timestamp of the oldest retained entry. -/
def oldestTimestamp (h : History) : Nat := h.timestamp - h.length

/-- The place of the entry with the given timestamp, counted from the oldest retained one. It is
negative if the entry has been evicted. -/
def placeAt (h : History) (timestamp : Nat) : Int :=
  (h.length : Int) - ((h.timestamp - timestamp : Nat) : Int)

/-- The id of the newest entry. -/
def newest? (h : History) : Option EditId := h.idColumn.last?

/-- The ids of the retained entries, oldest first. -/
def ids (h : History) : List EditId := h.idColumn.toList

/-- The retained operations, oldest first. -/
def operations (h : History) : List Operation := h.operationColumn.toList

/-- The newest retained operation that is not empty. -/
def lastChange? (h : History) : Option Operation := do
  let i ← h.operationColumn.lastIndex? fun op => !op.isEmpty
  h.operationColumn.get? i

/-- The history with one more entry, whatever its operation. -/
def push (h : History) (entry : Entry) : Except Fault History := do
  let weight ← Word.add h.weight entry.operation.size
  .ok {
    operationColumn := h.operationColumn.push entry.operation
    idColumn := h.idColumn.push entry.id
    timestamp := h.timestamp + 1
    weight := weight }

/-- The history with one more entry. Its operation has to start where the newest retained change
ends. An empty operation fits anywhere. -/
def record (h : History) (id : EditId) (op : Operation) : Except Fault History :=
  match if op.isEmpty then none else h.lastChange? with
  | none => h.push ⟨id, op⟩
  | some last =>
    if last.lenAfter = op.lenBefore then h.push ⟨id, op⟩
    else .error (.entryDoesNotFollow id last.lenAfter op.lenBefore)

/-- The history as it was when its retained entries were the first `count` of those it has now. -/
def cutBack (h : History) (count : Nat) : History :=
  if count = h.length then h
  else
    { operationColumn := h.operationColumn.take count
      idColumn := h.idColumn.take count
      timestamp := h.timestamp - (h.length - count)
      weight := h.weight - total Operation.size (h.operationColumn.drop count).toList }

/-- The history as it was at a timestamp. A timestamp in the future is a fault, and one from which
entries have been evicted is refused. -/
def rewind (h : History) (timestamp : Nat) : Except (Failure LookupError) History :=
  if h.timestamp < timestamp then .error (.fault (.aheadOfHistory timestamp h.timestamp))
  else match h.placeAt timestamp with
    | .negSucc _ => .error (.refused (.trimmed timestamp))
    | .ofNat count => .ok (h.cutBack count)

/-- The place among the retained entries of the newest one with the given id. -/
def position (h : History) (id : EditId) : Except LookupError Nat :=
  match h.idColumn.lastIndex? fun other => other == id with
  | some i => .ok i
  | none => .error .notRetained

/-- The history as it was just after an edit; without an edit, the empty history. -/
def rewindTo (h : History) : Option EditId → Except LookupError History
  | none => .ok empty
  | some id => do
    let i ← h.position id
    .ok (h.cutBack (i + 1))

/-- The operations recorded after an edit; without an edit, all retained ones. -/
def since (h : History) : Option EditId → Except (Failure LookupError) (List Operation)
  | none => .ok h.operations
  | some id => do
    let i ← Failure.ofRefusal (h.position id)
    let later ← Failure.ofFault (h.operationColumn.slice (i + 1) h.length)
    .ok later.toList

/-- The operations with timestamps from `start` up to `stop`. Timestamps out of order or in the
future are a fault, and evicted operations are refused. -/
def between (h : History) (start stop : Nat) : Except (Failure LookupError) (List Operation) :=
  if ¬ (start ≤ stop ∧ stop ≤ h.timestamp) then
    .error (.fault (.sliceOutsideHistory start stop h.timestamp))
  else match h.placeAt start with
    | .negSucc _ => .error (.refused (.trimmed start))
    | .ofNat first => do
      let range ← Failure.ofFault (h.operationColumn.slice first (h.placeAt stop).toNat)
      .ok range.toList

/-- The id of the entry with the given timestamp. -/
def idAt (h : History) (timestamp : Nat) : Except LookupError EditId :=
  if h.timestamp ≤ timestamp then .error (.notYet timestamp h.timestamp)
  else match h.placeAt timestamp with
    | .negSucc _ => .error (.trimmed timestamp)
    | .ofNat i =>
      match h.idColumn.get? i with
      | some id => .ok id
      | none => .error (.trimmed timestamp)

end History

end Coedit
