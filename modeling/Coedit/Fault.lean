import Coedit.EditId
import Coedit.Text.Quoted

/-!
# What can go wrong

Failures come in two kinds.

A *refusal* is an outcome that a caller has to expect: the history no longer holds what was asked
for (`LookupError`), or two histories have nothing to compare (`BridgeError`).

A *fault* is a broken contract: an operation applied to a text it was not made for, a slice out of
bounds, a length beyond 64 bits. `Fault` has one case per cause, and `Fault.message` holds the
wording of all of them.

A function that can end either way returns `Except (Failure ε) α`, with `ε` the type of its
refusals.
-/

namespace Coedit

/-- The arithmetic operations that are checked against the 64-bit range. -/
inductive Arithmetic where
  | add
  | subtract
  deriving DecidableEq, Repr

/-- Why an entry could not be looked up in a history. -/
inductive LookupError where
  /-- No retained entry has the id. -/
  | notRetained
  /-- The entry at this timestamp has been evicted. -/
  | trimmed (timestamp : Nat)
  /-- The history has not reached this timestamp. -/
  | notYet (timestamp current : Nat)
  deriving DecidableEq, Repr

/-- Why two histories could not be bridged. -/
inductive BridgeError where
  /-- An entry that the comparison needs could not be looked up. -/
  | lookup (reason : LookupError)
  /-- One history retains nothing, and one has evicted entries. -/
  | emptyTrimmed
  deriving DecidableEq, Repr

/-- A broken contract. -/
inductive Fault where
  /-- A result lies outside the 64-bit range. -/
  | overflow (operation : Arithmetic)
  /-- A text would have `2 ^ 63` characters or more. -/
  | textTooLong
  /-- A replacement does not fit into the document it is made for. -/
  | replaceOverruns (offset count length : Nat)
  /-- The text at `offset` is not the text that the operation deletes. -/
  | deletedTextDiffers (expected : Text) (offset : Nat) (found : Text)
  /-- The text does not have the length that the operation expects. -/
  | lengthDiffers (expected : Nat)
  /-- The second operation does not start where the first one ends. -/
  | cannotCompose (produced expected : Nat)
  /-- Two concurrent operations start from different lengths. -/
  | cannotTransform (mine theirs : Nat)
  /-- A span starts after its end. -/
  | spanReversed (start stop : Nat)
  /-- An interval starts after its end. -/
  | intervalReversed (start stop : Nat)
  /-- A slice of a vector leaves the vector. -/
  | sliceOutOfBounds (start stop length : Nat)
  /-- A slice of a history is reversed or ends in the future. -/
  | sliceOutsideHistory (start stop current : Nat)
  /-- A timestamp lies in the future of a history. -/
  | aheadOfHistory (timestamp current : Nat)
  /-- An entry does not start where the history ends. -/
  | entryDoesNotFollow (id : EditId) (current expected : Nat)
  /-- Histories that had to be bridged could not be. -/
  | cannotBridge (reason : BridgeError)
  /-- A map of offsets has no value somewhere, for a reason of its own. -/
  | targetFailed (reason : String)
  /-- A captured value that had to be rebased could not be. -/
  | cannotRebase
  /-- A replacement on a tape leaves the tape. -/
  | tapeOverrun
  /-- A marker lies past the end of a tape. -/
  | markerPastEnd (length offset : Nat)
  /-- A tape has no such version. -/
  | noSuchVersion (count index : Nat)
  deriving DecidableEq, Repr

/-- An expected refusal, or a fault. -/
inductive Failure (ε : Type) where
  | refused (reason : ε)
  | fault (fault : Fault)
  deriving DecidableEq, Repr

namespace Failure

/-- A computation that can only fail by a fault, where refusals are possible too. -/
def ofFault {ε α : Type} : Except Fault α → Except (Failure ε) α
  | .ok a => .ok a
  | .error f => .error (.fault f)

/-- A computation that can only be refused, where faults are possible too. -/
def ofRefusal {ε α : Type} : Except ε α → Except (Failure ε) α
  | .ok a => .ok a
  | .error e => .error (.refused e)

/-- The same failure with its refusal renamed. -/
def mapRefusal {ε δ α : Type} (f : ε → δ) : Except (Failure ε) α → Except (Failure δ) α
  | .ok a => .ok a
  | .error (.refused e) => .error (.refused (f e))
  | .error (.fault g) => .error (.fault g)

end Failure

namespace LookupError

def message : LookupError → String
  | notRetained => "edit id is not among the retained entries"
  | trimmed timestamp => s!"timestamp {timestamp} refers to trimmed history"
  | notYet timestamp current =>
    s!"timestamp {timestamp} is not before log timestamp {current}"

end LookupError

namespace BridgeError

def message : BridgeError → String
  | lookup reason => "edit lookup failed: " ++ reason.message
  | emptyTrimmed => "an empty log has trimmed history, nothing to compare against"

end BridgeError

namespace Arithmetic

/-- The verb that names the operation in a message. -/
def verb : Arithmetic → String
  | add => "add"
  | subtract => "subtract"

end Arithmetic

namespace Fault

/-- The wording of a failed comparison: what was expected to hold, then both values. -/
def unequal (what : String) (left right : Nat) : String :=
  s!"assertion `left == right` failed: {what}\n  left: {left}\n right: {right}"

def message : Fault → String
  | overflow operation => "attempt to " ++ operation.verb ++ " with overflow"
  | textTooLong => "capacity overflow"
  | replaceOverruns offset count length =>
    s!"replace at {offset} of {count} chars overruns document of {length} chars"
  | deletedTextDiffers expected offset found =>
    "operation deletes " ++ expected.quoted ++ s!" at {offset}, text has " ++ found.quoted
  | lengthDiffers expected =>
    s!"operation expects {expected} chars, text has a different length"
  | cannotCompose produced expected =>
    unequal s!"cannot compose: first produces {produced} chars, second expects {expected}"
      produced expected
  | cannotTransform mine theirs =>
    unequal s!"cannot transform: operations expect {mine} and {theirs} chars" mine theirs
  | spanReversed start stop => s!"range start {start} is after end {stop}"
  | intervalReversed start stop => s!"interval start {start} is after end {stop}"
  | sliceOutOfBounds start stop length =>
    s!"slice {start}..{stop} out of bounds for length {length}"
  | sliceOutsideHistory start stop current =>
    s!"slice {start}..{stop} is outside log timestamp {current}"
  | aheadOfHistory timestamp current =>
    s!"timestamp {timestamp} is ahead of log timestamp {current}"
  | entryDoesNotFollow id current expected =>
    unequal
      ("operation " ++ id.hyphenated ++
        s!" expects {expected} chars but the log ends at {current}")
      current expected
  | cannotBridge reason => "cannot bridge edit logs: " ++ reason.message
  | targetFailed reason => reason
  | cannotRebase => "captured value cannot be rebased onto this document"
  | tapeOverrun => "replace out of bounds"
  | markerPastEnd length offset => unequal "offset past end of text" length offset
  | noSuchVersion count index =>
    s!"index out of bounds: the len is {count} but the index is {index}"

end Fault

end Coedit
