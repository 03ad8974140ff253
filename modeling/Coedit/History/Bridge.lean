import Coedit.History.Basic
import Coedit.Operation.Compose
import Coedit.Operation.Normal

/-!
# Bridging two histories

Two histories of one document, perhaps from different copies of it and trimmed differently, agree
up to some entry and part after it. Their *bridge* leads from the text at the end of the first to
the text at the end of the second: it undoes what the first did after the newest common entry and
then does what the second did after it.

The common entry is found by ids, from the newest entries back. Reaching evicted entries on the way
is a refusal, and so is a history without entries where anything has been evicted, because then
there is nothing to compare.
-/

namespace Coedit.History

/-- Walks back over the first `i` entries of one history and the first `j` of another, always in
the one that is further ahead, until their last entries are the same. Gives the two counts there,
or zero for both if the walk reaches a start. -/
def meetingPoint (before after : History) : (i j : Nat) → Except LookupError (Nat × Nat)
  | 0, _ => .ok (0, 0)
  | _ + 1, 0 => .ok (0, 0)
  | i + 1, j + 1 => do
    let mine ← before.idAt i
    let theirs ← after.idAt j
    if mine = theirs then .ok (i + 1, j + 1)
    else if i < j then meetingPoint before after (i + 1) j
    else meetingPoint before after i (j + 1)
termination_by i j => i + j

/-- The timestamps after which two histories part. -/
def parting (before after : History) : Except BridgeError (Nat × Nat) :=
  if before.isEmpty ∨ after.isEmpty then
    if before.hasEvicted ∨ after.hasEvicted then .error .emptyTrimmed else .ok (0, 0)
  else match meetingPoint before after before.timestamp after.timestamp with
    | .ok point => .ok point
    | .error reason => .error (.lookup reason)

/-- The composition of the operations from a timestamp on. -/
def changeSince (h : History) (timestamp : Nat) : Except (Failure BridgeError) Operation := do
  let ops ← Failure.mapRefusal .lookup (h.between timestamp h.timestamp)
  Failure.ofFault (Operation.composeAll ops)

/-- The operation that leads from the end of one history to the end of another. -/
def bridge (before after : History) : Except (Failure BridgeError) Operation := do
  let (i, j) ← Failure.ofRefusal (parting before after)
  let done ← before.changeSince i
  let missing ← after.changeSince j
  let op ← Failure.ofFault (done.inverse.compose missing)
  .ok op.normalize

/-- The bridge, or `none` if the histories cannot be bridged. -/
def bridge? (before after : History) : Except Fault (Option Operation) :=
  match bridge before after with
  | .ok op => .ok (some op)
  | .error (.refused _) => .ok none
  | .error (.fault f) => .error f

/-- The bridge; it is a fault if the histories cannot be bridged. -/
def requireBridge (before after : History) : Except Fault Operation :=
  match bridge before after with
  | .ok op => .ok op
  | .error (.refused reason) => .error (.cannotBridge reason)
  | .error (.fault f) => .error f

end Coedit.History
