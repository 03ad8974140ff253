import Coedit.Captured
import Coedit.History.Trim
import Coedit.Operation.Apply
import Coedit.Operation.Making

/-!
# Documents

A document is a text, the history that led to it, and the policy by which that history is trimmed.
An edit applies an operation to the text and records it. Both happen or neither does: a fault leaves
no new document.

Ids for new entries are given by the caller.
-/

namespace Coedit

/-- A text with its history. -/
structure Document where
  text : Text
  history : History
  retention : Retention

namespace Document

/-- Documents are compared by text, history and policy. -/
instance : BEq Document where
  beq a b := a.text == b.text && a.history == b.history && a.retention == b.retention

/-- The document without text or history. -/
def empty : Document := ⟨[], .empty, .standard⟩

/-- The document after an operation, recorded under an id. -/
def edit (d : Document) (id : EditId) (op : Operation) : Except Fault Document := do
  let text ← op.apply d.text
  let history ← d.history.record id op
  .ok { d with text := text, history := history.trim d.retention }

/-- The document whose first entry inserts a text. -/
def ofText (id : EditId) (text : Text) : Except Fault Document := do
  let op ← Operation.insert 0 text 0
  empty.edit id op

/-- The document under another policy, trimmed to it at once. -/
def withRetention (d : Document) (policy : Retention) : Document :=
  { d with history := d.history.trim policy, retention := policy }

/-- The document with another text, by one replacement. If the text is the same, nothing is
recorded. -/
def withText (d : Document) (id : EditId) (text : Text) : Except Fault Document := do
  let op ← Operation.difference d.text text
  let op := op.normalize
  if op.isEmpty then .ok d else d.edit id op

/-- The document after a captured operation, rebased onto it, or `none` if that is not possible. -/
def applyCaptured (d : Document) (id : EditId) (c : Captured Operation) :
    Except Fault (Option Document) := do
  match ← c.rebaseOperation d.history with
  | none => .ok none
  | some op => do
    let next ← d.edit id op
    .ok (some next)

end Document

end Coedit
