import Coedit.Operation.Component
import Coedit.Word

/-!
# Operations

An operation is a list of components whose two lengths, what it consumes and what it produces, are
64-bit words. The bounds are part of the type: `Operation.ofComponents` is the only way from raw
components to an operation, and it is a fault if a length leaves the range.

Components are kept as they are given: empty components and unmerged neighbours stay, and two
operations are equal when their components are. The operation without components stands apart: it
is the identity on every text, whatever its length.
-/

namespace Coedit

/-- A change to a text: components whose lengths fit into 64 bits. -/
structure Operation where
  components : List Component
  inputLength_lt : inputLength components < Word.bound
  outputLength_lt : outputLength components < Word.bound
  deriving DecidableEq, Repr

namespace Operation

/-- The operation with these components, if both of its lengths are words. -/
def ofComponents (cs : List Component) : Except Fault Operation :=
  if h : inputLength cs < Word.bound ∧ outputLength cs < Word.bound then .ok ⟨cs, h.1, h.2⟩
  else .error (.overflow .add)

/-- The operation without components, the identity on every text. -/
def empty : Operation := ⟨[], by decide, by decide⟩

/-- The length of the texts that the operation applies to. -/
def lenBefore (op : Operation) : Nat := inputLength op.components

/-- The length of the texts that the operation produces. -/
def lenAfter (op : Operation) : Nat := outputLength op.components

/-- What the operation weighs in a history: the longer of its two lengths. -/
def size (op : Operation) : Nat := max op.lenBefore op.lenAfter

/-- Has the operation no components? -/
def isEmpty (op : Operation) : Bool := op.components.isEmpty

/-- Does the operation leave every text it applies to as it is? -/
def isIdentity (op : Operation) : Bool := op.components.all Component.isIdentity

/-- The operation that undoes this one. -/
def inverse (op : Operation) : Operation where
  components := op.components.map Component.inverse
  inputLength_lt := by rw [inputLength_map_inverse]; exact op.outputLength_lt
  outputLength_lt := by rw [outputLength_map_inverse]; exact op.inputLength_lt

@[ext] theorem ext {a b : Operation} (h : a.components = b.components) : a = b := by
  cases a; cases b; cases h; rfl

theorem lenBefore_lt (op : Operation) : op.lenBefore < Word.bound := op.inputLength_lt

theorem lenAfter_lt (op : Operation) : op.lenAfter < Word.bound := op.outputLength_lt

@[simp] theorem lenBefore_inverse (op : Operation) : op.inverse.lenBefore = op.lenAfter :=
  inputLength_map_inverse op.components

@[simp] theorem lenAfter_inverse (op : Operation) : op.inverse.lenAfter = op.lenBefore :=
  outputLength_map_inverse op.components

/-- Forming an operation keeps the components as they are. -/
theorem components_of_ofComponents {cs : List Component} {op : Operation}
    (h : ofComponents cs = .ok op) : op.components = cs := by
  unfold ofComponents at h
  split at h
  · cases h; rfl
  · cases h

end Operation

end Coedit
