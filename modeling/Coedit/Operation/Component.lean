import Coedit.Text

/-!
# Components of an operation

An operation walks over a text from left to right, one component at a time. A component either
keeps a run of characters or replaces one text by another. `inputLength` and `outputLength` count
the characters that a list of components consumes and produces.
-/

namespace Coedit

/-- One step of an operation. -/
inductive Component where
  /-- Keep the next `count` characters. -/
  | retain (count : Nat)
  /-- Remove the text `delete`, which comes next, and put `insert` in its place. -/
  | replace (delete insert : Text)
  deriving DecidableEq, Repr

namespace Component

/-- The number of characters that the component consumes. -/
def lenBefore : Component → Nat
  | retain n => n
  | replace d _ => d.length

/-- The number of characters that the component produces. -/
def lenAfter : Component → Nat
  | retain n => n
  | replace _ i => i.length

/-- The component that undoes this one. -/
def inverse : Component → Component
  | retain n => retain n
  | replace d i => replace i d

/-- Does the component keep its characters without a replacement? -/
def isRetain : Component → Bool
  | retain _ => true
  | replace _ _ => false

/-- Does the component produce the text that it consumes? -/
def isIdentity : Component → Bool
  | retain _ => true
  | replace d i => d == i

@[simp] theorem lenBefore_inverse (c : Component) : c.inverse.lenBefore = c.lenAfter := by
  cases c <;> rfl

@[simp] theorem lenAfter_inverse (c : Component) : c.inverse.lenAfter = c.lenBefore := by
  cases c <;> rfl

end Component

/-- The sum of a measure over a list. -/
def total {α : Type} (f : α → Nat) (as : List α) : Nat := as.foldr (fun a n => f a + n) 0

section Total

variable {α : Type} (f : α → Nat)

@[simp] theorem total_nil : total f [] = 0 := rfl

@[simp] theorem total_cons (a : α) (as : List α) : total f (a :: as) = f a + total f as := rfl

theorem total_append (as bs : List α) : total f (as ++ bs) = total f as + total f bs := by
  induction as with
  | nil => rw [List.nil_append, total_nil, Nat.zero_add]
  | cons a as ih => rw [List.cons_append, total_cons, total_cons, ih, Nat.add_assoc]

end Total

/-- The number of characters that the components consume. -/
def inputLength (cs : List Component) : Nat := total Component.lenBefore cs

/-- The number of characters that the components produce. -/
def outputLength (cs : List Component) : Nat := total Component.lenAfter cs

@[simp] theorem inputLength_nil : inputLength [] = 0 := rfl

@[simp] theorem outputLength_nil : outputLength [] = 0 := rfl

@[simp] theorem inputLength_cons (c : Component) (cs : List Component) :
    inputLength (c :: cs) = c.lenBefore + inputLength cs := rfl

@[simp] theorem outputLength_cons (c : Component) (cs : List Component) :
    outputLength (c :: cs) = c.lenAfter + outputLength cs := rfl

theorem inputLength_map_inverse (cs : List Component) :
    inputLength (cs.map Component.inverse) = outputLength cs := by
  induction cs with
  | nil => rfl
  | cons c cs ih => rw [List.map_cons, inputLength_cons, outputLength_cons, ih,
      Component.lenBefore_inverse]

theorem outputLength_map_inverse (cs : List Component) :
    outputLength (cs.map Component.inverse) = inputLength cs := by
  induction cs with
  | nil => rfl
  | cons c cs ih => rw [List.map_cons, inputLength_cons, outputLength_cons, ih,
      Component.lenAfter_inverse]

end Coedit
