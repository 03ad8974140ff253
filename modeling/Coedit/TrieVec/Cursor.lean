import Coedit.TrieVec.Basic

/-!
# Walking over a vector from both ends

A cursor hands out the items of a vector one by one, from the front or from the back, until the two
ends meet. It always knows how many items are left.
-/

universe u

namespace Coedit

/-- A walk over the items of a vector from `front` up to `back`. -/
structure TrieVec.Cursor (α : Type u) where
  vector : TrieVec α
  front : Nat
  back : Nat

namespace TrieVec

variable {α : Type u}

/-- The walk over all items. -/
def cursor (v : TrieVec α) : Cursor α := ⟨v, 0, v.length⟩

namespace Cursor

/-- The number of items not handed out yet. -/
def remaining (c : Cursor α) : Nat := c.back - c.front

/-- The next item from the front, and the walk after it. -/
def next (c : Cursor α) : Option α × Cursor α :=
  if c.front < c.back then (c.vector.get? c.front, { c with front := c.front + 1 }) else (none, c)

/-- The next item from the back, and the walk after it. -/
def nextFromBack (c : Cursor α) : Option α × Cursor α :=
  if c.front < c.back then (c.vector.get? (c.back - 1), { c with back := c.back - 1 })
  else (none, c)

end Cursor

end TrieVec

end Coedit
