/-!
# Wide tries

A trie of height `0` is an array of items, and a trie of height `h + 1` is an array of tries of
height `h`. No array holds more than `width` elements, so a trie of height `h` has room for
`capacity h` items, and the way to an item is read off its index digit by digit in base `width`.

Tries are filled from the left: every child but the last is full, and no child is empty
(`Dense`). The meaning of a trie is the list of its items, `toList`. For dense tries each operation
does to that list what its name says, and keeps the trie dense (`Coedit.Trie.Lemmas`).
-/

universe u

namespace Coedit

/-- A trie of the given height over items of type `α`. -/
def Trie (α : Type u) : Nat → Type u
  | 0 => Array α
  | h + 1 => Array (Trie α h)

namespace Trie

variable {α : Type u}

/-- The most elements that one array holds. -/
def width : Nat := 32

/-- The most items that a trie of height `h` holds. -/
def capacity : (h : Nat) → Nat
  | 0 => width
  | h + 1 => width * capacity h

/-- The array that a trie of height `0` is. -/
@[inline] def items (t : Trie α 0) : Array α := t

/-- The array that a trie of any other height is. -/
@[inline] def children {h : Nat} (t : Trie α (h + 1)) : Array (Trie α h) := t

/-- The trie of height `0` that an array is. -/
@[inline] def leaf (items : Array α) : Trie α 0 := items

/-- The trie that an array of tries is. -/
@[inline] def node {h : Nat} (children : Array (Trie α h)) : Trie α (h + 1) := children

@[simp] theorem items_leaf (items : Array α) : (leaf items).items = items := rfl

@[simp] theorem children_node {h : Nat} (children : Array (Trie α h)) :
    (node children).children = children := rfl

/-- The items of a trie, from left to right. -/
def toList : {h : Nat} → Trie α h → List α
  | 0, t => t.items.toList
  | _ + 1, t => t.children.toList.flatMap toList

/-- The trie without items. -/
def empty : Trie α 0 := leaf #[]

/-- The trie with one item. -/
def single : (h : Nat) → α → Trie α h
  | 0, a => leaf #[a]
  | h + 1, a => node #[single h a]

/-- The item at an index. -/
def get? : {h : Nat} → Trie α h → Nat → Option α
  | 0, t, i => t.items[i]?
  | h + 1, t, i => do
    let child ← t.children[i / capacity h]?
    child.get? (i % capacity h)

/-- The trie with another item at an index. -/
def set : {h : Nat} → Trie α h → Nat → α → Trie α h
  | 0, t, i, a => leaf (t.items.setIfInBounds i a)
  | h + 1, t, i, a =>
    node (t.children.modify (i / capacity h) fun child => child.set (i % capacity h) a)

/-- The trie with one more item behind its `count` items. -/
def push : {h : Nat} → Trie α h → (count : Nat) → α → Trie α h
  | 0, t, _, a => leaf (t.items.push a)
  | h + 1, t, count, a =>
    if count / capacity h < t.children.size then
      node (t.children.modify (count / capacity h) fun child => child.push (count % capacity h) a)
    else
      node (t.children.push (single h a))

/-- The trie one level higher, with a full trie as its first child and one more item. -/
def grow {h : Nat} (t : Trie α h) (a : α) : Trie α (h + 1) := node #[t, single h a]

/-- A trie is dense if it is filled from the left: no array is too long, no child is empty, and
every child but the last is full. -/
def Dense : {h : Nat} → Trie α h → Prop
  | 0, t => t.items.size ≤ width
  | h + 1, t =>
    t.children.size ≤ width ∧ (∀ child ∈ t.children.toList, child.Dense ∧ child.toList ≠ []) ∧
      ∀ child ∈ t.children.toList.dropLast, child.toList.length = capacity h

theorem capacity_zero : capacity 0 = width := rfl

theorem capacity_succ (h : Nat) : capacity (h + 1) = width * capacity h := rfl

theorem capacity_pos : ∀ h : Nat, 0 < capacity h
  | 0 => by decide
  | h + 1 => Nat.mul_pos (by decide) (capacity_pos h)

end Trie

end Coedit
