import Coedit.Trie.Lemmas

/-!
# Finding the way in a trie by bits

The way to an item is read off its index. `Trie.get?` and its companions take quotients and
remainders by capacities. On a machine one cuts the digit for a level out of the whole index
instead, by a shift and a mask, and then trusts that the array of that level has such an element.

This file has the three operations in that form, with every access checked (`getByDigits?`,
`setByDigits?`, `pushByDigits?`), and proves that the trust is justified. A dense trie is never
asked for an element that one of its arrays does not have, and the operations do what their
companions do:

> `getByDigits?_eq`: the digits of `i` lead to the item at the index `i % capacity h`.
> `setByDigits?_eq`: they lead to every item that there is.
> `pushByDigits?_eq`: and to the place behind the last one.
-/

universe u

namespace Coedit.Trie

variable {α : Type u}

/-- The digit of an index for a level, cut out of it by a shift and a mask. -/
def digit (level i : Nat) : Nat := (i >>> (5 * level)) &&& 31

/-- The item that the digits of an index lead to, or `none` if an array does not reach that far. -/
def getByDigits? : {h : Nat} → Trie α h → Nat → Option α
  | 0, t, i => t.items[digit 0 i]?
  | h + 1, t, i => do
    let child ← t.children[digit (h + 1) i]?
    child.getByDigits? i

/-- The trie with another item where the digits of an index lead, or `none` if an array does not
reach that far. -/
def setByDigits? : {h : Nat} → Trie α h → Nat → α → Option (Trie α h)
  | 0, t, i, a =>
    if digit 0 i < t.items.size then some (leaf (t.items.setIfInBounds (digit 0 i) a)) else none
  | h + 1, t, i, a => do
    let child ← t.children[digit (h + 1) i]?
    let changed ← child.setByDigits? i a
    some (node (t.children.setIfInBounds (digit (h + 1) i) changed))

/-- The trie with one more item, in the last child that the digits of `count` lead to or in a new
one. -/
def pushByDigits? : {h : Nat} → Trie α h → (count : Nat) → α → Option (Trie α h)
  | 0, t, _, a => some (leaf (t.items.push a))
  | h + 1, t, count, a =>
    if digit (h + 1) count < t.children.size then do
      let child ← t.children[digit (h + 1) count]?
      let longer ← child.pushByDigits? count a
      some (node (t.children.setIfInBounds (digit (h + 1) count) longer))
    else
      some (node (t.children.push (single h a)))

/-! ## Digits -/

theorem shiftRight_eq_div_capacity (i h : Nat) : i >>> (5 * (h + 1)) = i / capacity h := by
  induction h with
  | zero => exact Nat.shiftRight_eq_div_pow i 5
  | succ h ih =>
    rw [Nat.mul_succ, Nat.shiftRight_add, ih, Nat.shiftRight_eq_div_pow, Nat.div_div_eq_div_mul,
      capacity_succ, Nat.mul_comm (capacity h)]
    rfl

theorem digit_zero (i : Nat) : digit 0 i = i % capacity 0 := Nat.and_two_pow_sub_one_eq_mod i 5

/-- The digit that chooses a child is the quotient that `get?` takes of the index in the trie. -/
theorem digit_succ (h i : Nat) : digit (h + 1) i = i % capacity (h + 1) / capacity h := by
  rw [digit, shiftRight_eq_div_capacity, capacity_succ, Nat.mul_comm, Nat.mod_mul_right_div_self]
  exact Nat.and_two_pow_sub_one_eq_mod (i / capacity h) 5

/-- Within the child it does not matter which child it is. -/
theorem mod_capacity_succ_mod (h i : Nat) :
    i % capacity (h + 1) % capacity h = i % capacity h := by
  rw [capacity_succ]
  exact Nat.mod_mul_left_mod i width (capacity h)

/-! ## What the digits lead to -/

theorem getByDigits?_eq : ∀ {h : Nat} (t : Trie α h) (i : Nat),
    t.getByDigits? i = t.get? (i % capacity h)
  | 0, t, i => by rw [getByDigits?, get?, digit_zero]
  | h + 1, t, i => by
    rw [getByDigits?, get?, digit_succ, mod_capacity_succ_mod]
    simp only [getByDigits?_eq]

/-- Changing one element of an array that has it. -/
theorem modify_eq_setIfInBounds {β : Type u} {as : Array β} {k : Nat} {b : β} (hb : as[k]? = some b)
    (f : β → β) : as.modify k f = as.setIfInBounds k (f b) := by
  apply Array.ext_getElem?
  intro j
  rw [Array.getElem?_modify, Array.getElem?_setIfInBounds]
  by_cases hj : k = j
  · obtain ⟨hk, rfl⟩ := Array.getElem?_eq_some_iff.mp hb
    subst hj
    simp [hk]
  · simp [hj]

theorem setByDigits?_mod : ∀ {h : Nat} {t : Trie α h} {i : Nat}, t.Dense →
    i % capacity h < t.toList.length → ∀ a, t.setByDigits? i a = some (t.set (i % capacity h) a)
  | 0, t, i, _, hi, a => by
    rw [toList_zero, Array.length_toList] at hi
    rw [setByDigits?, set, digit_zero, if_pos hi]
  | h + 1, t, i, hd, hi, a => by
    obtain ⟨_, hch, _⟩ := dense_succ.mp hd
    -- there is an item at the index, so there is a child on the way to it, and the item is in it
    have hget := get?_eq hd (i % capacity (h + 1))
    rw [List.getElem?_eq_getElem hi, get?, mod_capacity_succ_mod] at hget
    obtain ⟨child, hchild, hitem⟩ := Option.bind_eq_some_iff.mp hget
    have hdense := (hch child (Array.mem_toList_iff.mpr (Array.mem_of_getElem? hchild))).1
    rw [get?_eq hdense] at hitem
    have hrest := setByDigits?_mod hdense (List.getElem?_eq_some_iff.mp hitem).1 a
    rw [setByDigits?, set, digit_succ, mod_capacity_succ_mod, hchild,
      modify_eq_setIfInBounds hchild]
    simp [hrest]

/-- Every item can be reached by the digits of its index, to be replaced there. -/
theorem setByDigits?_eq {h : Nat} {t : Trie α h} (hd : t.Dense) {i : Nat}
    (hi : i < t.toList.length) (a : α) : t.setByDigits? i a = some (t.set i a) := by
  have hmod : i % capacity h = i :=
    Nat.mod_eq_of_lt (Nat.lt_of_lt_of_le hi (length_toList_le hd))
  have hset := @setByDigits?_mod α h t i hd (by rw [hmod]; exact hi) a
  rw [hmod] at hset
  exact hset

theorem pushByDigits?_mod : ∀ {h : Nat} (t : Trie α h) (count : Nat) (a : α),
    t.pushByDigits? count a = some (t.push (count % capacity h) a)
  | 0, t, count, a => rfl
  | h + 1, t, count, a => by
    rw [pushByDigits?, push, digit_succ, mod_capacity_succ_mod]
    split
    · next hslot =>
      have hchild := Array.getElem?_eq_getElem hslot
      rw [hchild, modify_eq_setIfInBounds hchild]
      simp [pushByDigits?_mod]
    · rfl

/-- As long as there is room, the digits of the number of items lead to the place behind them. -/
theorem pushByDigits?_eq {h : Nat} {count : Nat} (hroom : count < capacity h) (t : Trie α h)
    (a : α) : t.pushByDigits? count a = some (t.push count a) := by
  rw [pushByDigits?_mod, Nat.mod_eq_of_lt hroom]

end Coedit.Trie
