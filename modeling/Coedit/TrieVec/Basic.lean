import Coedit.Fault
import Coedit.Trie.Lemmas

/-!
# Vectors on tries

A `TrieVec` is a window onto a dense trie: `length` items from index `start` on. Old vectors stay
valid when new ones are made from them, and the two share most of their storage.

Slicing only moves the window, so items may stay behind in the trie on either side of it. An item
behind the end of the window is overwritten by the next `push`. Once at least half of the trie, and
at least one full array of it, lies in front of the window, slicing builds a new trie instead, so a
window that slides forward does not hold on to everything it has passed.

The meaning of a vector is the list of its items, `toList`. None of the above shows there:

> `toList_push`: `(v.push a).toList = v.toList ++ [a]`
> `toList_cut`: `(v.cut start stop h).toList = (v.toList.drop start).take (stop - start)`
> `get?_eq`: `v.get? i = v.toList[i]?`
-/

universe u

namespace Coedit

/-- A vector: a window onto a dense trie. -/
structure TrieVec (α : Type u) where
  height : Nat
  root : Trie α height
  /-- The number of items in the trie. -/
  stored : Nat
  /-- The index at which the window starts. -/
  start : Nat
  /-- The number of items in the window. -/
  length : Nat
  dense : root.Dense
  length_root : root.toList.length = stored
  window_le : start + length ≤ stored

namespace TrieVec

variable {α : Type u}

/-- The items of the vector. -/
def toList (v : TrieVec α) : List α := (v.root.toList.drop v.start).take v.length

/-- The vector without items. -/
def empty : TrieVec α where
  height := 0
  root := Trie.empty
  stored := 0
  start := 0
  length := 0
  dense := Trie.dense_empty
  length_root := rfl
  window_le := Nat.le_refl 0

def isEmpty (v : TrieVec α) : Bool := v.length == 0

/-- The item at an index of the window. -/
def get? (v : TrieVec α) (i : Nat) : Option α :=
  if i < v.length then v.root.get? (v.start + i) else none

def first? (v : TrieVec α) : Option α := v.get? 0

def last? (v : TrieVec α) : Option α := if v.isEmpty then none else v.get? (v.length - 1)

/-- The vector with one more item at the end: over an item that a slice left behind, in a free
place of the trie, or in a trie one level higher. -/
def push (v : TrieVec α) (a : α) : TrieVec α :=
  if hs : v.start + v.length < v.stored then
    { v with
      root := v.root.set (v.start + v.length) a
      length := v.length + 1
      dense := Trie.dense_set v.dense _ a
      length_root := by rw [Trie.toList_set v.dense, List.length_set]; exact v.length_root
      window_le := hs }
  else if hf : v.stored = Trie.capacity v.height then
    { height := v.height + 1
      root := v.root.grow a
      stored := v.stored + 1
      start := v.start
      length := v.length + 1
      dense := Trie.dense_grow v.dense (v.length_root.trans hf) a
      length_root := by
        rw [Trie.toList_grow, List.length_append, v.length_root, List.length_singleton]
      window_le := by have := v.window_le; omega }
  else
    have hroom : v.stored < Trie.capacity v.height :=
      Nat.lt_of_le_of_ne (v.length_root ▸ Trie.length_toList_le v.dense) hf
    { v with
      root := v.root.push v.stored a
      stored := v.stored + 1
      length := v.length + 1
      dense := Trie.dense_push v.dense v.length_root hroom a
      length_root := by
        rw [Trie.toList_push v.dense v.length_root hroom, List.length_append, v.length_root,
          List.length_singleton]
      window_le := by have := v.window_le; omega }

/-- The vector of the items of a list. -/
def ofList (as : List α) : TrieVec α := as.foldl push empty

/-- The items from `start` up to `stop`, which lie in the vector. -/
def cut (v : TrieVec α) (start stop : Nat) (h : start ≤ stop ∧ stop ≤ v.length) : TrieVec α :=
  if Trie.width ≤ v.start + start ∧ v.stored / 2 ≤ v.start + start then
    ofList ((List.range' start (stop - start)).filterMap v.get?)
  else
    { v with
      start := v.start + start
      length := stop - start
      window_le := by have := v.window_le; omega }

/-- The items from `start` up to `stop`; it is a fault if they are not in the vector. -/
def slice (v : TrieVec α) (start stop : Nat) : Except Fault (TrieVec α) :=
  if h : start ≤ stop ∧ stop ≤ v.length then .ok (v.cut start stop h)
  else .error (.sliceOutOfBounds start stop v.length)

/-- The first `n` items, or all if there are fewer. -/
def take (v : TrieVec α) (n : Nat) : TrieVec α :=
  v.cut 0 (min n v.length) ⟨Nat.zero_le _, Nat.min_le_right ..⟩

/-- The vector without its first `n` items. -/
def drop (v : TrieVec α) (n : Nat) : TrieVec α :=
  v.cut (min n v.length) v.length ⟨Nat.min_le_right .., Nat.le_refl _⟩

/-- The items between brackets, with a comma and a blank between two of them. -/
def render (write : α → String) (v : TrieVec α) : String :=
  "[" ++ ", ".intercalate (v.toList.map write) ++ "]"

/-- Vectors are compared by their items. -/
instance [BEq α] : BEq (TrieVec α) where
  beq v w := v.toList == w.toList

/-! ## The items of a vector -/

@[simp] theorem length_toList (v : TrieVec α) : v.toList.length = v.length := by
  have h := v.window_le
  rw [toList, List.length_take, List.length_drop, v.length_root]
  omega

@[simp] theorem toList_empty : (empty : TrieVec α).toList = [] := rfl

theorem isEmpty_iff (v : TrieVec α) : v.isEmpty ↔ v.toList = [] := by
  rw [isEmpty, beq_iff_eq, ← v.length_toList, List.length_eq_zero_iff]

theorem get?_eq (v : TrieVec α) (i : Nat) : v.get? i = v.toList[i]? := by
  rw [get?, toList, List.getElem?_take, List.getElem?_drop, Trie.get?_eq v.dense]

/-- A window that ends where the list ends takes in an item added to the list. -/
theorem take_drop_concat {l : List α} {start length : Nat} (h : start + length = l.length) (a : α) :
    ((l ++ [a]).drop start).take (length + 1) = (l.drop start).take length ++ [a] := by
  have hd : (l.drop start).length = length := by rw [List.length_drop]; omega
  rw [List.drop_append_of_le_length (by omega), List.take_of_length_le (by simp; omega),
    List.take_of_length_le (Nat.le_of_eq hd)]

/-- A window takes in the item that is written just behind it. -/
theorem take_drop_set {l : List α} {start length : Nat} (h : start + length < l.length) (a : α) :
    ((l.set (start + length) a).drop start).take (length + 1) =
      (l.drop start).take length ++ [a] := by
  have hd : length < (l.drop start).length := by rw [List.length_drop]; omega
  rw [List.drop_set, if_neg (by omega), Nat.add_sub_cancel_left, List.take_add_one,
    List.getElem?_set_self hd, List.take_set_of_le (Nat.le_refl _)]
  rfl

@[simp] theorem toList_push (v : TrieVec α) (a : α) : (v.push a).toList = v.toList ++ [a] := by
  have hw := v.window_le
  have hl := v.length_root
  unfold push
  split
  · next hs =>
    rw [toList, toList, Trie.toList_set v.dense]
    have hlt : v.start + v.length < v.root.toList.length := by omega
    exact take_drop_set hlt a
  · next hs =>
    have hend : v.start + v.length = v.root.toList.length := by omega
    split
    · rw [toList, toList, Trie.toList_grow]
      exact take_drop_concat hend a
    · next hf =>
      have hroom : v.stored < Trie.capacity v.height :=
        Nat.lt_of_le_of_ne (hl ▸ Trie.length_toList_le v.dense) hf
      rw [toList, toList, Trie.toList_push v.dense hl hroom]
      exact take_drop_concat hend a

theorem toList_foldl_push (as : List α) (v : TrieVec α) :
    (as.foldl push v).toList = v.toList ++ as := by
  induction as generalizing v with
  | nil => rw [List.foldl_nil, List.append_nil]
  | cons a as ih => rw [List.foldl_cons, ih, toList_push, List.append_assoc, List.singleton_append]

@[simp] theorem toList_ofList (as : List α) : (ofList as).toList = as := by
  rw [ofList, toList_foldl_push, toList_empty, List.nil_append]

/-- Reading the items of a stretch one by one. -/
theorem filterMap_get?_range' (v : TrieVec α) (start n : Nat) :
    (List.range' start n).filterMap v.get? = (v.toList.drop start).take n := by
  induction n generalizing start with
  | zero => rfl
  | succ n ih =>
    rw [List.range'_succ, List.filterMap_cons, v.get?_eq]
    rcases Nat.lt_or_ge start v.toList.length with h | h
    · rw [List.getElem?_eq_getElem h, List.drop_eq_getElem_cons h, List.take_succ_cons, ← ih]
    · rw [List.getElem?_eq_none h, List.drop_of_length_le h, List.take_nil, ih,
        List.drop_of_length_le (Nat.le_succ_of_le h), List.take_nil]

@[simp] theorem toList_cut (v : TrieVec α) (start stop : Nat)
    (h : start ≤ stop ∧ stop ≤ v.length) :
    (v.cut start stop h).toList = (v.toList.drop start).take (stop - start) := by
  unfold cut
  split
  · rw [toList_ofList, filterMap_get?_range']
  · rw [toList, toList, List.drop_take, List.take_take, List.drop_drop,
      Nat.min_eq_left (by omega)]

@[simp] theorem toList_take (v : TrieVec α) (n : Nat) : (v.take n).toList = v.toList.take n := by
  rw [take, toList_cut, List.drop_zero, Nat.sub_zero, ← v.length_toList, ← List.take_take,
    List.take_length]

@[simp] theorem toList_drop (v : TrieVec α) (n : Nat) : (v.drop n).toList = v.toList.drop n := by
  rw [drop, toList_cut,
    List.take_of_length_le (Nat.le_of_eq (by rw [List.length_drop, length_toList]))]
  rcases Nat.le_total n v.length with h | h
  · rw [Nat.min_eq_left h]
  · rw [Nat.min_eq_right h, List.drop_of_length_le (Nat.le_of_eq v.length_toList),
      List.drop_of_length_le (by rw [length_toList]; exact h)]

theorem slice_eq_cut (v : TrieVec α) {start stop : Nat} (h : start ≤ stop ∧ stop ≤ v.length) :
    v.slice start stop = .ok (v.cut start stop h) := dif_pos h

theorem slice_eq_take (v : TrieVec α) {n : Nat} (h : n ≤ v.length) :
    v.slice 0 n = .ok (v.take n) := by
  rw [v.slice_eq_cut ⟨Nat.zero_le n, h⟩]
  simp only [take, Nat.min_eq_left h]

theorem slice_eq_drop (v : TrieVec α) {n : Nat} (h : n ≤ v.length) :
    v.slice n v.length = .ok (v.drop n) := by
  rw [v.slice_eq_cut ⟨h, Nat.le_refl _⟩]
  simp only [drop, Nat.min_eq_left h]

end TrieVec

end Coedit
