import Coedit.Proofs.TrieVec.Digits
import Coedit.TrieVec.Cursor
import Coedit.Word

/-!
# Vectors are lists

Vectors are made from one another: a slice shares the trie of the vector it was cut from, a push
behind a slice overwrites an item that other vectors still show, a slice far into the trie is copied,
and a full trie becomes the first child of a higher one. None of this shows. A family of vectors,
each made from any of those before it, is a family of lists:

> `build_represents`: the calls that build the vectors end in a fault exactly if the same calls on
> lists do, and in the same one; otherwise each vector represents its list.

To represent a list means more than to have its items (`Represents`). Its items are found by the
digits of their places, with no array asked for an element that it does not have; so is the place of
the next item; and a walk from both ends hands out what the list has there, however the two ends
take turns.

What one call does is `toList_perform`, and the family is a fold of such calls. What is true of every
vector alone comes from its trie being dense, which is part of its type.
-/

namespace Coedit.TrieVec

variable {α : Type}

/-! ## Walks from both ends -/

/-- An end of a vector. -/
inductive End where
  | front
  | back
  deriving DecidableEq, Repr

/-- The item at an end of a list, and the list without it. -/
def End.deal : End → List α → Option α × List α
  | front, l => (l.head?, l.tail)
  | back, l => (l.getLast?, l.dropLast)

/-- What a list hands out from its ends, with the number of items left after each. -/
def deals : List End → List α → List (Option α × Except Fault Nat)
  | [], _ => []
  | e :: ends, l => ((e.deal l).1, .ok (e.deal l).2.length) :: deals ends (e.deal l).2

namespace Cursor

/-- The next item from an end, and the walk after it. -/
def advance (c : Cursor α) : End → Option α × Cursor α
  | .front => c.next
  | .back => c.nextFromBack

/-- What a walk hands out, with the number of items left after each, as a checked difference. -/
def walk : List End → Cursor α → List (Option α × Except Fault Nat)
  | [], _ => []
  | e :: ends, c =>
    ((c.advance e).1, Word.sub (c.advance e).2.back (c.advance e).2.front) ::
      walk ends (c.advance e).2

/-- The walk has these items left. -/
structure Holds (c : Cursor α) (rest : List α) : Prop where
  front_le : c.front ≤ c.back
  back_le : c.back ≤ c.vector.length
  rest_eq : (c.vector.toList.take c.back).drop c.front = rest

theorem holds_cursor (v : TrieVec α) : v.cursor.Holds v.toList where
  front_le := Nat.zero_le _
  back_le := Nat.le_refl _
  rest_eq := by
    show (v.toList.take v.length).drop 0 = v.toList
    rw [List.drop_zero, ← v.length_toList, List.take_length]

variable {c : Cursor α} {rest : List α}

theorem Holds.length_rest (h : c.Holds rest) : rest.length = c.back - c.front := by
  have hback := h.back_le
  rw [← h.rest_eq, List.length_drop, List.length_take, length_toList, Nat.min_eq_left hback]

theorem Holds.sub_eq (h : c.Holds rest) : Word.sub c.back c.front = .ok rest.length := by
  rw [h.length_rest]
  exact if_pos h.front_le

/-- Each step takes the item at that end, if there is one left. -/
theorem Holds.advance (h : c.Holds rest) (e : End) :
    (c.advance e).1 = (e.deal rest).1 ∧ (c.advance e).2.Holds (e.deal rest).2 := by
  obtain ⟨hfront, hback, hrest⟩ := h
  have hlen := length_toList c.vector
  by_cases hlt : c.front < c.back
  · cases e with
    | front =>
      simp only [Cursor.advance, next, if_pos hlt, End.deal, get?_eq]
      refine ⟨?_, hlt, hback, ?_⟩
      · rw [← hrest, List.head?_drop, List.getElem?_take_of_lt hlt]
      · rw [← hrest, List.tail_drop]
    | back =>
      simp only [Cursor.advance, nextFromBack, if_pos hlt, End.deal, get?_eq]
      refine ⟨?_, Nat.le_sub_one_of_lt hlt, Nat.le_trans (Nat.sub_le ..) hback, ?_⟩
      · rw [← hrest, List.getLast?_drop, if_neg (by rw [List.length_take]; omega),
          List.getLast?_eq_getElem?, List.length_take, Nat.min_eq_left (by omega),
          List.getElem?_take_of_lt (by omega)]
      · show (c.vector.toList.take (c.back - 1)).drop c.front = rest.dropLast
        rw [← hrest, List.dropLast_eq_take, List.length_drop, List.length_take,
          Nat.min_eq_left (by omega), List.take_drop, List.take_take,
          show min (c.front + (c.back - c.front - 1)) c.back = c.back - 1 by omega]
  · -- the ends have met, and nothing is left
    have hnil : rest = [] := by
      rw [← hrest, List.drop_eq_nil_iff, List.length_take]
      omega
    subst hnil
    cases e with
    | front =>
      simp only [Cursor.advance, next, if_neg hlt, End.deal]
      exact ⟨rfl, hfront, hback, hrest⟩
    | back =>
      simp only [Cursor.advance, nextFromBack, if_neg hlt, End.deal]
      exact ⟨rfl, hfront, hback, hrest⟩

/-- A walk hands out what the items left to it have at their ends. -/
theorem Holds.walk_eq (h : c.Holds rest) (ends : List End) : c.walk ends = deals ends rest := by
  induction ends generalizing c rest with
  | nil => rfl
  | cons e ends ih =>
    obtain ⟨hitem, hnext⟩ := h.advance e
    rw [walk, deals, hitem, hnext.sub_eq, ih hnext]

end Cursor

/-! ## Equality -/

/-- Are two vectors equal as they are read, by their lengths and then item by item? -/
def sameItems [BEq α] (v w : TrieVec α) : Bool :=
  v.length == w.length && (List.range v.length).all fun i => v.get? i == w.get? i

theorem all_range_getElem?_beq [BEq α] (l m : List α) :
    (l.length == m.length && (List.range l.length).all fun i => l[i]? == m[i]?) = (l == m) := by
  induction l generalizing m with
  | nil => cases m <;> rfl
  | cons a l ih =>
    cases m with
    | nil => rfl
    | cons b m =>
      have hrest := ih m
      rw [List.length_cons, List.length_cons, List.range_succ_eq_map, List.all_cons, List.all_map,
        List.cons_beq_cons, ← hrest]
      simp [Function.comp_def, Bool.and_left_comm]

theorem sameItems_eq [BEq α] (v w : TrieVec α) : sameItems v w = (v.toList == w.toList) := by
  rw [← all_range_getElem?_beq, sameItems, length_toList, length_toList]
  simp only [get?_eq]

/-! ## Families of vectors -/

/-- A call that makes a vector. A source is the place in the family of an earlier vector; a place
without one stands for the vector without items. -/
inductive Call (α : Type) where
  | new
  | collect (items : List α)
  | push (source : Nat) (item : α)
  | slice (source start stop : Nat)
  deriving DecidableEq, Repr

/-- The vector that a call makes. -/
def Call.perform (family : List (TrieVec α)) : Call α → Except Fault (TrieVec α)
  | new => .ok empty
  | collect items => .ok (ofList items)
  | push source item => .ok ((family.getD source empty).push item)
  | slice source start stop => (family.getD source empty).slice start stop

/-- The list that a call makes. -/
def Call.list (family : List (List α)) : Call α → Except Fault (List α)
  | new => .ok []
  | collect items => .ok items
  | push source item => .ok (family.getD source [] ++ [item])
  | slice source start stop =>
    let items := family.getD source []
    if start ≤ stop ∧ stop ≤ items.length then .ok ((items.take stop).drop start)
    else .error (.sliceOutOfBounds start stop items.length)

/-- The family with one more member, made from those that it has. -/
def enlarge {β : Type} (make : List β → Call α → Except Fault β) (family : List β)
    (call : Call α) : Except Fault (List β) := do
  let member ← make family call
  .ok (family ++ [member])

/-- The vectors that calls make, one after the other. -/
def build (calls : List (Call α)) : Except Fault (List (TrieVec α)) :=
  calls.foldlM (enlarge Call.perform) []

/-- The lists that calls make, one after the other. -/
def buildLists (calls : List (Call α)) : Except Fault (List (List α)) :=
  calls.foldlM (enlarge Call.list) []

theorem getD_map_toList (family : List (TrieVec α)) (k : Nat) :
    (family.map toList).getD k [] = (family.getD k empty).toList := by
  simp only [List.getD_eq_getElem?_getD, List.getElem?_map]
  cases family[k]? <;> rfl

theorem toList_slice (v : TrieVec α) (start stop : Nat) :
    (v.slice start stop).map toList =
      if start ≤ stop ∧ stop ≤ v.toList.length then .ok ((v.toList.take stop).drop start)
      else .error (.sliceOutOfBounds start stop v.toList.length) := by
  unfold slice
  rw [length_toList]
  split
  · next h => exact congrArg Except.ok (by rw [toList_cut, List.drop_take])
  · rfl

/-- A call makes a vector of the items that it makes a list of. -/
theorem toList_perform (family : List (TrieVec α)) (call : Call α) :
    (call.perform family).map toList = call.list (family.map toList) := by
  cases call with
  | new => rfl
  | collect items => exact congrArg Except.ok (toList_ofList items)
  | push source item =>
    simp only [Call.perform, Call.list, getD_map_toList]
    exact congrArg Except.ok (toList_push ..)
  | slice source start stop =>
    simp only [Call.perform, Call.list, getD_map_toList]
    exact toList_slice ..

/-- Calls that go on from a family go on in the same way from its lists. -/
theorem toList_foldlM_enlarge (calls : List (Call α)) (family : List (TrieVec α)) :
    (calls.foldlM (enlarge Call.perform) family).map (List.map toList) =
      calls.foldlM (enlarge Call.list) (family.map toList) := by
  induction calls generalizing family with
  | nil => rfl
  | cons call calls ih =>
    rw [List.foldlM_cons, List.foldlM_cons, enlarge, enlarge, ← toList_perform]
    cases call.perform family with
    | error fault => rfl
    | ok v =>
      have hnext := ih (family ++ [v])
      rw [List.map_append] at hnext
      exact hnext

/-! ## What a vector stands for -/

/-- The trie after a push, with the way to the place of the new item found by the digits of that
place: over an item that a slice left behind, in a trie one level higher, or in a free place. It is
`none` if an array does not reach as far as a digit says. -/
def pushRoot? (v : TrieVec α) (a : α) : Option (Σ h, Trie α h) :=
  if v.start + v.length < v.stored then
    (v.root.setByDigits? (v.start + v.length) a).map fun root => ⟨v.height, root⟩
  else if v.stored = Trie.capacity v.height then some ⟨v.height + 1, v.root.grow a⟩
  else (v.root.pushByDigits? (v.start + v.length) a).map fun root => ⟨v.height, root⟩

/-- A push always finds its place. -/
theorem pushRoot?_eq (v : TrieVec α) (a : α) :
    v.pushRoot? a = some ⟨(v.push a).height, (v.push a).root⟩ := by
  have hw := v.window_le
  have hfit := Trie.length_toList_le v.dense
  rw [v.length_root] at hfit
  unfold pushRoot? push
  by_cases hs : v.start + v.length < v.stored
  · rw [if_pos hs, dif_pos hs, Trie.setByDigits?_eq v.dense (by rw [v.length_root]; exact hs)]
    rfl
  · rw [if_neg hs, dif_neg hs]
    by_cases hfull : v.stored = Trie.capacity v.height
    · rw [if_pos hfull, dif_pos hfull]
    · -- the window ends where the items of the trie do
      rw [if_neg hfull, dif_neg hfull, show v.start + v.length = v.stored by omega,
        Trie.pushByDigits?_eq (Nat.lt_of_le_of_ne hfit hfull)]
      rfl

/-- The vector represents the list: it has its items, finds them by the digits of their places, has
a place for one more, and hands them out from both ends. -/
structure Represents (v : TrieVec α) (l : List α) : Prop where
  toList_eq : v.toList = l
  length_eq : v.length = l.length
  get : ∀ i, v.get? i = l[i]?
  read : ∀ i, i < l.length → v.root.getByDigits? (v.start + i) = l[i]?
  push : ∀ a, v.pushRoot? a = some ⟨(v.push a).height, (v.push a).root⟩
  remaining : v.cursor.remaining = l.length
  walk : ∀ ends : List End, v.cursor.walk ends = deals ends l

theorem represents_toList (v : TrieVec α) : v.Represents v.toList where
  toList_eq := rfl
  length_eq := v.length_toList.symm
  get := v.get?_eq
  read i hi := by
    rw [length_toList] at hi
    have hw := v.window_le
    have hfit := Trie.length_toList_le v.dense
    rw [v.length_root] at hfit
    rw [Trie.getByDigits?_eq, Nat.mod_eq_of_lt (by omega), ← v.get?_eq, get?, if_pos hi]
  push := v.pushRoot?_eq
  remaining := by rw [length_toList]; rfl
  walk := (Cursor.holds_cursor v).walk_eq

/-- **A family of vectors is a family of lists.** Whatever calls build the vectors, each from those
made before, the same calls build a family of lists. Either both end in the same fault, or each
vector represents the list at its place, and vectors are equal exactly if the lists are, also when
they are compared by what is read from them. -/
theorem build_represents [BEq α] (calls : List (Call α)) :
    (∃ fault, build calls = .error fault ∧ buildLists calls = .error fault) ∨
      ∃ vectors lists, build calls = .ok vectors ∧ buildLists calls = .ok lists ∧
        vectors.length = lists.length ∧
        (∀ k, (vectors.getD k empty).Represents (lists.getD k [])) ∧
        ∀ j k, (vectors.getD j empty == vectors.getD k empty) = (lists.getD j [] == lists.getD k [])
          ∧ sameItems (vectors.getD j empty) (vectors.getD k empty) =
            (lists.getD j [] == lists.getD k []) := by
  have hlists : (build calls).map (List.map toList) = buildLists calls :=
    toList_foldlM_enlarge calls []
  cases hbuild : build calls with
  | error fault =>
    rw [hbuild] at hlists
    exact Or.inl ⟨fault, rfl, hlists.symm⟩
  | ok vectors =>
    rw [hbuild] at hlists
    refine Or.inr ⟨vectors, vectors.map toList, rfl, hlists.symm, (List.length_map _).symm, ?_, ?_⟩
    · intro k
      rw [getD_map_toList]
      exact represents_toList _
    · intro j k
      rw [getD_map_toList, getD_map_toList]
      exact ⟨rfl, sameItems_eq _ _⟩

end Coedit.TrieVec
