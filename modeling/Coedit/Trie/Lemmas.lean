import Coedit.Trie.Basic

/-!
# What trie operations do to the items

For a dense trie, `get?` reads the list of items, `set` changes one of them and `push` adds one at
the end:

> `get?_eq`: `t.get? i = t.toList[i]?`
> `toList_set`: `(t.set i a).toList = t.toList.set i a`
> `toList_push`: `(t.push count a).toList = t.toList ++ [a]`

and the results are dense again.
-/

universe u

namespace Coedit.Trie

/-! ## Lists in blocks

The items of a node are those of its children, one block after the other. All blocks but the last
have the same length `c`, so quotient and remainder by `c` give the block and the place in it. -/

section Blocks

variable {β γ : Type u} {f : β → List γ} {c : Nat}

theorem length_flatMap_full {l : List β} (hfull : ∀ b ∈ l, (f b).length = c) :
    (l.flatMap f).length = l.length * c := by
  induction l with
  | nil => simp
  | cons b l ih =>
    rw [List.flatMap_cons, List.length_append, hfull b (List.mem_cons_self ..),
      ih fun b hb => hfull b (List.mem_cons_of_mem _ hb), List.length_cons, Nat.succ_mul,
      Nat.add_comm]

theorem length_flatMap_le {l : List β} (hle : ∀ b ∈ l, (f b).length ≤ c) :
    (l.flatMap f).length ≤ l.length * c := by
  induction l with
  | nil => simp
  | cons b l ih =>
    have hb := hle b (List.mem_cons_self ..)
    have hl := ih fun b hb => hle b (List.mem_cons_of_mem _ hb)
    rw [List.flatMap_cons, List.length_append, List.length_cons, Nat.succ_mul]
    omega

theorem getElem?_flatMap_blocks (hc : 0 < c) :
    ∀ (l : List β), (∀ b ∈ l, (f b).length ≤ c) → (∀ b ∈ l.dropLast, (f b).length = c) →
      ∀ i, (l.flatMap f)[i]? = l[i / c]?.bind fun b => (f b)[i % c]?
  | [], _, _, i => by simp
  | [b], hle, _, i => by
    rcases Nat.lt_or_ge i c with hi | hi
    · simp [Nat.div_eq_of_lt hi, Nat.mod_eq_of_lt hi]
    · have hb := hle b (List.mem_cons_self ..)
      have hq : 0 < i / c := Nat.div_pos hi hc
      rw [List.flatMap_cons, List.flatMap_nil, List.append_nil,
        List.getElem?_eq_none (by omega), List.getElem?_eq_none (by rw [List.length_singleton]; exact hq)]
      rfl
  | b :: b' :: l, hle, hfull, i => by
    have hb : (f b).length = c := hfull b (by simp)
    have ih := getElem?_flatMap_blocks hc (b' :: l)
      (fun x hx => hle x (List.mem_cons_of_mem _ hx))
      (fun x hx => hfull x (by simpa using Or.inr hx))
    rw [List.flatMap_cons, List.getElem?_append, hb]
    rcases Nat.lt_or_ge i c with hi | hi
    · rw [if_pos hi, Nat.div_eq_of_lt hi, Nat.mod_eq_of_lt hi]
      rfl
    · rw [if_neg (Nat.not_lt.mpr hi), ih, ← Nat.mod_eq_sub_mod hi,
        Nat.div_eq_sub_div hc hi, List.getElem?_cons_succ]

theorem flatMap_modify_blocks {g : β → Nat → β} {a : γ} (hc : 0 < c) :
    ∀ (l : List β), (∀ b ∈ l, (f b).length ≤ c) → (∀ b ∈ l.dropLast, (f b).length = c) →
      (∀ b ∈ l, ∀ j, f (g b j) = (f b).set j a) →
      ∀ i, (l.modify (i / c) fun b => g b (i % c)).flatMap f = (l.flatMap f).set i a
  | [], _, _, _, i => by simp
  | [b], hle, _, hg, i => by
    have hb := hg b (List.mem_cons_self ..)
    rcases Nat.lt_or_ge i c with hi | hi
    · simp [Nat.div_eq_of_lt hi, Nat.mod_eq_of_lt hi, hb]
    · have hle := hle b (List.mem_cons_self ..)
      have hq : 0 < i / c := Nat.div_pos hi hc
      obtain ⟨k, hk⟩ := Nat.exists_eq_succ_of_ne_zero (Nat.ne_of_gt hq)
      rw [hk, List.modify_succ_cons, List.modify_nil, List.set_eq_of_length_le]
      simp only [List.flatMap_cons, List.flatMap_nil, List.append_nil]
      omega
  | b :: b' :: l, hle, hfull, hg, i => by
    have hb : (f b).length = c := hfull b (by simp)
    have ih := flatMap_modify_blocks hc (b' :: l)
      (fun x hx => hle x (List.mem_cons_of_mem _ hx))
      (fun x hx => hfull x (by simpa using Or.inr hx))
      (fun x hx => hg x (List.mem_cons_of_mem _ hx))
    rw [List.flatMap_cons, List.set_append, hb]
    rcases Nat.lt_or_ge i c with hi | hi
    · rw [if_pos hi, Nat.div_eq_of_lt hi, Nat.mod_eq_of_lt hi, List.modify_zero_cons,
        List.flatMap_cons, hg b (List.mem_cons_self ..)]
    · rw [if_neg (Nat.not_lt.mpr hi), ← ih, ← Nat.mod_eq_sub_mod hi, Nat.div_eq_sub_div hc hi,
        List.modify_succ_cons, List.flatMap_cons]

/-- Every element of a list with one element changed is an old element or a changed one. -/
theorem mem_modify {g : β → β} {x : β} : ∀ {l : List β} {k : Nat}, x ∈ l.modify k g →
    ∃ b ∈ l, x = b ∨ x = g b
  | [], _, hx => absurd hx (by rw [List.modify_nil]; exact List.not_mem_nil)
  | b :: l, 0, hx => by
    rw [List.modify_zero_cons] at hx
    rcases List.mem_cons.mp hx with rfl | hx
    · exact ⟨b, List.mem_cons_self .., Or.inr rfl⟩
    · exact ⟨x, List.mem_cons_of_mem _ hx, Or.inl rfl⟩
  | b :: l, k + 1, hx => by
    rw [List.modify_succ_cons] at hx
    rcases List.mem_cons.mp hx with rfl | hx
    · exact ⟨x, List.mem_cons_self .., Or.inl rfl⟩
    · obtain ⟨b', hb', h⟩ := mem_modify hx
      exact ⟨b', List.mem_cons_of_mem _ hb', h⟩

/-- Changing one element without changing its measure keeps all measures. -/
theorem map_modify_of_eq {δ : Type} {m : β → δ} {g : β → β} :
    ∀ {l : List β} {k : Nat}, (∀ b ∈ l, m (g b) = m b) → (l.modify k g).map m = l.map m
  | [], _, _ => by rw [List.modify_nil]
  | b :: l, 0, h => by
    rw [List.modify_zero_cons, List.map_cons, List.map_cons, h b (List.mem_cons_self ..)]
  | b :: l, k + 1, h => by
    rw [List.modify_succ_cons, List.map_cons, List.map_cons,
      map_modify_of_eq fun b hb => h b (List.mem_cons_of_mem _ hb)]

/-- Changing the last element of a list. -/
theorem modify_length_concat (g : β → β) (last : β) :
    ∀ init : List β, (init ++ [last]).modify init.length g = init ++ [g last]
  | [] => by
    rw [List.nil_append, List.nil_append, List.length_nil, List.modify_zero_cons]
  | b :: init => by
    rw [List.cons_append, List.length_cons, List.modify_succ_cons, modify_length_concat g last init,
      List.cons_append]

end Blocks

variable {α : Type u}

/-! ## The items of a trie -/

theorem toList_zero (t : Trie α 0) : t.toList = t.items.toList := rfl

theorem toList_succ {h : Nat} (t : Trie α (h + 1)) :
    t.toList = t.children.toList.flatMap toList := rfl

theorem dense_zero {t : Trie α 0} : t.Dense ↔ t.items.size ≤ width := Iff.rfl

theorem dense_succ {h : Nat} {t : Trie α (h + 1)} :
    t.Dense ↔ t.children.size ≤ width ∧
      (∀ child ∈ t.children.toList, child.Dense ∧ child.toList ≠ []) ∧
      ∀ child ∈ t.children.toList.dropLast,
        child.toList.length = capacity h :=
  Iff.rfl

/-- A dense trie holds no more items than it has room for. -/
theorem length_toList_le : ∀ {h : Nat} {t : Trie α h}, t.Dense → t.toList.length ≤ capacity h
  | 0, t, hd => by
    rw [toList_zero, Array.length_toList, capacity_zero]
    exact dense_zero.mp hd
  | h + 1, t, hd => by
    obtain ⟨hw, hch, _⟩ := dense_succ.mp hd
    rw [toList_succ, capacity_succ]
    refine Nat.le_trans (length_flatMap_le fun b hb => length_toList_le (hch b hb).1) ?_
    rw [Array.length_toList]
    exact Nat.mul_le_mul_right _ hw

theorem get?_eq : ∀ {h : Nat} {t : Trie α h}, t.Dense → ∀ i, t.get? i = t.toList[i]?
  | 0, t, _, i => by
    rw [toList_zero, Array.getElem?_toList, get?]
  | h + 1, t, hd, i => by
    obtain ⟨_, hch, hfull⟩ := dense_succ.mp hd
    rw [toList_succ, getElem?_flatMap_blocks (capacity_pos h) _
      (fun b hb => length_toList_le (hch b hb).1) hfull, Array.getElem?_toList]
    rw [get?]
    cases hc : t.children[i / capacity h]? with
    | none => rfl
    | some child =>
      have hmem : child ∈ t.children.toList :=
        Array.mem_toList_iff.mpr (Array.mem_of_getElem? hc)
      exact get?_eq (hch child hmem).1 _

/-! ## Single items and replaced items -/

@[simp] theorem toList_empty : (empty : Trie α 0).toList = [] := rfl

theorem dense_empty : (empty : Trie α 0).Dense := dense_zero.mpr (Nat.zero_le _)

@[simp] theorem toList_single : ∀ (h : Nat) (a : α), (single h a).toList = [a]
  | 0, a => rfl
  | h + 1, a => by
    rw [toList_succ]
    show [single h a].flatMap toList = [a]
    rw [List.flatMap_cons, List.flatMap_nil, List.append_nil, toList_single h a]

theorem dense_single : ∀ (h : Nat) (a : α), (single h a).Dense
  | 0, a => by
    show (1 : Nat) ≤ 32
    decide
  | h + 1, a => by
    refine dense_succ.mpr ⟨?_, ?_, ?_⟩
    · show (1 : Nat) ≤ 32
      decide
    · intro child hmem
      have hc : child = single h a := List.mem_singleton.mp hmem
      subst hc
      exact ⟨dense_single h a, by rw [toList_single]; exact List.cons_ne_nil _ _⟩
    · intro child hmem
      exact absurd hmem List.not_mem_nil

theorem toList_set : ∀ {h : Nat} {t : Trie α h}, t.Dense → ∀ i a,
    (t.set i a).toList = t.toList.set i a
  | 0, t, _, i, a => by
    rw [toList_zero, toList_zero, ← Array.toList_setIfInBounds, set, items_leaf]
  | h + 1, t, hd, i, a => by
    obtain ⟨_, hch, hfull⟩ := dense_succ.mp hd
    rw [toList_succ, toList_succ, set, children_node, Array.toList_modify]
    exact flatMap_modify_blocks (g := fun child j => child.set j a) (capacity_pos h) _
      (fun b hb => length_toList_le (hch b hb).1) hfull
      (fun b hb j => toList_set (hch b hb).1 j a) i

theorem dense_set : ∀ {h : Nat} {t : Trie α h}, t.Dense → ∀ i a, (t.set i a).Dense
  | 0, t, hd, i, a => by
    refine dense_zero.mpr ?_
    rw [set, items_leaf, Array.size_setIfInBounds]
    exact dense_zero.mp hd
  | h + 1, t, hd, i, a => by
    obtain ⟨hw, hch, hfull⟩ := dense_succ.mp hd
    have hlen : ∀ b ∈ t.children.toList,
        (b.set (i % capacity h) a).toList.length = b.toList.length := by
      intro b hb
      rw [toList_set (hch b hb).1, List.length_set]
    have hlist : (t.set i a).children.toList =
        t.children.toList.modify (i / capacity h) fun child =>
          child.set (i % capacity h) a :=
      Array.toList_modify ..
    refine dense_succ.mpr ⟨?_, ?_, ?_⟩
    · rw [← Array.length_toList, hlist, List.length_modify, Array.length_toList]
      exact hw
    · intro child hmem
      rw [hlist] at hmem
      obtain ⟨b, hb, rfl | rfl⟩ := mem_modify hmem
      · exact hch child hb
      · refine ⟨dense_set (hch b hb).1 _ _, ?_⟩
        rw [← List.length_pos_iff, hlen b hb, List.length_pos_iff]
        exact (hch b hb).2
    · intro child hmem
      rw [hlist] at hmem
      have hin : child.toList.length ∈
          ((t.children.toList.modify (i / capacity h) fun child =>
            child.set (i % capacity h) a).map fun b => b.toList.length).dropLast := by
        rw [← List.map_dropLast]
        exact List.mem_map.mpr ⟨child, hmem, rfl⟩
      rw [map_modify_of_eq hlen, ← List.map_dropLast] at hin
      obtain ⟨b, hb, hbl⟩ := List.mem_map.mp hin
      rw [← hbl]
      exact hfull b hb

/-! ## One more item -/

/-- Pushing onto a dense trie with room left adds one item at the end and keeps it dense. -/
theorem push_spec : ∀ {h : Nat} {t : Trie α h} {count : Nat}, t.Dense → t.toList.length = count →
    count < capacity h → ∀ a,
      (t.push count a).toList = t.toList ++ [a] ∧ (t.push count a).Dense
  | 0, t, count, hd, hcount, hroom, a => by
    constructor
    · exact Array.toList_push ..
    · refine dense_zero.mpr ?_
      rw [push, items_leaf, Array.size_push]
      rw [toList_zero, Array.length_toList] at hcount
      rw [capacity_zero] at hroom
      omega
  | h + 1, t, count, hd, hcount, hroom, a => by
    obtain ⟨hw, hch, hfull⟩ := dense_succ.mp hd
    have hc := capacity_pos h
    have hpush : (t.push count a).children.toList =
        if count / capacity h < t.children.toList.length then
          t.children.toList.modify (count / capacity h) fun child =>
            child.push (count % capacity h) a
        else t.children.toList ++ [single h a] := by
      rw [Array.length_toList, push]
      split
      · exact Array.toList_modify ..
      · exact Array.toList_push ..
    rw [toList_succ, dense_succ, ← Array.length_toList, hpush, toList_succ]
    rw [toList_succ] at hcount
    rw [← Array.length_toList] at hw
    generalize t.children.toList = l at *
    rcases List.eq_nil_or_concat l with rfl | ⟨init, last, rfl⟩
    · rw [List.length_nil, if_neg (Nat.not_lt_zero _)]
      refine ⟨by simp, ?_, ?_, ?_⟩
      · show (1 : Nat) ≤ 32
        decide
      · intro child hmem
        have hcs : child = single h a := List.mem_singleton.mp hmem
        subst hcs
        exact ⟨dense_single h a, by rw [toList_single]; exact List.cons_ne_nil _ _⟩
      · intro child hmem
        exact absurd hmem List.not_mem_nil
    · rw [List.concat_eq_append] at *
      rw [List.dropLast_concat] at hfull
      have hlast := hch last (by simp)
      have hpos : 0 < last.toList.length := List.length_pos_iff.mpr hlast.2
      rw [List.flatMap_append, List.flatMap_cons, List.flatMap_nil, List.append_nil,
        List.length_append, length_flatMap_full hfull] at hcount
      rw [List.length_append, List.length_singleton] at hw ⊢
      rcases Nat.lt_or_ge last.toList.length (capacity h) with hl | hl
      · have hq : count / capacity h = init.length := by
          rw [← hcount, Nat.add_comm, Nat.add_mul_div_right _ _ hc, Nat.div_eq_of_lt hl,
            Nat.zero_add]
        have hr : count % capacity h = last.toList.length := by
          rw [← hcount, Nat.add_comm, Nat.add_mul_mod_self_right, Nat.mod_eq_of_lt hl]
        obtain ⟨hlist, hdense⟩ := push_spec hlast.1 rfl hl a
        rw [hq, hr, if_pos (Nat.lt_succ_self _), modify_length_concat]
        refine ⟨?_, ?_, ?_, ?_⟩
        · rw [List.flatMap_append, List.flatMap_append, List.flatMap_cons, List.flatMap_nil,
            List.flatMap_cons, List.flatMap_nil, List.append_nil, List.append_nil, hlist,
            List.append_assoc]
        · rw [List.length_append, List.length_singleton]
          exact hw
        · intro child hmem
          rcases List.mem_append.mp hmem with hmem | hmem
          · exact hch child (List.mem_append_left _ hmem)
          · have hcs := List.mem_singleton.mp hmem
            subst hcs
            refine ⟨hdense, ?_⟩
            rw [hlist]
            exact List.append_ne_nil_of_right_ne_nil _ (List.cons_ne_nil _ _)
        · rw [List.dropLast_concat]
          exact hfull
      · have hle := length_toList_le hlast.1
        have hlen : last.toList.length = capacity h := by omega
        have hq : count / capacity h = init.length + 1 := by
          rw [← hcount, hlen, ← Nat.succ_mul, Nat.mul_div_cancel _ hc]
        have hsize : init.length + 1 < width := by
          rw [← hcount, hlen, ← Nat.succ_mul, capacity_succ] at hroom
          exact Nat.lt_of_mul_lt_mul_right hroom
        rw [hq, if_neg (Nat.lt_irrefl _)]
        refine ⟨?_, ?_, ?_, ?_⟩
        · rw [List.flatMap_append, List.flatMap_cons, List.flatMap_nil, List.append_nil,
            toList_single]
        · rw [List.length_append, List.length_append, List.length_singleton,
            List.length_singleton]
          exact hsize
        · intro child hmem
          rcases List.mem_append.mp hmem with hmem | hmem
          · exact hch child hmem
          · have hcs := List.mem_singleton.mp hmem
            subst hcs
            exact ⟨dense_single h a, by rw [toList_single]; exact List.cons_ne_nil _ _⟩
        · rw [List.dropLast_concat]
          intro child hmem
          rcases List.mem_append.mp hmem with hmem | hmem
          · exact hfull child hmem
          · rw [List.mem_singleton.mp hmem]
            exact hlen

theorem toList_push {h : Nat} {t : Trie α h} {count : Nat} (hd : t.Dense)
    (hcount : t.toList.length = count) (hroom : count < capacity h) (a : α) :
    (t.push count a).toList = t.toList ++ [a] :=
  (push_spec hd hcount hroom a).1

theorem dense_push {h : Nat} {t : Trie α h} {count : Nat} (hd : t.Dense)
    (hcount : t.toList.length = count) (hroom : count < capacity h) (a : α) :
    (t.push count a).Dense :=
  (push_spec hd hcount hroom a).2

@[simp] theorem toList_grow {h : Nat} (t : Trie α h) (a : α) :
    (t.grow a).toList = t.toList ++ [a] := by
  rw [toList_succ, grow, children_node, List.flatMap_cons, List.flatMap_cons, List.flatMap_nil,
    List.append_nil, toList_single]

theorem dense_grow {h : Nat} {t : Trie α h} (hd : t.Dense)
    (hfull : t.toList.length = capacity h) (a : α) : (t.grow a).Dense := by
  have hc := capacity_pos h
  refine dense_succ.mpr ⟨?_, ?_, ?_⟩
  · show (2 : Nat) ≤ 32
    decide
  · intro child hmem
    rw [grow, children_node] at hmem
    rcases List.mem_cons.mp hmem with rfl | hmem
    · exact ⟨hd, List.length_pos_iff.mp (by omega)⟩
    · rw [List.mem_singleton.mp hmem]
      exact ⟨dense_single h a, by rw [toList_single]; exact List.cons_ne_nil _ _⟩
  · intro child hmem
    rw [grow, children_node] at hmem
    have hct : child = t := List.mem_singleton.mp hmem
    rw [hct]
    exact hfull

end Coedit.Trie
