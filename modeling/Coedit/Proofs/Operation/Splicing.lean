import Coedit.Proofs.Operation.Places

/-!
# Texts by place

What an operation makes of a text depends on two things: which characters it keeps, and behind how
many of them it puts each character that it inserts.

> `Operation.apply_eq_of_places`: two operations make the same of a text if they keep the same
> characters of it and insert the same characters, each behind the same ones of those kept.

So it does not matter where among deleted characters an insertion stands, and what transforming does
to it there is not seen in the text. The number of characters comes out as well: it is what the
operation inserts and what it keeps (`Operation.length_eq_of_apply`), so an operation that is
transformed past others stays within the room that it needs (`Operation.exists_transform`).
-/

namespace Coedit

/-! ## The text by place -/

/-- The text with characters put in front of its characters at the given places. The last one goes
in first, so the places are those in the text as it was. -/
def putIn (s : Text) (xs : List (Nat × Char)) : Text := xs.foldr (fun x t => t.insertIdx x.1 x.2) s

theorem insertIdx_append (u w : Text) (r : Nat) (c : Char) :
    (u ++ w).insertIdx (u.length + r) c = u ++ w.insertIdx r c := by
  induction u with
  | nil => simp
  | cons a u ih =>
    rw [List.length_cons, Nat.succ_add, List.cons_append, List.insertIdx_succ_cons, ih]
    rfl

theorem putIn_append_shift (u w : Text) (xs : List (Nat × Char)) :
    putIn (u ++ w) (xs.map (Piece.shift u.length)) = u ++ putIn w xs := by
  induction xs with
  | nil => rfl
  | cons x xs ih =>
    show (putIn (u ++ w) _).insertIdx (u.length + x.1) x.2 = u ++ (putIn w xs).insertIdx x.1 x.2
    rw [ih, insertIdx_append]

theorem putIn_front (w i : Text) (xs : List (Nat × Char)) :
    putIn w (i.map (0, ·) ++ xs) = i ++ putIn w xs := by
  induction i with
  | nil => rfl
  | cons c i ih =>
    show (putIn w (i.map (0, ·) ++ xs)).insertIdx 0 c = c :: (i ++ putIn w xs)
    rw [ih, List.insertIdx_zero]

/-- The number of kept characters in front of a gap of a text of the given length. -/
def rank (kept : Nat → Bool) (length gap : Nat) : Nat :=
  (List.range length).countP fun k => decide (k < gap) && kept k

theorem rank_zero (kept : Nat → Bool) (length : Nat) : rank kept length 0 = 0 := by
  simp [rank]

theorem rank_le (kept : Nat → Bool) (length gap : Nat) : rank kept length gap ≤ length :=
  Nat.le_trans List.countP_le_length (Nat.le_of_eq List.length_range)

/-- Behind a stretch that is kept or dropped as a whole. -/
theorem rank_add {kept : Nat → Bool} {keep : Bool} {n : Nat} (hkept : ∀ k < n, kept k = keep)
    (length gap : Nat) :
    rank kept (n + length) (n + gap) =
      (if keep then n else 0) + rank (fun k => kept (k + n)) length gap := by
  unfold rank
  rw [List.range_add, List.countP_append, List.countP_map]
  congr 1
  · have hstretch : ∀ k ∈ List.range n, (decide (k < n + gap) && kept k) = keep := by
      intro k hk
      have hk := List.mem_range.mp hk
      rw [hkept k hk, decide_eq_true (by omega), Bool.true_and]
    cases keep with
    | true => exact (List.countP_eq_length.mpr hstretch).trans List.length_range
    | false =>
      refine List.countP_eq_zero.mpr fun k hk => ?_
      rw [hstretch k hk]
      exact Bool.false_ne_true
  · congr 1
    funext k
    simp [Nat.add_comm]

/-- **What runs make of a text, by place.** The characters that they keep, and the characters that
they insert, each behind as many kept characters as there are in front of its gap. -/
theorem Rewrites.eq_putIn {ps : List Piece} {s t : Text} (h : Rewrites ps s t) :
    t = putIn (weave (fun _ => []) (fun _ => []) (Piece.keepsAt ps) s)
      ((Piece.entered ps).map (Prod.map (rank (Piece.keepsAt ps) s.length) id)) := by
  induction h with
  | nil => rfl
  | @cons p ps u v s t hp hps ih =>
    by_cases hpi : p.isInsert
    · cases p with
      | insert i =>
        obtain ⟨rfl, rfl⟩ := hp
        -- no kept character is in front of the first gap
        have hfront : (v.map (0, ·)).map
            (Prod.map (rank (Piece.keepsAt (.insert v :: ps)) ([] ++ s).length) id) =
            v.map (0, ·) := by
          rw [List.map_map]
          exact List.map_congr_left fun c _ => Prod.ext (rank_zero ..) rfl
        rw [Piece.entered_insert, List.map_append, hfront, putIn_front]
        exact congrArg (v ++ ·) ih
      | retain n => cases hpi
      | delete d => cases hpi
    · obtain ⟨hu, hv, hstretch, hrest⟩ := hp.keepsAt hpi ps
      have hrank : ∀ g, rank (Piece.keepsAt (p :: ps)) (u ++ s).length (p.size + g) =
          v.length + rank (Piece.keepsAt ps) s.length g := by
        intro g
        rw [List.length_append, ← hu, rank_add hstretch, hrest, hv]
        cases p.isDelete <;> rfl
      rw [weave_stretch u (fun _ _ => rfl) (fun _ _ => rfl) hstretch s, hrest, ← hv,
        Piece.entered_cons hpi, List.map_map,
        show Prod.map (rank (Piece.keepsAt (p :: ps)) (u ++ s).length) id ∘ Piece.shift p.size =
          Piece.shift v.length ∘ Prod.map (rank (Piece.keepsAt ps) s.length) id from
          funext fun x => Prod.ext (hrank x.1) rfl,
        ← List.map_map, putIn_append_shift, ← ih]

/-- What runs make has as many characters as they insert and keep. -/
theorem Rewrites.length_eq {ps : List Piece} {s t : Text} (h : Rewrites ps s t) :
    t.length = (Piece.entered ps).length + rank (Piece.keepsAt ps) s.length s.length := by
  induction h with
  | nil => rfl
  | @cons p ps u v s t hp hps ih =>
    by_cases hpi : p.isInsert
    · cases p with
      | insert i =>
        obtain ⟨rfl, rfl⟩ := hp
        rw [Piece.entered_insert, List.length_append, List.length_append, List.length_map, ih,
          Nat.add_assoc]
        rfl
      | retain n => cases hpi
      | delete d => cases hpi
    · obtain ⟨hu, hv, hstretch, hrest⟩ := hp.keepsAt hpi ps
      have hlen : v.length = if !p.isDelete then u.length else 0 := by
        rw [hv]
        cases p.isDelete <;> rfl
      rw [List.length_append, List.length_append, rank_add hstretch, hrest, ← hlen, ih,
        Piece.entered_cons hpi, List.length_map]
      omega

namespace Operation

theorem eq_putIn_of_apply {op : Operation} {s t : Text} (h : op.apply s = .ok t) :
    t = putIn (weave (fun _ => []) (fun _ => []) (keepsAt op.components) s)
      (op.entered.map (Prod.map (rank (keepsAt op.components) s.length) id)) := by
  by_cases hop : op.isEmpty
  · have hweave := weave_eq_of_apply h
    have hnil : op.components = [] := List.isEmpty_iff.mp hop
    rw [entered, pieces, hnil]
    rw [hnil] at hweave
    exact hweave.symm
  · have hputIn := ((apply_eq_ok_iff hop).mp h).eq_putIn
    rw [keepsAt_runs] at hputIn
    exact hputIn

theorem length_eq_of_apply {op : Operation} {s t : Text} (h : op.apply s = .ok t) :
    t.length = op.entered.length + rank (keepsAt op.components) s.length s.length := by
  by_cases hop : op.isEmpty
  · rw [apply_of_isEmpty hop] at h
    cases h
    have hnil : op.components = [] := List.isEmpty_iff.mp hop
    have hall : rank (keepsAt []) s.length s.length = s.length := by
      unfold rank
      rw [List.countP_eq_length.mpr fun k hk => ?_, List.length_range]
      rw [decide_eq_true (List.mem_range.mp hk)]
      rfl
    rw [entered, pieces, hnil, hall]
    exact (Nat.zero_add _).symm
  · have hlen := ((apply_eq_ok_iff hop).mp h).length_eq
    rw [keepsAt_runs] at hlen
    exact hlen

/-- Two operations make the same of a text if they keep the same characters and insert the same
ones, each behind the same of the kept characters. -/
theorem apply_eq_of_places {a b : Operation} {s t t' : Text} (ha : a.apply s = .ok t)
    (hb : b.apply s = .ok t')
    (hkeeps : ∀ k < s.length, keepsAt a.components k = keepsAt b.components k)
    (hentered : List.Forall₂ (fun x y => x.2 = y.2 ∧ ∀ k < s.length, keepsAt a.components k →
      (k < x.1 ↔ k < y.1)) a.entered b.entered) : t = t' := by
  have hkept : weave (fun _ => []) (fun _ => []) (keepsAt a.components) s =
      weave (fun _ => []) (fun _ => []) (keepsAt b.components) s := by
    refine List.flatMap_congr fun g _ => ?_
    by_cases hg : g < s.length
    · rw [hkeeps g hg]
    · rw [List.getElem?_eq_none (Nat.le_of_not_lt hg), Option.toList_none, ite_self, ite_self]
  have hplaces : a.entered.map (Prod.map (rank (keepsAt a.components) s.length) id) =
      b.entered.map (Prod.map (rank (keepsAt b.components) s.length) id) := by
    rw [← List.forall₂_eq_eq_eq, List.forall₂_map_left_iff, List.forall₂_map_right_iff]
    refine hentered.imp fun x y hxy => Prod.ext (List.countP_congr fun k hk => ?_) hxy.1
    have hk := List.mem_range.mp hk
    have hlt := hxy.2 k hk
    rw [← hkeeps k hk]
    grind
  rw [eq_putIn_of_apply ha, eq_putIn_of_apply hb, hkept, hplaces]

theorem rewrites_concurrence_left {mine theirs : Operation} (hm : ¬ mine.isEmpty)
    (ht : ¬ theirs.isEmpty) {t a b : Text} (ha : mine.apply t = .ok a)
    (hb : theirs.apply t = .ok b) :
    Rewrites ((concurrence .left mine.pieces theirs.pieces).flatMap Cell.transformed) b
      (mine.merge theirs t) := by
  show Rewrites _ b (mergeBy .left mine theirs t)
  rw [mergeBy_eq_mergeRuns]
  exact Rewrites.concurrence size_ne_zero_of_mem_pieces size_ne_zero_of_mem_pieces
    ((apply_eq_ok_iff hm).mp ha) ((apply_eq_ok_iff ht).mp hb)

/-- Whatever transforming gives makes the merge of what the other operation made. -/
theorem apply_of_transform {mine theirs op : Operation} {t a b : Text}
    (h : mine.transform theirs .left = .ok op) (ha : mine.apply t = .ok a)
    (hb : theirs.apply t = .ok b) : op.apply b = .ok (mine.merge theirs t) := by
  unfold transform at h
  by_cases hm : mine.isEmpty
  · rw [if_pos (Or.inl hm)] at h
    cases h
    rw [apply_of_isEmpty hm, merge_of_isEmpty_left hm hb]
  by_cases ht : theirs.isEmpty
  · rw [if_pos (Or.inr ht)] at h
    cases h
    rw [apply_of_isEmpty ht] at hb
    cases hb
    rw [merge_of_isEmpty_right ht ha, ha]
  rw [if_neg (fun hor => hor.elim hm ht)] at h
  split at h
  · have hruns := rewrites_concurrence_left hm ht ha hb
    rw [← rewrites_gather, ← components_of_ofComponents h] at hruns
    exact apply_of_rewrites hruns
  · cases h

/-- There are no more characters after two operations than mine inserts and theirs leaves. -/
theorem length_merge_le {mine theirs : Operation} {t a b : Text} (ha : mine.apply t = .ok a)
    (hb : theirs.apply t = .ok b) :
    (mine.merge theirs t).length ≤ mine.entered.length + b.length := by
  by_cases hm : mine.isEmpty
  · rw [merge_of_isEmpty_left hm hb]
    exact Nat.le_add_left ..
  by_cases ht : theirs.isEmpty
  · rw [merge_of_isEmpty_right ht ha, length_eq_of_apply ha]
    rw [apply_of_isEmpty ht] at hb
    cases hb
    exact Nat.add_le_add_left (rank_le ..) _
  have hlen : mine.lenBefore = theirs.lenBefore := by
    rw [← length_before_of_apply hm ha, ← length_before_of_apply ht hb]
  rw [(rewrites_concurrence_left hm ht ha hb).length_eq, (placed_runs hlen).entered_eq,
    List.length_map]
  exact Nat.add_le_add_left (rank_le ..) _

/-- An operation can be transformed past another one if there is room for what it inserts. -/
theorem exists_transform {mine theirs : Operation} {t a b : Text} (ha : mine.apply t = .ok a)
    (hb : theirs.apply t = .ok b) (hfit : mine.entered.length + b.length < Word.bound) :
    ∃ op, mine.transform theirs .left = .ok op ∧ op.apply b = .ok (mine.merge theirs t) :=
  @transform_apply mine theirs .left t a b ha hb (Nat.lt_of_le_of_lt (length_merge_le ha hb) hfit)

end Operation

end Coedit
