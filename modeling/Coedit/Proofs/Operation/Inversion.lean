import Coedit.Operation.Normal
import Coedit.Proofs.Operation.Lengths

/-!
# Inverting compositions and normal forms

To go from one branch of a document to another, one undoes `a` and does `b`. The way back undoes `b`
and does `a`. This file proves that the two ways are inverse to each other as they stand, component
for component, and stay so when they are normalized:

> `Operation.compose_inverse_comm`: if `a.inverse.compose b` is `c`, then `b.inverse.compose a` is
> `c.inverse`.

> `Operation.normalize_inverse`: the normal form of an inverse is the inverse of the normal form.

No text is spoken of: the operations need not apply to any. What makes it true is that gathering
runs forgets the order of a deletion and an insertion side by side (`Piece.onto_comm`). The two ways
meet the same runs at the text that both branches start from, but they take them in another order: a
replacement of `a` is undone in front of the characters that it deleted and done behind them. None
of these characters is kept on either way, so nothing comes between.
-/

namespace Coedit

namespace Piece

/-- The run that undoes this one. -/
def inverse : Piece → Piece
  | retain n => retain n
  | delete t => insert t
  | insert t => delete t

@[simp] theorem size_inverse (p : Piece) : p.inverse.size = p.size := by
  cases p <;> rfl

@[simp] theorem inverse_inverse (p : Piece) : p.inverse.inverse = p := by
  cases p <;> rfl

@[simp] theorem inverse_take (k : Nat) (p : Piece) : (p.take k).inverse = p.inverse.take k := by
  cases p <;> rfl

@[simp] theorem isDelete_inverse (p : Piece) : p.inverse.isDelete = p.isInsert := by
  cases p <;> rfl

theorem resume_of_le {k : Nat} {p : Piece} (h : p.size ≤ k) (ps : List Piece) :
    p.resume k ps = ps := by
  rw [resume, if_pos h]

theorem resume_of_lt {k : Nat} {p : Piece} (h : k < p.size) (ps : List Piece) :
    p.resume k ps = p.drop k :: ps := by
  rw [resume, if_neg (Nat.not_le.mpr h)]

theorem map_inverse_resume (k : Nat) (p : Piece) (ps : List Piece) :
    (p.resume k ps).map inverse = p.inverse.resume k (ps.map inverse) := by
  unfold resume
  rw [size_inverse]
  split
  · rfl
  · cases p <;> rfl

/-! ## Gathering -/

theorem onto_of_size_eq_zero {p : Piece} (h : p.size = 0) (cs : List Component) :
    p.onto cs = cs := by
  unfold onto
  exact if_pos h

/-- A deletion and an insertion side by side give the same components in either order. -/
theorem onto_comm (d i : Text) (cs : List Component) :
    (delete d).onto ((insert i).onto cs) = (insert i).onto ((delete d).onto cs) := by
  by_cases hd : d.length = 0
  · rw [onto_of_size_eq_zero (p := delete d) hd, onto_of_size_eq_zero (p := delete d) hd]
  by_cases hi : i.length = 0
  · rw [onto_of_size_eq_zero (p := insert i) hi, onto_of_size_eq_zero (p := insert i) hi]
  cases cs with
  | nil => simp [onto, size, hd, hi]
  | cons c cs => cases c <;> simp [onto, size, hd, hi]

/-- Putting the inverse run in front of inverse components gives the inverse components. -/
theorem inverse_onto (p : Piece) (cs : List Component) :
    p.inverse.onto (cs.map Component.inverse) = (p.onto cs).map Component.inverse := by
  by_cases hp : p.size = 0
  · rw [onto_of_size_eq_zero hp, onto_of_size_eq_zero (by rw [size_inverse]; exact hp)]
  cases cs with
  | nil => cases p <;> simp_all [onto, inverse, size, Component.inverse]
  | cons c cs => cases p <;> cases c <;> simp_all [onto, inverse, size, Component.inverse]

end Piece

theorem gather_append (ps qs : List Piece) :
    gather (ps ++ qs) = ps.foldr Piece.onto (gather qs) := List.foldr_append

/-- If the runs of an inverse component are those of the component undone, up to order, then the
same holds of what they gather to. -/
theorem gather_flatMap_inverse {f : Component → List Piece}
    (hf : ∀ (c : Component) (cs : List Component),
      (f c.inverse).foldr Piece.onto (cs.map Component.inverse) =
        ((f c).foldr Piece.onto cs).map Component.inverse) (cs : List Component) :
    gather ((cs.map Component.inverse).flatMap f) =
      (gather (cs.flatMap f)).map Component.inverse := by
  induction cs with
  | nil => rfl
  | cons c cs ih =>
    rw [List.map_cons, List.flatMap_cons, List.flatMap_cons, gather_append, gather_append, ih, hf]

/-! ## Composing, run by run -/

/-- The components that two lists of runs compose to. -/
def composedComponents (ps qs : List Piece) : List Component :=
  gather ((Operation.composition ps qs).flatMap Cell.composed)

section Composed

variable {p q : Piece} {ps qs : List Piece}

theorem composedComponents_nil : composedComponents [] [] = [] := by
  unfold composedComponents Operation.composition
  rw [align]
  rfl

theorem composedComponents_nil_left (q : Piece) (qs : List Piece) :
    composedComponents [] (q :: qs) = q.onto (composedComponents [] qs) := by
  unfold composedComponents Operation.composition
  rw [align]
  cases q <;> rfl

theorem composedComponents_nil_right (p : Piece) (ps : List Piece) :
    composedComponents (p :: ps) [] = p.onto (composedComponents ps []) := by
  unfold composedComponents Operation.composition
  rw [align]
  cases p <;> rfl

/-- A deletion of the first side comes before everything else. -/
theorem composedComponents_delete (d : Text) (ps qs : List Piece) :
    composedComponents (.delete d :: ps) qs =
      (Piece.delete d).onto (composedComponents ps qs) := by
  cases qs with
  | nil => exact composedComponents_nil_right _ _
  | cons q qs =>
    unfold composedComponents Operation.composition
    rw [align, if_pos ⟨rfl, Or.inl rfl⟩]
    rfl

/-- An insertion of the second side may come before everything else too: only deletions of the first
side go before it. -/
theorem composedComponents_insert (i : Text) (ps qs : List Piece) :
    composedComponents ps (.insert i :: qs) =
      (Piece.insert i).onto (composedComponents ps qs) := by
  induction ps with
  | nil => exact composedComponents_nil_left _ _
  | cons p ps ih =>
    by_cases hp : p.isDelete
    · cases p with
      | delete d => rw [composedComponents_delete, composedComponents_delete, ih, Piece.onto_comm]
      | retain n => cases hp
      | insert t => cases hp
    · unfold composedComponents Operation.composition
      rw [align, if_neg (fun h => hp h.1), if_pos (show (Piece.insert i).isInsert from rfl)]
      rfl

/-- Any other two runs are cut to the same size and pass together. -/
theorem composedComponents_both (hp : ¬ p.isDelete) (hq : ¬ q.isInsert) :
    composedComponents (p :: ps) (q :: qs) =
      (Cell.both (p.take q.size) (q.take p.size)).composed.foldr Piece.onto
        (composedComponents (p.resume q.size ps) (q.resume p.size qs)) := by
  unfold composedComponents Operation.composition
  rw [align, if_neg (fun h => hp h.1), if_neg hq, List.flatMap_cons, gather_append]

end Composed

/-! ## The order of the runs of a replacement -/

/-- What comes after the first run of the first side matters only for what it composes to. -/
theorem composedComponents_cons_congr {ps ps' : List Piece}
    (h : ∀ qs, composedComponents ps qs = composedComponents ps' qs) (p : Piece)
    (qs : List Piece) : composedComponents (p :: ps) qs = composedComponents (p :: ps') qs := by
  -- the second side is used up, or the first run is
  induction qs generalizing p with
  | nil => rw [composedComponents_nil_right, composedComponents_nil_right, h]
  | cons q qs ih =>
    by_cases hp : p.isDelete
    · cases p with
      | delete d => rw [composedComponents_delete, composedComponents_delete, h]
      | retain n => cases hp
      | insert t => cases hp
    by_cases hq : q.isInsert
    · cases q with
      | insert t => rw [composedComponents_insert, composedComponents_insert, ih]
      | retain n => cases hq
      | delete d => cases hq
    rw [composedComponents_both hp hq, composedComponents_both hp hq]
    rcases Nat.lt_or_ge q.size p.size with hsize | hsize
    · rw [Piece.resume_of_lt hsize, Piece.resume_of_lt hsize,
        Piece.resume_of_le (Nat.le_of_lt hsize), ih]
    · rw [Piece.resume_of_le hsize, Piece.resume_of_le hsize, h]

/-- A deletion behind an insertion of the first side can be moved in front of it: as long as the
insertion lasts, nothing is kept. -/
theorem composedComponents_insert_delete (d i : Text) (ps qs : List Piece) :
    composedComponents (.insert d :: .delete i :: ps) qs =
      (Piece.delete i).onto (composedComponents (.insert d :: ps) qs) := by
  induction qs generalizing d with
  | nil =>
    rw [composedComponents_nil_right, composedComponents_nil_right, composedComponents_nil_right,
      Piece.onto_comm]
  | cons q qs ih =>
    by_cases hq : q.isInsert
    · cases q with
      | insert t => rw [composedComponents_insert, composedComponents_insert, ih, Piece.onto_comm]
      | retain n => cases hq
      | delete t => cases hq
    have hp : ¬ (Piece.insert d).isDelete := Bool.false_ne_true
    have hcell : ∀ cs, (Cell.both ((Piece.insert d).take q.size)
        (q.take (Piece.insert d).size)).composed.foldr Piece.onto ((Piece.delete i).onto cs) =
        (Piece.delete i).onto ((Cell.both ((Piece.insert d).take q.size)
          (q.take (Piece.insert d).size)).composed.foldr Piece.onto cs) := by
      intro cs
      cases q with
      | insert t => exact absurd rfl hq
      | retain n => exact (Piece.onto_comm ..).symm
      | delete t => rfl
    rw [composedComponents_both hp hq, composedComponents_both hp hq, ← hcell]
    rcases Nat.lt_or_ge q.size (Piece.insert d).size with hsize | hsize
    · rw [Piece.resume_of_lt hsize, Piece.resume_of_lt hsize,
        Piece.resume_of_le (Nat.le_of_lt hsize), Piece.drop, ih]
    · rw [Piece.resume_of_le hsize, Piece.resume_of_le hsize, composedComponents_delete]

/-- The runs of inverse components compose to the same as the inverse runs, although those of a
replacement come in another order. -/
theorem composedComponents_pieces_inverse (cs : List Component) (qs : List Piece) :
    composedComponents (pieces (cs.map Component.inverse)) qs =
      composedComponents ((pieces cs).map Piece.inverse) qs := by
  induction cs generalizing qs with
  | nil => rfl
  | cons c cs ih =>
    have hcons := composedComponents_cons_congr ih
    rw [List.map_cons, pieces, pieces, List.flatMap_cons, List.flatMap_cons, List.map_append,
      ← pieces, ← pieces]
    cases c with
    | retain n =>
      by_cases hn : n = 0
      · simpa [Component.inverse, Component.pieces, Piece.size, hn] using ih qs
      · simpa [Component.inverse, Component.pieces, Piece.size, Piece.inverse, hn] using hcons _ qs
    | replace d i =>
      by_cases hd : d = []
      · by_cases hi : i = []
        · simpa [Component.inverse, Component.pieces, Piece.size, hd, hi] using ih qs
        · simpa [Component.inverse, Component.pieces, Piece.size, Piece.inverse, hd, hi]
            using hcons _ qs
      · by_cases hi : i = []
        · simpa [Component.inverse, Component.pieces, Piece.size, Piece.inverse, hd, hi]
            using hcons _ qs
        · have hswap : composedComponents (.delete i :: .insert d :: pieces (cs.map .inverse)) qs =
              composedComponents (.insert d :: .delete i :: (pieces cs).map .inverse) qs := by
            rw [composedComponents_delete, composedComponents_insert_delete, hcons]
          simpa [Component.inverse, Component.pieces, Piece.size, Piece.inverse, hd, hi] using hswap

/-! ## The way there and the way back -/

/-- Undoing a run over a stretch and doing another over it, seen from the other side. -/
theorem foldr_composed_both_inverse {p q : Piece} (hp : ¬ p.isInsert) (hq : ¬ q.isInsert)
    (hsize : p.size = q.size) (cs : List Component) :
    (Cell.both q.inverse p).composed.foldr Piece.onto (cs.map Component.inverse) =
      ((Cell.both p.inverse q).composed.foldr Piece.onto cs).map Component.inverse := by
  cases p with
  | insert t => exact absurd rfl hp
  | retain n =>
    cases q with
    | insert t => exact absurd rfl hq
    | retain m =>
      have hnm : n = m := hsize
      subst hnm
      exact Piece.inverse_onto (.retain n) cs
    | delete t => exact Piece.inverse_onto (.delete t) cs
  | delete t =>
    cases q with
    | insert u => exact absurd rfl hq
    | retain m => exact Piece.inverse_onto (.insert t) cs
    | delete u => rfl

/-- **The way back is the inverse of the way there**, for runs. The induction follows the alignment
of both sides at the text that they start from. -/
theorem composedComponents_inverse_comm (ps qs : List Piece) :
    composedComponents (qs.map Piece.inverse) ps =
      (composedComponents (ps.map Piece.inverse) qs).map Component.inverse := by
  fun_induction align Piece.isInsert Piece.isInsert .left ps qs with
  | case1 => rw [List.map_nil, composedComponents_nil, List.map_nil]
  | case2 p ps ih =>
    rw [List.map_nil] at ih ⊢
    rw [List.map_cons, composedComponents_nil_left, composedComponents_nil_right, ih,
      ← Piece.inverse_onto, Piece.inverse_inverse]
  | case3 q qs ih =>
    rw [List.map_nil] at ih ⊢
    rw [List.map_cons, composedComponents_nil_left, composedComponents_nil_right, ih,
      ← Piece.inverse_onto]
  | case4 p ps q qs hfree ih =>
    cases p with
    | retain n => exact absurd hfree.1 Bool.false_ne_true
    | delete d => exact absurd hfree.1 Bool.false_ne_true
    | insert i =>
      rw [composedComponents_insert, ih, List.map_cons (a := Piece.insert i), Piece.inverse,
        composedComponents_delete, ← Piece.inverse_onto, Piece.inverse]
  | case5 p ps q qs _ hfree ih =>
    cases q with
    | retain n => exact absurd hfree Bool.false_ne_true
    | delete d => exact absurd hfree Bool.false_ne_true
    | insert i =>
      rw [composedComponents_insert, List.map_cons (a := Piece.insert i), Piece.inverse,
        composedComponents_delete, ← Piece.inverse_onto, ih, Piece.inverse]
  | case6 p ps q qs hleft hright ih =>
    have hp : ¬ p.isInsert := fun h => hleft ⟨h, Or.inl rfl⟩
    have hpd : ¬ p.inverse.isDelete := by rw [Piece.isDelete_inverse]; exact hp
    have hqd : ¬ q.inverse.isDelete := by rw [Piece.isDelete_inverse]; exact hright
    have hsize : (p.take q.size).size = (q.take p.size).size := by
      rw [Piece.size_take, Piece.size_take, Nat.min_comm]
    rw [List.map_cons, List.map_cons, composedComponents_both hqd hp,
      composedComponents_both hpd hright, Piece.size_inverse, Piece.size_inverse,
      ← Piece.map_inverse_resume, ← Piece.map_inverse_resume, ih, ← Piece.inverse_take,
      ← Piece.inverse_take]
    exact foldr_composed_both_inverse (by rw [Piece.isInsert_take]; exact hp)
      (by rw [Piece.isInsert_take]; exact hright) hsize _

namespace Operation

theorem ofComponents_components (op : Operation) : ofComponents op.components = .ok op := by
  rw [ofComponents, dif_pos ⟨op.inputLength_lt, op.outputLength_lt⟩]

/-- The composition of two operations with components has what their runs compose to. -/
theorem components_of_compose {a b c : Operation} (ha : ¬ a.isEmpty) (hb : ¬ b.isEmpty)
    (h : a.compose b = .ok c) : c.components = composedComponents a.pieces b.pieces := by
  rw [compose, if_neg ha, if_neg hb] at h
  split at h
  · exact components_of_ofComponents h
  · cases h

@[simp] theorem inverse_empty : empty.inverse = empty := rfl

@[simp] theorem isEmpty_inverse (op : Operation) : op.inverse.isEmpty = op.isEmpty :=
  List.isEmpty_map

@[simp] theorem inverse_inverse (op : Operation) : op.inverse.inverse = op := by
  have hid : Component.inverse ∘ Component.inverse = id := by
    funext c
    cases c <;> rfl
  apply ext
  show (op.components.map Component.inverse).map Component.inverse = op.components
  rw [List.map_map, hid, List.map_id]

/-- **Undoing `a` and doing `b` is undone by undoing `b` and doing `a`.** The two compositions are
inverse to each other component for component, also where one of the operations is empty and the
other is taken over unmerged. -/
theorem compose_inverse_comm {a b c : Operation} (h : a.inverse.compose b = .ok c) :
    b.inverse.compose a = .ok c.inverse := by
  by_cases ha : a.isEmpty
  · rw [eq_empty_of_isEmpty ha] at h ⊢
    rw [inverse_empty, compose_empty_left] at h
    cases h
    exact compose_empty_right _
  by_cases hb : b.isEmpty
  · rw [eq_empty_of_isEmpty hb] at h ⊢
    rw [compose_empty_right] at h
    cases h
    rw [inverse_empty, compose_empty_left, inverse_inverse]
  have hc : c.components = composedComponents a.inverse.pieces b.pieces :=
    components_of_compose (by rw [isEmpty_inverse]; exact ha) hb h
  unfold compose at h ⊢
  rw [isEmpty_inverse, if_neg ha, if_neg hb, lenAfter_inverse] at h
  rw [isEmpty_inverse, if_neg ha, if_neg hb, lenAfter_inverse]
  split at h
  · next hlen =>
    -- both ways gather the same components, and those of `c` have lengths that fit
    have hback : composedComponents b.inverse.pieces a.pieces = c.inverse.components := by
      show composedComponents (Coedit.pieces (b.components.map Component.inverse))
        (Coedit.pieces a.components) = c.components.map Component.inverse
      rw [hc, pieces, pieces, inverse, composedComponents_pieces_inverse,
        composedComponents_pieces_inverse, composedComponents_inverse_comm]
    rw [if_pos hlen.symm]
    show ofComponents (composedComponents b.inverse.pieces a.pieces) = .ok c.inverse
    rw [hback, ofComponents_components]
  · cases h

end Operation

/-! ## Normal forms -/

theorem Text.sharedStart_comm (s t : Text) : sharedStart s t = sharedStart t s := by
  fun_induction sharedStart s t with
  | case1 a as bs ih => rw [sharedStart, if_pos rfl, ih]
  | case2 a as b bs hab => rw [sharedStart, if_neg (Ne.symm hab)]
  | case3 s t hnil =>
    cases s with
    | nil => cases t <;> rfl
    | cons a as =>
      cases t with
      | nil => rfl
      | cons b bs => exact absurd rfl (hnil a as b bs rfl)

theorem Text.sharedEnd_comm (s t : Text) : sharedEnd s t = sharedEnd t s := sharedStart_comm ..

namespace Piece

theorem foldr_onto_map_inverse (ps : List Piece) (cs : List Component) :
    (ps.map inverse).foldr onto (cs.map Component.inverse) =
      (ps.foldr onto cs).map Component.inverse := by
  induction ps with
  | nil => rfl
  | cons p ps ih => rw [List.map_cons, List.foldr_cons, List.foldr_cons, ih, inverse_onto]

theorem foldr_onto_filter (ps : List Piece) (cs : List Component) :
    (ps.filter fun p => p.size != 0).foldr onto cs = ps.foldr onto cs := by
  induction ps with
  | nil => rfl
  | cons p ps ih =>
    by_cases hp : p.size = 0
    · rw [List.filter_cons_of_neg (by simpa using hp), List.foldr_cons, onto_of_size_eq_zero hp, ih]
    · rw [List.filter_cons_of_pos (by simpa using hp), List.foldr_cons, List.foldr_cons, ih]

/-- The change from `new` to `old` shares the same ends as the one from `old` to `new`. -/
theorem foldr_onto_changing (old new : Text) (cs : List Component) :
    (changing new old).foldr onto cs = ((changing old new).map inverse).foldr onto cs := by
  unfold changing
  simp only [Text.sharedStart_comm new old, Text.sharedEnd_comm (new.drop _)]
  simp only [List.map_cons, List.map_nil, List.foldr_cons, List.foldr_nil, inverse, onto_comm]

end Piece

namespace Component

theorem foldr_onto_pieces_inverse (c : Component) (cs : List Component) :
    c.inverse.pieces.foldr Piece.onto (cs.map inverse) =
      (c.pieces.foldr Piece.onto cs).map inverse := by
  cases c with
  | retain n =>
    rw [inverse, pieces, Piece.foldr_onto_filter, Piece.foldr_onto_filter]
    exact Piece.inverse_onto (.retain n) cs
  | replace d i =>
    rw [inverse, pieces, pieces, Piece.foldr_onto_filter, Piece.foldr_onto_filter,
      ← Piece.foldr_onto_map_inverse]
    exact Piece.onto_comm i d _

theorem foldr_onto_trimmed_inverse (c : Component) (cs : List Component) :
    c.inverse.trimmed.foldr Piece.onto (cs.map inverse) =
      (c.trimmed.foldr Piece.onto cs).map inverse := by
  cases c with
  | retain n => exact Piece.inverse_onto (.retain n) cs
  | replace d i =>
    rw [inverse, trimmed, trimmed, Piece.foldr_onto_changing, Piece.foldr_onto_map_inverse]

theorem isRetain_inverse (c : Component) : c.inverse.isRetain = c.isRetain := by
  cases c <;> rfl

end Component

theorem trimComponents_inverse (cs : List Component) :
    trimComponents (cs.map Component.inverse) = (trimComponents cs).map Component.inverse := by
  have hmerged : gather (pieces (cs.map Component.inverse)) =
      (gather (pieces cs)).map Component.inverse :=
    gather_flatMap_inverse Component.foldr_onto_pieces_inverse cs
  rw [trimComponents, hmerged]
  exact gather_flatMap_inverse Component.foldr_onto_trimmed_inverse _

/-- **Normalizing commutes with inverting.** -/
theorem Operation.normalize_inverse (op : Operation) :
    op.inverse.normalize = op.normalize.inverse := by
  have hall : ((trimComponents op.components).map Component.inverse).all Component.isRetain =
      (trimComponents op.components).all Component.isRetain := by
    rw [List.all_map]
    exact congrArg _ (funext Component.isRetain_inverse)
  apply Operation.ext
  unfold normalize
  simp only [inverse, trimComponents_inverse, hall]
  split
  · rfl
  · rfl

end Coedit
