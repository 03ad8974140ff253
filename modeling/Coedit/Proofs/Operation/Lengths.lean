import Coedit.Operation.Compose
import Coedit.Proofs.Operation.Composition
import Mathlib.Data.List.Chain

/-!
# Composing by lengths alone

Whether two operations compose is decided by their lengths. What the second one deletes need not be
what the first one inserted, and then no text goes through both; they still have a composition, and
its lengths are the outer ones:

> `Operation.compose_lengths`: if `a` ends with the length that `b` starts from, `a.compose b` is an
> operation from the length that `a` starts from to the length that `b` ends with.

The argument counts characters along the alignment (`total_composition`): every cell adds to the
composition what it takes from the two sides.

The operations of a history are *linked*: each one that is not empty starts from the length that
the one before it ends with, where empty operations do not count. Linked operations compose, however
many there are (`Operation.composeAll_linked`). On the way the composition may lose all of its
components, and from then on it would fit anything; its lengths are both zero then, so what comes
next starts from length zero, and nothing is lost.
-/

namespace Coedit

namespace Piece

theorem lenBefore_of_size_eq_zero {p : Piece} (h : p.size = 0) : p.lenBefore = 0 := by
  cases p with
  | retain n => exact h
  | delete d => exact h
  | insert i => rfl

theorem lenAfter_of_size_eq_zero {p : Piece} (h : p.size = 0) : p.lenAfter = 0 := by
  cases p with
  | retain n => exact h
  | delete d => rfl
  | insert i => exact h

theorem lenBefore_take_add_drop (k : Nat) (p : Piece) :
    (p.take k).lenBefore + (p.drop k).lenBefore = p.lenBefore := by
  cases p with
  | retain n =>
    show min k n + (n - k) = n
    omega
  | delete d =>
    show (d.take k).length + (d.drop k).length = d.length
    rw [List.length_take, List.length_drop]
    omega
  | insert i => rfl

theorem lenAfter_take_add_drop (k : Nat) (p : Piece) :
    (p.take k).lenAfter + (p.drop k).lenAfter = p.lenAfter := by
  cases p with
  | retain n =>
    show min k n + (n - k) = n
    omega
  | delete d => rfl
  | insert i =>
    show (i.take k).length + (i.drop k).length = i.length
    rw [List.length_take, List.length_drop]
    omega

/-- Cutting the first run in two loses no characters, whichever are counted. -/
theorem total_resume {f : Piece → Nat} (hempty : ∀ p : Piece, p.size = 0 → f p = 0)
    (hcut : ∀ (k : Nat) (p : Piece), f (p.take k) + f (p.drop k) = f p) (k : Nat) (p : Piece)
    (ps : List Piece) : f (p.take k) + total f (p.resume k ps) = f p + total f ps := by
  have hp := hcut k p
  unfold resume
  split
  · next hk =>
    have hrest := hempty (p.drop k) (by rw [size_drop]; omega)
    omega
  · rw [total_cons]
    omega

theorem total_lenBefore_resume (k : Nat) (p : Piece) (ps : List Piece) :
    (p.take k).lenBefore + total lenBefore (p.resume k ps) = p.lenBefore + total lenBefore ps :=
  total_resume (fun _ => lenBefore_of_size_eq_zero) lenBefore_take_add_drop k p ps

theorem total_lenAfter_resume (k : Nat) (p : Piece) (ps : List Piece) :
    (p.take k).lenAfter + total lenAfter (p.resume k ps) = p.lenAfter + total lenAfter ps :=
  total_resume (fun _ => lenAfter_of_size_eq_zero) lenAfter_take_add_drop k p ps

end Piece

/-- A run of the first operation and a run of the second over the same stretch of the text in
between contribute what the one consumes and what the other produces. -/
theorem total_composed_both {p q : Piece} (hp : ¬ p.isDelete) (hq : ¬ q.isInsert)
    (hsize : p.size = q.size) :
    total Piece.lenBefore (Cell.both p q).composed = p.lenBefore ∧
      total Piece.lenAfter (Cell.both p q).composed = q.lenAfter := by
  cases p with
  | delete d => exact absurd rfl hp
  | retain n =>
    cases q with
    | insert i => exact absurd rfl hq
    | retain m => exact ⟨rfl, hsize⟩
    | delete d => exact ⟨hsize.symm, rfl⟩
  | insert i =>
    cases q with
    | insert j => exact absurd rfl hq
    | retain m => exact ⟨rfl, hsize⟩
    | delete d => exact ⟨rfl, rfl⟩

/-- **The aligned runs have the outer lengths.** The induction follows the alignment; the invariant
is that what is left of both sides covers the same number of characters in between. -/
theorem total_composition {ps qs : List Piece}
    (h : total Piece.lenAfter ps = total Piece.lenBefore qs) :
    total Piece.lenBefore ((Operation.composition ps qs).flatMap Cell.composed) =
        total Piece.lenBefore ps ∧
      total Piece.lenAfter ((Operation.composition ps qs).flatMap Cell.composed) =
        total Piece.lenAfter qs := by
  unfold Operation.composition
  fun_induction align Piece.isDelete Piece.isInsert .left ps qs with
  | case1 => exact ⟨rfl, rfl⟩
  | case2 p ps ih =>
    have hcell : (if p.isDelete then Cell.left p else .strayLeft p).composed = [p] := by
      split <;> rfl
    rw [total_cons, total_nil] at h
    obtain ⟨hbefore, hafter⟩ := ih (by rw [total_nil]; omega)
    rw [List.flatMap_cons, hcell, List.singleton_append, total_cons, total_cons, total_cons,
      hbefore, hafter, total_nil]
    omega
  | case3 q qs ih =>
    have hcell : (if q.isInsert then Cell.right q else .strayRight q).composed = [q] := by
      split <;> rfl
    rw [total_cons, total_nil] at h
    obtain ⟨hbefore, hafter⟩ := ih (by rw [total_nil]; omega)
    rw [List.flatMap_cons, hcell, List.singleton_append, total_cons, total_cons, total_cons,
      hbefore, hafter, total_nil]
    omega
  | case4 p ps q qs hfree ih =>
    cases p with
    | retain n => exact absurd hfree.1 Bool.false_ne_true
    | insert i => exact absurd hfree.1 Bool.false_ne_true
    | delete d =>
      rw [total_cons, show (Piece.delete d).lenAfter = 0 from rfl, Nat.zero_add] at h
      obtain ⟨hbefore, hafter⟩ := ih h
      rw [List.flatMap_cons, show (Cell.left (.delete d)).composed = [.delete d] from rfl,
        List.singleton_append, total_cons Piece.lenBefore, total_cons Piece.lenAfter, hbefore,
        hafter]
      exact ⟨rfl, Nat.zero_add _⟩
  | case5 p ps q qs _ hfree ih =>
    cases q with
    | retain n => exact absurd hfree Bool.false_ne_true
    | delete d => exact absurd hfree Bool.false_ne_true
    | insert i =>
      rw [total_cons _ (Piece.insert i), show (Piece.insert i).lenBefore = 0 from rfl,
        Nat.zero_add] at h
      obtain ⟨hbefore, hafter⟩ := ih h
      rw [List.flatMap_cons, show (Cell.right (.insert i)).composed = [.insert i] from rfl,
        List.singleton_append, total_cons Piece.lenBefore, total_cons Piece.lenAfter, hbefore,
        hafter]
      exact ⟨Nat.zero_add _, rfl⟩
  | case6 p ps q qs hleft hright ih =>
    have hpd : ¬ (p.take q.size).isDelete := by
      rw [Piece.isDelete_take]
      intro hd
      exact hleft ⟨hd, Or.inl rfl⟩
    have hqi : ¬ (q.take p.size).isInsert := by
      rw [Piece.isInsert_take]
      exact hright
    have hsize : (p.take q.size).size = (q.take p.size).size := by
      rw [Piece.size_take, Piece.size_take, Nat.min_comm]
    obtain ⟨hcell, hcell'⟩ := total_composed_both hpd hqi hsize
    have hpb := Piece.total_lenBefore_resume q.size p ps
    have hpa := Piece.total_lenAfter_resume q.size p ps
    have hqb := Piece.total_lenBefore_resume p.size q qs
    have hqa := Piece.total_lenAfter_resume p.size q qs
    -- the cut runs cover as many characters in between, so the rests still do
    have hmid : (p.take q.size).lenAfter = (q.take p.size).lenBefore := by
      rw [Piece.lenAfter_eq_size hpd, Piece.lenBefore_eq_size hqi, hsize]
    rw [total_cons, total_cons] at h
    obtain ⟨hbefore, hafter⟩ := ih (by omega)
    rw [List.flatMap_cons, total_append, total_append, hcell, hcell', hbefore, hafter, total_cons,
      total_cons]
    exact ⟨hpb, hqa⟩

namespace Operation

theorem total_lenBefore_runs (op : Operation) : total Piece.lenBefore op.pieces = op.lenBefore :=
  total_lenBefore_pieces op.components

theorem total_lenAfter_runs (op : Operation) : total Piece.lenAfter op.pieces = op.lenAfter :=
  total_lenAfter_pieces op.components

theorem eq_empty_of_isEmpty {op : Operation} (h : op.isEmpty) : op = empty :=
  ext (List.isEmpty_iff.mp h)

theorem compose_empty_left (op : Operation) : empty.compose op = .ok op := rfl

theorem compose_empty_right (op : Operation) : op.compose empty = .ok op := by
  unfold compose
  split
  · next h => rw [eq_empty_of_isEmpty h]
  · rfl

/-- Runs whose lengths are words amount to an operation with these lengths. -/
theorem exists_ofPieces {runs : List Piece} (hbefore : total Piece.lenBefore runs < Word.bound)
    (hafter : total Piece.lenAfter runs < Word.bound) :
    ∃ op, ofPieces runs = .ok op ∧ op.lenBefore = total Piece.lenBefore runs ∧
      op.lenAfter = total Piece.lenAfter runs := by
  rw [← inputLength_gather] at hbefore ⊢
  rw [← outputLength_gather] at hafter ⊢
  exact ⟨⟨gather runs, hbefore, hafter⟩, dif_pos ⟨hbefore, hafter⟩, rfl, rfl⟩

/-- Operations whose lengths meet compose, and the composition leads from the first length to the
last. -/
theorem compose_lengths {a b : Operation} (h : a.lenAfter = b.lenBefore) :
    ∃ c, a.compose b = .ok c ∧ c.lenBefore = a.lenBefore ∧ c.lenAfter = b.lenAfter := by
  by_cases ha : a.isEmpty
  · have ha := eq_empty_of_isEmpty ha
    subst ha
    exact ⟨b, compose_empty_left b, h.symm, rfl⟩
  by_cases hb : b.isEmpty
  · have hb := eq_empty_of_isEmpty hb
    subst hb
    exact ⟨a, compose_empty_right a, rfl, h⟩
  obtain ⟨hbefore, hafter⟩ := @total_composition a.pieces b.pieces (by
    rw [total_lenAfter_runs, total_lenBefore_runs, h])
  rw [total_lenBefore_runs] at hbefore
  rw [total_lenAfter_runs] at hafter
  obtain ⟨c, hc, hcbefore, hcafter⟩ := exists_ofPieces (by rw [hbefore]; exact a.lenBefore_lt)
    (by rw [hafter]; exact b.lenAfter_lt)
  refine ⟨c, ?_, hcbefore.trans hbefore, hcafter.trans hafter⟩
  rw [compose, if_neg ha, if_neg hb, if_pos h, hc]

/-! ## Linked operations -/

/-- The operations that are not empty. -/
def changes (ops : List Operation) : List Operation := ops.filter fun op => !op.isEmpty

/-- Each operation that is not empty starts from the length that the one before it ends with. -/
def Linked (ops : List Operation) : Prop :=
  (changes ops).IsChain fun a b => a.lenAfter = b.lenBefore

theorem changes_cons_of_isEmpty {op : Operation} (h : op.isEmpty) (ops : List Operation) :
    changes (op :: ops) = changes ops :=
  List.filter_cons_of_neg (by simpa using h)

theorem changes_cons {op : Operation} (h : ¬ op.isEmpty) (ops : List Operation) :
    changes (op :: ops) = op :: changes ops :=
  List.filter_cons_of_pos (by simpa using h)

theorem changes_append (ops later : List Operation) :
    changes (ops ++ later) = changes ops ++ changes later := List.filter_append ..

/-- A stretch of linked operations is linked. -/
theorem Linked.infix {ops part : List Operation} (h : Linked ops) (hpart : part <:+: ops) :
    Linked part := by
  obtain ⟨front, back, rfl⟩ := hpart
  unfold Linked at h
  rw [changes_append, changes_append] at h
  exact h.left_of_append.right_of_append

/-- Linked operations compose onto one that ends where they start. -/
theorem foldlM_compose_linked {ops : List Operation} {acc : Operation} (h : Linked ops)
    (hfit : ∀ op ∈ (changes ops).head?, acc.lenAfter = op.lenBefore) :
    ∃ c, ops.foldlM compose acc = .ok c ∧ c.lenBefore = acc.lenBefore ∧
      c.lenAfter = ((changes ops).getLast?.getD acc).lenAfter := by
  induction ops generalizing acc with
  | nil => exact ⟨acc, rfl, rfl, rfl⟩
  | cons op ops ih =>
    rw [List.foldlM_cons]
    unfold Linked at h
    by_cases hop : op.isEmpty
    · rw [changes_cons_of_isEmpty hop] at h hfit ⊢
      rw [eq_empty_of_isEmpty hop, compose_empty_right]
      exact ih h hfit
    · rw [changes_cons hop] at h hfit ⊢
      obtain ⟨hnext, hrest⟩ := List.isChain_cons.mp h
      obtain ⟨c, hc, hbefore, hafter⟩ := compose_lengths (hfit op rfl)
      obtain ⟨d, hd, hdb, hda⟩ := @ih c hrest (by
        intro next hmem
        rw [hafter]
        exact hnext next hmem)
      refine ⟨d, bind_eq_ok.mpr ⟨c, hc, hd⟩, hdb.trans hbefore, ?_⟩
      rw [hda, List.getLast?_cons]
      cases hlast : (changes ops).getLast? with
      | none => exact hafter
      | some last => rfl

/-- **Linked operations have a composition.** It is empty if they all are, and otherwise it leads
from the length that the first change starts from to the length that the last one ends with. -/
theorem composeAll_linked {ops : List Operation} (h : Linked ops) :
    ∃ c, composeAll ops = .ok c ∧ (changes ops = [] → c = empty) ∧
      (∀ first ∈ (changes ops).head?, c.lenBefore = first.lenBefore) ∧
      ∀ last ∈ (changes ops).getLast?, c.lenAfter = last.lenAfter := by
  unfold composeAll
  induction ops with
  | nil =>
    refine ⟨empty, rfl, fun _ => rfl, ?_, ?_⟩
    · intro first hfirst
      cases hfirst
    · intro last hlast
      cases hlast
  | cons op ops ih =>
    rw [List.foldlM_cons, compose_empty_left]
    unfold Linked at h ih
    by_cases hop : op.isEmpty
    · rw [changes_cons_of_isEmpty hop] at h ⊢
      rw [eq_empty_of_isEmpty hop]
      exact ih h
    · rw [changes_cons hop] at h ⊢
      obtain ⟨hnext, hrest⟩ := List.isChain_cons.mp h
      obtain ⟨c, hc, hbefore, hafter⟩ := @foldlM_compose_linked ops op hrest hnext
      refine ⟨c, hc, ?_, ?_, ?_⟩
      · intro hnil
        cases hnil
      · intro first hfirst
        cases hfirst
        exact hbefore
      · intro last hlast
        rw [List.getLast?_cons] at hlast
        cases hlast
        exact hafter

end Operation

end Coedit
