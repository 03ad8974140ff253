import Coedit.Proofs.Operation.Gathering
import Coedit.Proofs.Operation.Merge

/-!
# Composing and transforming by lengths alone

Composing and transforming walk over the runs of two operations and cut them where they overlap.
What is cut off a run comes back as the next one, so it is not plain that the walk ends, nor that
both sides end together. This file shows it, for any two operations whose lengths meet, whatever
their texts are:

> `length_align_le`: every step uses up a run of one side, so there are no more steps than runs.

> `not_isStray_of_mem_align`: if the runs of both sides cover the same number of shared characters,
> no run is left over.

The second one needs an invariant of the walk, and it is the hypothesis itself: what is left of the
two sides still covers the same number of characters (`Piece.total_shared_resume_eq`). The same
invariant carries whatever is said of what comes out, by one lemma for each kind of step
(`concurrence_induction`), and so the count of it (`Counted`).
After both of two concurrent operations there stands what either inserts and what neither deletes,
`Operation.mergedLength`, whichever side of a tie the one or the other takes.
-/

namespace Coedit

/-- Is the cell a run that one side has left over? -/
def Cell.isStray : Cell → Bool
  | strayLeft _ => true
  | strayRight _ => true
  | _ => false

/-! ## The walk -/

namespace Piece

/-- The number of characters of the run in the shared text. -/
def shared (free : Piece → Bool) (p : Piece) : Nat := if free p then 0 else p.size

theorem shared_isDelete : shared isDelete = lenAfter := by
  funext p
  cases p <;> rfl

theorem shared_isInsert : shared isInsert = lenBefore := by
  funext p
  cases p <;> rfl

theorem free_of_shared_eq_zero {free : Piece → Bool} {p : Piece} (hp : p.size ≠ 0)
    (h : p.shared free = 0) : free p := by
  by_contra hfree
  rw [shared, if_neg hfree] at h
  exact hp h

theorem length_resume_le (k : Nat) (p : Piece) (ps : List Piece) :
    (p.resume k ps).length ≤ ps.length + 1 := by
  unfold resume
  split
  · exact Nat.le_succ _
  · exact Nat.le_refl _

theorem total_shared_resume {free : Piece → Bool} (hfree : ∀ k p, free (p.drop k) = free p)
    {p : Piece} (hp : ¬ free p) (k : Nat) (ps : List Piece) :
    total (shared free) (p.resume k ps) = p.size - k + total (shared free) ps := by
  unfold resume
  split
  · omega
  · rw [total_cons, shared, if_neg (by rw [hfree]; exact hp), size_drop]

/-- **The balance is kept.** Two runs that meet are cut to the same size, so if the two sides
covered the same number of shared characters before, they do so behind the cut. -/
theorem total_shared_resume_eq {freeLeft freeRight : Piece → Bool}
    (hleft : ∀ k p, freeLeft (p.drop k) = freeLeft p)
    (hright : ∀ k q, freeRight (q.drop k) = freeRight q) {p q : Piece} (hp : ¬ freeLeft p)
    (hq : ¬ freeRight q) {ps qs : List Piece}
    (h : total (shared freeLeft) (p :: ps) = total (shared freeRight) (q :: qs)) :
    total (shared freeLeft) (p.resume q.size ps) =
      total (shared freeRight) (q.resume p.size qs) := by
  rw [total_cons, total_cons, shared, shared, if_neg hp, if_neg hq] at h
  rw [total_shared_resume hleft hp, total_shared_resume hright hq]
  omega

end Piece

section Align

variable {freeLeft freeRight : Piece → Bool} {first : Side} {ps qs : List Piece}

/-- **The walk ends.** Two runs that meet are cut to the size of the shorter one, which is used up,
and a free run is used up by itself. -/
theorem length_align_le :
    (align freeLeft freeRight first ps qs).length ≤ ps.length + qs.length := by
  fun_induction align freeLeft freeRight first ps qs with
  | case1 => exact Nat.le_refl _
  | case2 p ps ih =>
    simp only [List.length_cons, List.length_nil] at ih ⊢
    omega
  | case3 q qs ih =>
    simp only [List.length_cons, List.length_nil] at ih ⊢
    omega
  | case4 p ps q qs _ ih =>
    simp only [List.length_cons] at ih ⊢
    omega
  | case5 p ps q qs _ _ ih =>
    simp only [List.length_cons] at ih ⊢
    omega
  | case6 p ps q qs _ _ ih =>
    have hp := Piece.length_resume_le q.size p ps
    have hq := Piece.length_resume_le p.size q qs
    simp only [List.length_cons]
    rcases Nat.le_total p.size q.size with hsize | hsize
    · have hused := congrArg List.length (Piece.resume_of_le hsize ps)
      omega
    · have hused := congrArg List.length (Piece.resume_of_le hsize qs)
      omega

/-- **No run is left over.** The invariant is the balance of the two sides; a run that has
characters in the shared text cannot be without a counterpart. -/
theorem not_isStray_of_mem_align (hleft : ∀ k p, freeLeft (p.drop k) = freeLeft p)
    (hright : ∀ k q, freeRight (q.drop k) = freeRight q) (hps : ∀ p ∈ ps, p.size ≠ 0)
    (hqs : ∀ q ∈ qs, q.size ≠ 0)
    (h : total (Piece.shared freeLeft) ps = total (Piece.shared freeRight) qs) :
    ∀ cell ∈ align freeLeft freeRight first ps qs, ¬ cell.isStray := by
  fun_induction align freeLeft freeRight first ps qs with
  | case1 => exact fun cell hcell => absurd hcell List.not_mem_nil
  | case2 p ps ih =>
    obtain ⟨hp, hrest⟩ := List.forall_mem_cons.mp hps
    rw [total_cons, total_nil, Nat.add_eq_zero_iff] at h
    rw [if_pos (Piece.free_of_shared_eq_zero hp h.1)]
    exact List.forall_mem_cons.mpr ⟨Bool.false_ne_true, ih hrest hqs h.2⟩
  | case3 q qs ih =>
    obtain ⟨hq, hrest⟩ := List.forall_mem_cons.mp hqs
    rw [total_cons, total_nil, eq_comm, Nat.add_eq_zero_iff] at h
    rw [if_pos (Piece.free_of_shared_eq_zero hq h.1)]
    exact List.forall_mem_cons.mpr ⟨Bool.false_ne_true, ih hps hrest h.2.symm⟩
  | case4 p ps q qs hfree ih =>
    rw [total_cons, Piece.shared, if_pos hfree.1, Nat.zero_add] at h
    exact List.forall_mem_cons.mpr
      ⟨Bool.false_ne_true, ih (List.forall_mem_cons.mp hps).2 hqs h⟩
  | case5 p ps q qs _ hfree ih =>
    rw [total_cons _ q, Piece.shared.eq_def _ q, if_pos hfree, Nat.zero_add] at h
    exact List.forall_mem_cons.mpr
      ⟨Bool.false_ne_true, ih hps (List.forall_mem_cons.mp hqs).2 h⟩
  | case6 p ps q qs hfree hq ih =>
    have hp : ¬ freeLeft p := fun hp => hfree ⟨hp, Or.inr hq⟩
    exact List.forall_mem_cons.mpr ⟨Bool.false_ne_true, ih (Piece.size_ne_zero_of_mem_resume hps)
      (Piece.size_ne_zero_of_mem_resume hqs) (Piece.total_shared_resume_eq hleft hright hp hq h)⟩

end Align

/-! ## What is inserted -/

/-- The text that the component inserts. -/
def Component.inserted : Component → Text
  | retain _ => []
  | replace _ i => i

/-- The text that the run inserts. -/
def Piece.inserted : Piece → Text
  | insert t => t
  | _ => []

namespace Piece

theorem inserted_of_not_isInsert {p : Piece} (h : ¬ p.isInsert) : p.inserted = [] := by
  cases p with
  | insert t => exact absurd rfl h
  | retain n => rfl
  | delete t => rfl

theorem flatMap_inserted_resume {p : Piece} (h : ¬ p.isInsert) (k : Nat) (ps : List Piece) :
    (p.resume k ps).flatMap inserted = ps.flatMap inserted := by
  unfold resume
  split
  · rfl
  · rw [List.flatMap_cons, inserted_of_not_isInsert (by rw [isInsert_drop]; exact h),
      List.nil_append]

theorem flatMap_inserted_onto (p : Piece) (cs : List Component) :
    (p.onto cs).flatMap Component.inserted = p.inserted ++ cs.flatMap Component.inserted := by
  by_cases hp : p.size = 0
  · rw [onto_of_size_eq_zero hp]
    cases p <;> simp_all [inserted, size]
  · cases cs with
    | nil => cases p <;> simp_all [onto, inserted, size, Component.inserted]
    | cons c cs => cases p <;> cases c <;> simp_all [onto, inserted, size, Component.inserted]

end Piece

/-- Gathering keeps insertions in their order. -/
theorem flatMap_inserted_gather (ps : List Piece) :
    (gather ps).flatMap Component.inserted = ps.flatMap Piece.inserted := by
  induction ps with
  | nil => rfl
  | cons p ps ih => rw [gather_cons, p.flatMap_inserted_onto, ih, List.flatMap_cons]

theorem flatMap_inserted_pieces (cs : List Component) :
    (pieces cs).flatMap Piece.inserted = cs.flatMap Component.inserted := by
  induction cs with
  | nil => rfl
  | cons c cs ih =>
    rw [pieces, List.flatMap_cons, List.flatMap_append, ← pieces, ih, List.flatMap_cons]
    congr 1
    cases c with
    | retain n =>
      by_cases hn : n = 0 <;>
        simp [Component.pieces, Piece.size, hn, Piece.inserted, Component.inserted]
    | replace d i =>
      by_cases hd : d = [] <;> by_cases hi : i = [] <;>
        simp [Component.pieces, Piece.size, hd, hi, Piece.inserted, Component.inserted]

/-- What mine inserts is inserted by mine after theirs, in the same order. -/
theorem flatMap_inserted_concurrence (side : Side) (ps qs : List Piece) :
    ((Operation.concurrence side ps qs).flatMap Cell.transformed).flatMap Piece.inserted =
      ps.flatMap Piece.inserted := by
  unfold Operation.concurrence
  fun_induction align Piece.isInsert Piece.isInsert side ps qs with
  | case1 => rfl
  | case2 p ps ih =>
    have hcell : (if p.isInsert then Cell.left p else .strayLeft p).transformed = [p] := by
      split <;> rfl
    rw [List.flatMap_cons, hcell, List.singleton_append, List.flatMap_cons, ih, List.flatMap_cons]
  | case3 q qs ih =>
    have hcell : (if q.isInsert then Cell.right q else .strayRight q).transformed.flatMap
        Piece.inserted = [] := by
      split <;> rfl
    rw [List.flatMap_cons, List.flatMap_append, hcell, List.nil_append, ih]
  | case4 p ps q qs _ ih =>
    rw [List.flatMap_cons, List.flatMap_append, ih, List.flatMap_cons (x := p)]
    simp [Cell.transformed]
  | case5 p ps q qs _ _ ih => exact ih
  | case6 p ps q qs hleft hq ih =>
    have hp : ¬ p.isInsert := fun hp => hleft ⟨hp, Or.inr hq⟩
    have hcell : (Cell.both (p.take q.size) (q.take p.size)).transformed.flatMap Piece.inserted =
        [] := by
      cases p with
      | insert t => exact absurd rfl hp
      | retain n => cases q <;> rfl
      | delete t => cases q <;> rfl
    rw [List.flatMap_cons, List.flatMap_append, hcell, List.nil_append, ih,
      Piece.flatMap_inserted_resume hp, List.flatMap_cons, Piece.inserted_of_not_isInsert hp,
      List.nil_append]

/-! ## Counting what comes out -/

namespace Piece

/-- The number of characters among the first `n` that neither of two lists of runs deletes. -/
def keptByBoth (mine theirs : List Piece) (n : Nat) : Nat :=
  (List.range n).countP fun k => keepsAt mine k && keepsAt theirs k

/-- Two runs over the same stretch keep all of it or none, and the count goes on with what is left
of them. -/
theorem keptByBoth_cut {p q : Piece} (hp : ¬ p.isInsert) (hq : ¬ q.isInsert)
    (mine theirs : List Piece) (n : Nat) :
    keptByBoth (p :: mine) (q :: theirs) (min q.size p.size + n) =
      (if !p.isDelete && !q.isDelete then min q.size p.size else 0) +
        keptByBoth (p.resume q.size mine) (q.resume p.size theirs) n := by
  unfold keptByBoth
  rw [List.range_add, List.countP_append, List.countP_map]
  congr 1
  · have hstretch : ∀ k ∈ List.range (min q.size p.size),
        (keepsAt (p :: mine) k && keepsAt (q :: theirs) k) = (!p.isDelete && !q.isDelete) := by
      intro k hk
      have hk := List.mem_range.mp hk
      rw [keepsAt_cons hp, keepsAt_cons hq, if_pos (by omega), if_pos (by omega)]
    split
    · next hkept =>
      rw [List.countP_eq_length.mpr fun k hk => (hstretch k hk).trans hkept, List.length_range]
    · next hgone =>
      refine List.countP_eq_zero.mpr fun k hk => ?_
      rw [hstretch k hk]
      exact hgone
  · congr 1
    funext k
    show (keepsAt (p :: mine) (min q.size p.size + k) &&
      keepsAt (q :: theirs) (min q.size p.size + k)) = _
    rw [← keepsAt_resume hp, ← keepsAt_resume hq, Nat.add_comm k, Nat.add_comm k,
      Nat.min_comm p.size]

end Piece

/-- A run of mine and a run of theirs over the same stretch contribute a run from what theirs leaves
of it to what both leave. -/
theorem total_transformed_both {p q : Piece} (hp : ¬ p.isInsert) (hq : ¬ q.isInsert)
    (hsize : p.size = q.size) :
    total Piece.lenBefore (Cell.both p q).transformed = q.lenAfter ∧
      total Piece.lenAfter (Cell.both p q).transformed =
        if !p.isDelete && !q.isDelete then p.size else 0 := by
  cases p with
  | insert t => exact absurd rfl hp
  | retain n =>
    cases q with
    | insert u => exact absurd rfl hq
    | retain m => exact ⟨hsize, rfl⟩
    | delete u => exact ⟨rfl, rfl⟩
  | delete t =>
    cases q with
    | insert u => exact absurd rfl hq
    | retain m => exact ⟨hsize, rfl⟩
    | delete u => exact ⟨rfl, rfl⟩

/-- The runs lead from the number of characters that theirs leaves to the number that there are
after both: what either inserts and what neither deletes. -/
structure Counted (runs mine theirs : List Piece) : Prop where
  before : total Piece.lenBefore runs = total Piece.lenAfter theirs
  after : total Piece.lenAfter runs =
    (mine.flatMap Piece.inserted).length + (theirs.flatMap Piece.inserted).length +
      Piece.keptByBoth mine theirs (total Piece.lenBefore mine)

section Counted

variable {runs mine theirs : List Piece}

theorem Counted.insert_mine (h : Counted runs mine theirs) (i : Text) :
    Counted (.insert i :: runs) (.insert i :: mine) theirs where
  before := (Nat.zero_add _).trans h.before
  after := by
    have hkept : Piece.keptByBoth (.insert i :: mine) theirs = Piece.keptByBoth mine theirs := rfl
    rw [total_cons, h.after, List.flatMap_cons, List.length_append, hkept, total_cons]
    simp only [Piece.lenAfter, Piece.lenBefore, Piece.inserted, Nat.zero_add]
    omega

theorem Counted.insert_theirs (h : Counted runs mine theirs) (j : Text) :
    Counted (.retain j.length :: runs) mine (.insert j :: theirs) where
  before := by
    rw [total_cons, total_cons, h.before]
    rfl
  after := by
    have hkept : Piece.keptByBoth mine (.insert j :: theirs) = Piece.keptByBoth mine theirs := rfl
    rw [total_cons, h.after, List.flatMap_cons, List.length_append, hkept]
    simp only [Piece.lenAfter, Piece.inserted]
    omega

theorem Counted.both {p q : Piece} (hp : ¬ p.isInsert) (hq : ¬ q.isInsert)
    (h : Counted runs (p.resume q.size mine) (q.resume p.size theirs)) :
    Counted ((Cell.both (p.take q.size) (q.take p.size)).transformed ++ runs) (p :: mine)
      (q :: theirs) := by
  have hpt : ¬ (p.take q.size).isInsert := by rw [Piece.isInsert_take]; exact hp
  have hqt : ¬ (q.take p.size).isInsert := by rw [Piece.isInsert_take]; exact hq
  have hsize : (p.take q.size).size = (q.take p.size).size := by
    rw [Piece.size_take, Piece.size_take, Nat.min_comm]
  obtain ⟨hbefore, hafter⟩ := total_transformed_both hpt hqt hsize
  constructor
  · rw [total_append, hbefore, h.before, Piece.total_lenAfter_resume, total_cons]
  · have hstart := Piece.total_lenBefore_resume q.size p mine
    rw [Piece.lenBefore_eq_size hpt, Piece.size_take] at hstart
    rw [total_append, hafter, h.after, total_cons, ← hstart, Piece.keptByBoth_cut hp hq,
      Piece.flatMap_inserted_resume hp, Piece.flatMap_inserted_resume hq, List.flatMap_cons,
      List.flatMap_cons, Piece.inserted_of_not_isInsert hp, Piece.inserted_of_not_isInsert hq,
      Piece.isDelete_take, Piece.isDelete_take, Piece.size_take, List.nil_append, List.nil_append]
    omega

end Counted

/-- A run without characters before the change inserts, unless it is empty. -/
theorem Piece.exists_eq_insert {p : Piece} (hsize : p.size ≠ 0) (h : p.lenBefore = 0) :
    ∃ t, p = .insert t := by
  cases p with
  | insert t => exact ⟨t, rfl⟩
  | retain n => exact absurd h hsize
  | delete t => exact absurd h hsize

/-- **Following the alignment at a common start.** What goes through each kind of step holds of the
runs that transforming makes of mine and theirs. The invariant of the induction is that what is left
of both sides starts from the same number of characters, so nothing is left over. On the left my
insertions go first, so theirs meet none of mine. -/
theorem concurrence_induction {side : Side} {motive : (runs mine theirs : List Piece) → Prop}
    (nil : motive [] [] [])
    (insert_mine : ∀ {runs mine theirs : List Piece} (i : Text), motive runs mine theirs →
      motive (.insert i :: runs) (.insert i :: mine) theirs)
    (insert_theirs : ∀ {runs mine theirs : List Piece} (j : Text), (∀ p ∈ mine, p.size ≠ 0) →
      (side = .left → ∀ p ∈ mine.head?, ¬ p.isInsert) → motive runs mine theirs →
      motive (.retain j.length :: runs) mine (.insert j :: theirs))
    (both : ∀ {runs mine theirs : List Piece} {p q : Piece}, ¬ p.isInsert → ¬ q.isInsert →
      motive runs (p.resume q.size mine) (q.resume p.size theirs) →
      motive ((Cell.both (p.take q.size) (q.take p.size)).transformed ++ runs) (p :: mine)
        (q :: theirs))
    {ps qs : List Piece} (hps : ∀ p ∈ ps, p.size ≠ 0) (hqs : ∀ q ∈ qs, q.size ≠ 0)
    (h : total Piece.lenBefore ps = total Piece.lenBefore qs) :
    motive ((Operation.concurrence side ps qs).flatMap Cell.transformed) ps qs := by
  unfold Operation.concurrence
  fun_induction align Piece.isInsert Piece.isInsert side ps qs with
  | case1 => exact nil
  | case2 p ps ih =>
    obtain ⟨hp, hrest⟩ := List.forall_mem_cons.mp hps
    rw [total_cons, total_nil, Nat.add_eq_zero_iff] at h
    obtain ⟨i, rfl⟩ := Piece.exists_eq_insert hp h.1
    exact insert_mine i (ih hrest hqs h.2)
  | case3 q qs ih =>
    obtain ⟨hq, hrest⟩ := List.forall_mem_cons.mp hqs
    rw [total_cons, total_nil, eq_comm, Nat.add_eq_zero_iff] at h
    obtain ⟨j, rfl⟩ := Piece.exists_eq_insert hq h.1
    exact insert_theirs j hps (fun _ _ hp => absurd hp (Option.not_mem_none _))
      (ih hps hrest h.2.symm)
  | case4 p ps q qs hfree ih =>
    cases p with
    | insert i =>
      rw [total_cons, Piece.lenBefore, Nat.zero_add] at h
      exact insert_mine i (ih (List.forall_mem_cons.mp hps).2 hqs h)
    | retain n => exact absurd hfree.1 Bool.false_ne_true
    | delete d => exact absurd hfree.1 Bool.false_ne_true
  | case5 p ps q qs hleft hfree ih =>
    cases q with
    | insert j =>
      rw [total_cons _ (Piece.insert j), Piece.lenBefore.eq_def (Piece.insert j)] at h
      refine insert_theirs j hps ?_
        (ih hps (List.forall_mem_cons.mp hqs).2 (h.trans (Nat.zero_add _)))
      rintro hside _ ⟨⟩ hp
      exact hleft ⟨hp, Or.inl hside⟩
    | retain n => exact absurd hfree Bool.false_ne_true
    | delete d => exact absurd hfree Bool.false_ne_true
  | case6 p ps q qs hleft hq ih =>
    have hp : ¬ p.isInsert := fun hp => hleft ⟨hp, Or.inr hq⟩
    refine both hp hq (ih (Piece.size_ne_zero_of_mem_resume hps)
      (Piece.size_ne_zero_of_mem_resume hqs) ?_)
    rw [← Piece.shared_isInsert] at h ⊢
    exact Piece.total_shared_resume_eq Piece.isInsert_drop Piece.isInsert_drop hp hq h

/-- **The aligned runs lead to the merged length.** -/
theorem counted_concurrence {side : Side} {ps qs : List Piece} (hps : ∀ p ∈ ps, p.size ≠ 0)
    (hqs : ∀ q ∈ qs, q.size ≠ 0)
    (h : total Piece.lenBefore ps = total Piece.lenBefore qs) :
    Counted ((Operation.concurrence side ps qs).flatMap Cell.transformed) ps qs :=
  concurrence_induction ⟨rfl, rfl⟩ (fun i hrest => hrest.insert_mine i)
    (fun j _ _ hrest => hrest.insert_theirs j) (fun hp hq hrest => hrest.both hp hq) hps hqs h

namespace Operation

/-- All that the operation inserts, in order. -/
def insertedText (op : Operation) : Text := op.components.flatMap Component.inserted

/-- The number of characters after two operations from the same text: what either inserts and what
neither deletes. -/
def mergedLength (a b : Operation) : Nat :=
  a.insertedText.length + b.insertedText.length +
    (List.range a.lenBefore).countP fun k => keepsAt a.components k && keepsAt b.components k

theorem flatMap_inserted_runs (op : Operation) :
    op.pieces.flatMap Piece.inserted = op.insertedText := flatMap_inserted_pieces op.components

theorem keepsAt_runs (op : Operation) : Piece.keepsAt op.pieces = keepsAt op.components :=
  keepsAt_pieces op.components

theorem mergedLength_comm {a b : Operation} (h : a.lenBefore = b.lenBefore) :
    a.mergedLength b = b.mergedLength a := by
  unfold mergedLength
  simp only [h, Bool.and_comm, Nat.add_comm a.insertedText.length]

/-- A walk over the runs of two operations that comes to its end with nothing left over. -/
structure WalkedThrough (a b : Operation) (cells : List Cell) : Prop where
  /-- There are no more steps than runs. -/
  length_le : cells.length ≤ a.pieces.length + b.pieces.length
  /-- Every step takes a free run or two runs that meet. -/
  not_isStray : ∀ cell ∈ cells, ¬ cell.isStray

theorem walkedThrough_composition {a b : Operation} (h : a.lenAfter = b.lenBefore) :
    WalkedThrough a b (composition a.pieces b.pieces) where
  length_le := length_align_le
  not_isStray := not_isStray_of_mem_align Piece.isDelete_drop Piece.isInsert_drop
    size_ne_zero_of_mem_pieces size_ne_zero_of_mem_pieces (by
      rw [Piece.shared_isDelete, Piece.shared_isInsert, total_lenAfter_runs, total_lenBefore_runs,
        h])

theorem walkedThrough_concurrence {a b : Operation} (h : a.lenBefore = b.lenBefore) (side : Side) :
    WalkedThrough a b (concurrence side a.pieces b.pieces) where
  length_le := length_align_le
  not_isStray := not_isStray_of_mem_align Piece.isInsert_drop Piece.isInsert_drop
    size_ne_zero_of_mem_pieces size_ne_zero_of_mem_pieces (by
      rw [Piece.shared_isInsert, total_lenBefore_runs, total_lenBefore_runs, h])

/-- An operation that is put together from runs without an overflow, as far merged as possible. -/
structure PutTogether (runs : List Piece) (op : Operation) : Prop where
  /-- Put together from the first run to the last, with every sum checked. -/
  gatherChecked_eq : gatherChecked runs = .ok op.components
  /-- Kept runs take turns with replacements, and none is empty. -/
  merged : Merged op.components

theorem putTogether_of_ofPieces {runs : List Piece} {op : Operation}
    (h : ofPieces runs = .ok op) : PutTogether runs op := by
  have hcomponents : op.components = gather runs := components_of_ofComponents h
  constructor
  · rw [hcomponents]
    refine Coedit.gatherChecked_eq ?_
    rw [← inputLength_gather, ← hcomponents]
    exact op.inputLength_lt
  · rw [hcomponents]
    exact merged_gather runs

/-- Composing is a matter of lengths. -/
theorem compose_total {a b : Operation} (ha : ¬ a.isEmpty) (hb : ¬ b.isEmpty)
    (h : a.lenAfter = b.lenBefore) :
    ∃ c, a.compose b = .ok c ∧ c.lenBefore = a.lenBefore ∧ c.lenAfter = b.lenAfter ∧
      PutTogether ((composition a.pieces b.pieces).flatMap Cell.composed) c := by
  obtain ⟨c, hc, hbefore, hafter⟩ := compose_lengths h
  refine ⟨c, hc, hbefore, hafter, putTogether_of_ofPieces ?_⟩
  rw [compose, if_neg ha, if_neg hb, if_pos h] at hc
  exact hc

/-- Transforming is a matter of lengths. -/
theorem transform_total {a b : Operation} (ha : ¬ a.isEmpty) (hb : ¬ b.isEmpty)
    (h : a.lenBefore = b.lenBefore) (hfit : a.mergedLength b < Word.bound) (side : Side) :
    ∃ c, a.transform b side = .ok c ∧ c.lenBefore = b.lenAfter ∧ c.lenAfter = a.mergedLength b ∧
      c.insertedText = a.insertedText ∧
      PutTogether ((concurrence side a.pieces b.pieces).flatMap Cell.transformed) c := by
  obtain ⟨hbefore, hafter⟩ := @counted_concurrence side a.pieces b.pieces
    size_ne_zero_of_mem_pieces size_ne_zero_of_mem_pieces (by
      rw [total_lenBefore_runs, total_lenBefore_runs, h])
  rw [total_lenAfter_runs] at hbefore
  rw [total_lenBefore_runs, flatMap_inserted_runs, flatMap_inserted_runs, Piece.keptByBoth,
    keepsAt_runs, keepsAt_runs, ← mergedLength] at hafter
  obtain ⟨c, hc, hcbefore, hcafter⟩ := exists_ofPieces (by rw [hbefore]; exact b.lenAfter_lt)
    (by rw [hafter]; exact hfit)
  refine ⟨c, ?_, hcbefore.trans hbefore, hcafter.trans hafter, ?_, putTogether_of_ofPieces hc⟩
  · rw [transform, if_neg (fun hor => hor.elim ha hb), if_pos h, hc]
  · rw [insertedText, components_of_ofComponents hc, flatMap_inserted_gather,
      flatMap_inserted_concurrence, flatMap_inserted_runs]

/-- **Composing and transforming are total, and exact in their lengths.** Nothing is asked of the
texts of two operations with components. If the first ends with the length that the second starts
from, they compose, and if both start from the same length and the merged length is a word, either
is transformed past the other. The walk over their runs ends with nothing left over, no sum
overflows, what comes out has kept runs and replacements by turns and none of them empty, and its
lengths are as they should be. What a transformed operation inserts is what it inserted before. -/
theorem compose_transform_exact {a b : Operation} (ha : ¬ a.isEmpty) (hb : ¬ b.isEmpty) :
    (a.lenAfter = b.lenBefore →
      WalkedThrough a b (composition a.pieces b.pieces) ∧
      ∃ c, a.compose b = .ok c ∧ c.lenBefore = a.lenBefore ∧ c.lenAfter = b.lenAfter ∧
        PutTogether ((composition a.pieces b.pieces).flatMap Cell.composed) c) ∧
    (a.lenBefore = b.lenBefore → a.mergedLength b < Word.bound →
      (∀ side, WalkedThrough a b (concurrence side a.pieces b.pieces) ∧
        ∃ c, a.transform b side = .ok c ∧ c.lenBefore = b.lenAfter ∧
          c.insertedText = a.insertedText ∧
          PutTogether ((concurrence side a.pieces b.pieces).flatMap Cell.transformed) c) ∧
      ∃ c d, a.transform b .left = .ok c ∧ b.transform a .right = .ok d ∧
        c.lenAfter = d.lenAfter ∧ c.lenAfter = a.mergedLength b) := by
  constructor
  · intro h
    exact ⟨walkedThrough_composition h, compose_total ha hb h⟩
  · intro h hfit
    constructor
    · intro side
      obtain ⟨c, hc, hbefore, -, hinserted, hput⟩ := transform_total ha hb h hfit side
      exact ⟨walkedThrough_concurrence h side, c, hc, hbefore, hinserted, hput⟩
    · have hcomm := mergedLength_comm h
      obtain ⟨c, hc, -, hafter, -⟩ := transform_total ha hb h hfit .left
      obtain ⟨d, hd, -, hafter', -⟩ := transform_total hb ha h.symm (hcomm ▸ hfit) .right
      exact ⟨c, d, hc, hd, by rw [hafter, hafter', hcomm], hafter⟩

/-- Empty components, unmerged neighbours and a deletion of another text than is there: no text goes
through both operations, and none is needed. -/
theorem compose_transform_exact_mismatched :
    let a : Operation := ⟨[.retain 0, .replace ['a', 'b'] ['x'], .replace [] ['y'], .replace [] [],
      .retain 1], by decide, by decide⟩
    let b : Operation := ⟨[.replace ['p'] [], .retain 1, .replace [] ['r', 's'], .retain 1],
      by decide, by decide⟩
    (a.lenAfter = b.lenBefore ∧ a.lenBefore = b.lenBefore ∧ a.mergedLength b = 5) ∧
      (∃ c, a.compose b = .ok c ∧ c.lenBefore = 3 ∧ c.lenAfter = 4 ∧ Merged c.components) ∧
      ∃ c d, a.transform b .left = .ok c ∧ b.transform a .right = .ok d ∧ c.lenAfter = 5 ∧
        d.lenAfter = 5 := by
  intro a b
  have hmerged : a.mergedLength b = 5 := rfl
  have hexact := @compose_transform_exact a b (by decide) (by decide)
  obtain ⟨-, c, hc, hbefore, hafter, hput⟩ := hexact.1 rfl
  obtain ⟨-, d, e, hd, he, hsame, hlen⟩ := hexact.2 rfl (by rw [hmerged]; decide)
  rw [hmerged] at hlen
  exact ⟨⟨rfl, rfl, hmerged⟩, ⟨c, hc, hbefore, hafter, hput.merged⟩, d, e, hd, he, hlen,
    hsame.symm.trans hlen⟩

end Operation

end Coedit
