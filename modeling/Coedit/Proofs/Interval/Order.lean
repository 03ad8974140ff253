import Coedit.Interval.Projection
import Coedit.Proofs.Operation.Offsets

/-!
# Interval sets are in order

A set keeps its intervals in order of start and then end, and intervals with the same ends in the
order in which they came. This file says what that means without reference to how it is done:

> `Interval.StablySorted is js`: `js` has the intervals of `is`, in order, and those with the same
> ends stand in `js` as they stand in `is`.

Reading a list in, one interval after the other, sorts it stably
(`IntervalSet.stablySorted_ofList`); the step is that an interval goes behind all that may stand
before it. Every set that can be built is in order (`IntervalSet.Built.ordered`).
-/

namespace Coedit

variable {κ ν : Type}

namespace Interval

theorem le_iff {i j : Interval κ ν} :
    i.le j ↔ i.start < j.start ∨ i.start = j.start ∧ i.stop ≤ j.stop := by
  unfold le
  simp

theorem le_trans {i j k : Interval κ ν} (hij : i.le j) (hjk : j.le k) : i.le k := by
  rw [le_iff] at hij hjk ⊢
  omega

theorem le_of_not_le {i j : Interval κ ν} (h : ¬ i.le j) : j.le i := by
  rw [le_iff] at h ⊢
  omega

/-- The interval with its ends moved. -/
def mapEnds (f : Nat → Nat) (i : Interval κ ν) : Interval κ ν :=
  { i with start := f i.start, stop := f i.stop }

/-- Do the ends of the interval lie at these offsets? -/
def endsAt (start stop : Nat) (i : Interval κ ν) : Bool := i.start == start && i.stop == stop

/-- The intervals of `is`, in order of their ends; those with the same ends stay as they came. -/
structure StablySorted (is js : List (Interval κ ν)) : Prop where
  perm : js.Perm is
  ordered : js.Pairwise fun i j => i.le j
  stable : ∀ start stop, js.filter (endsAt start stop) = is.filter (endsAt start stop)

theorem stablySorted_self {is : List (Interval κ ν)} (h : is.Pairwise fun i j => i.le j) :
    StablySorted is is := ⟨.refl _, h, fun _ _ => rfl⟩

theorem insertInto_perm (i : Interval κ ν) (js : List (Interval κ ν)) :
    (i.insertInto js).Perm (i :: js) := by
  induction js with
  | nil => exact .refl _
  | cons j js ih =>
    unfold insertInto
    split
    · exact (ih.cons j).trans (.swap ..)
    · exact .refl _

theorem insertInto_ordered (i : Interval κ ν) {js : List (Interval κ ν)}
    (h : js.Pairwise fun i j => i.le j) : (i.insertInto js).Pairwise fun i j => i.le j := by
  induction js with
  | nil => exact List.pairwise_singleton ..
  | cons j js ih =>
    obtain ⟨hj, hjs⟩ := List.pairwise_cons.mp h
    unfold insertInto
    split
    · next hji =>
      refine List.pairwise_cons.mpr ⟨?_, ih hjs⟩
      intro k hk
      rcases List.mem_cons.mp ((i.insertInto_perm js).mem_iff.mp hk) with rfl | hk
      · exact hji
      · exact hj k hk
    · next hji =>
      refine List.pairwise_cons.mpr ⟨?_, h⟩
      have hij := le_of_not_le hji
      intro k hk
      rcases List.mem_cons.mp hk with rfl | hk
      · exact hij
      · exact le_trans hij (hj k hk)

/-- Among intervals with the same ends the new one comes last: whatever it is put in front of may
not stand before it, and neither may anything behind that. -/
theorem filter_insertInto (i : Interval κ ν) {js : List (Interval κ ν)}
    (h : js.Pairwise fun i j => i.le j) (start stop : Nat) :
    (i.insertInto js).filter (endsAt start stop) = (js ++ [i]).filter (endsAt start stop) := by
  induction js with
  | nil => rfl
  | cons j js ih =>
    obtain ⟨hj, hjs⟩ := List.pairwise_cons.mp h
    unfold insertInto
    split
    · rw [List.cons_append, List.filter_cons, List.filter_cons, ih hjs]
    · next hji =>
      rw [List.filter_append]
      by_cases hi : i.endsAt start stop
      · -- nothing from `j` on has the ends of `i`
        have hnone : (j :: js).filter (endsAt start stop) = [] := by
          refine List.filter_eq_nil_iff.mpr ?_
          intro k hk hkends
          have hki : k.le i := by
            simp only [endsAt, Bool.and_eq_true, beq_iff_eq] at hi hkends
            rw [le_iff]
            omega
          rcases List.mem_cons.mp hk with rfl | hk
          · exact hji hki
          · exact hji (le_trans (hj k hk) hki)
        rw [List.filter_cons_of_pos hi, List.filter_cons_of_pos hi, hnone]
        rfl
      · rw [List.filter_cons_of_neg hi, List.filter_cons_of_neg hi]
        exact (List.append_nil _).symm

theorem StablySorted.insertInto {is js : List (Interval κ ν)} (h : StablySorted is js)
    (i : Interval κ ν) : StablySorted (is ++ [i]) (i.insertInto js) where
  perm := ((i.insertInto_perm js).trans (h.perm.cons i)).trans
    (List.perm_append_singleton i is).symm
  ordered := i.insertInto_ordered h.ordered
  stable start stop := by
    rw [i.filter_insertInto h.ordered, List.filter_append, List.filter_append, h.stable]

/-- Putting intervals in one after the other sorts them stably, behind those that are there. -/
theorem StablySorted.foldl_insertInto {is js : List (Interval κ ν)} (h : StablySorted is js)
    (later : List (Interval κ ν)) :
    StablySorted (is ++ later) (later.foldl (fun entries i => i.insertInto entries) js) := by
  induction later generalizing is js with
  | nil =>
    rw [List.append_nil]
    exact h
  | cons i later ih =>
    have hstep := ih (h.insertInto i)
    rw [List.append_assoc] at hstep
    exact hstep

end Interval

namespace IntervalSet

/-- Reading a list in sorts it stably. -/
theorem stablySorted_ofList (is : List (Interval κ ν)) :
    Interval.StablySorted is (ofList is).entries :=
  (Interval.stablySorted_self .nil).foldl_insertInto is

/-- The intervals of the set stand in order. -/
def Ordered (s : IntervalSet κ ν) : Prop := s.entries.Pairwise fun i j => i.le j

/-- The sets that can be built. -/
inductive Built : IntervalSet κ ν → Prop
  | empty : Built .empty
  | ofList (is : List (Interval κ ν)) : Built (.ofList is)
  | insert {s s' : IntervalSet κ ν} {i : Interval κ ν} : Built s → s.insert i = .ok s' → Built s'
  | edit {s s' : IntervalSet κ ν} {op : Operation} : Built s → s.edit op = .ok s' → Built s'
  | relocate {s s' : IntervalSet κ ν} {target : Nat → Except Fault Nat} :
    Built s → s.relocate target = .ok s' → Built s'

theorem mapM_move {is : List (Interval κ ν)} {op : Operation} {f : Nat → Nat}
    (hf : ∀ i ∈ is, op.mapOffset i.start .right = .ok (f i.start) ∧
      op.mapOffset i.stop .right = .ok (f i.stop)) :
    is.mapM (fun i => i.move op) = .ok (is.map (Interval.mapEnds f)) := by
  rw [mapM_eq_ok_iff, List.forall₂_map_right_iff, List.forall₂_same]
  intro i hi
  obtain ⟨hstart, hstop⟩ := hf i hi
  exact bind_eq_ok.mpr ⟨_, hstart, bind_eq_ok.mpr ⟨_, hstop, rfl⟩⟩

/-- An edit moves the ends and sorts stably. The operation without components does neither, and
need not: it leaves every end where it is, and the set is in order. -/
theorem Ordered.stablySorted_edit {s : IntervalSet κ ν} (h : s.Ordered) {op : Operation}
    {f : Nat → Nat} (hf : ∀ i ∈ s.entries, op.mapOffset i.start .right = .ok (f i.start) ∧
      op.mapOffset i.stop .right = .ok (f i.stop)) :
    ∃ s', s.edit op = .ok s' ∧
      Interval.StablySorted (s.entries.map (Interval.mapEnds f)) s'.entries := by
  unfold IntervalSet.edit
  by_cases hop : op.isEmpty
  · rw [if_pos hop]
    refine ⟨s, rfl, ?_⟩
    have hkept : ∀ i ∈ s.entries, i.mapEnds f = i := by
      intro i hi
      obtain ⟨hstart, hstop⟩ := hf i hi
      unfold Interval.mapEnds
      rw [Operation.eq_of_mapOffset hop hstart, Operation.eq_of_mapOffset hop hstop]
    rw [List.map_congr_left hkept, List.map_id']
    exact Interval.stablySorted_self h
  · rw [if_neg hop]
    exact ⟨_, bind_eq_ok.mpr ⟨_, mapM_move hf, rfl⟩, stablySorted_ofList _⟩

theorem Ordered.edit {s s' : IntervalSet κ ν} (h : s.Ordered) {op : Operation}
    (hedit : s.edit op = .ok s') : s'.Ordered := by
  unfold IntervalSet.edit at hedit
  split at hedit
  · cases hedit
    exact h
  · obtain ⟨moved, _, hok⟩ := bind_eq_ok.mp hedit
    cases hok
    exact (stablySorted_ofList moved).ordered

theorem Built.ordered {s : IntervalSet κ ν} (h : s.Built) : s.Ordered := by
  induction h with
  | empty => exact .nil
  | ofList is => exact (stablySorted_ofList is).ordered
  | @insert s s' i _ hinsert ih =>
    unfold IntervalSet.insert at hinsert
    split at hinsert
    · cases hinsert
      exact i.insertInto_ordered ih
    · cases hinsert
  | edit _ hedit ih => exact ih.edit hedit
  | relocate _ hrel ih =>
    obtain ⟨op, _, hedit⟩ := bind_eq_ok.mp hrel
    exact ih.edit hedit

end IntervalSet

end Coedit
