import Coedit.Proofs.Interval.Survival

/-!
# However a set of intervals is put together

Intervals come into a set by reading a list in or by inserting them one at a time, and then they are
moved, again and again, by operations or by maps of offsets. Nothing of this way shows in the end:

> `IntervalSet.Assembled.order_and_entries`: whatever calls have led to a set, its intervals are in
> order, there is one for each that was given, and their ends are in order if they were when given.
> An edit is exactly the stable sort of the intervals with both ends moved. Inserting intervals one
> after the other is reading in what the set has, and then them.

Insertion stops at the first interval that may not stand before the new one, and never looks behind
it. That is right if those that may stand before the new interval are all in front of those that may
not. A set in order guarantees it (`Interval.exists_insertInto_eq`), so insertion needs every edit
before it to have put the set in order again.

That the two ways of building agree, also on intervals with the same ends, comes from there being
only one stable sort: a list in order is determined by its intervals with each pair of ends
(`Interval.StablySorted.unique`).
-/

namespace Coedit

variable {κ ν : Type}

namespace Interval

/-! ## There is one stable sort -/

@[simp] theorem endsAt_self (i : Interval κ ν) : i.endsAt i.start i.stop := by
  simp [endsAt]

/-- Two intervals that may each stand before the other have the same ends. -/
theorem endsAt_of_le_of_le {i j : Interval κ ν} (hij : i.le j) (hji : j.le i) :
    j.endsAt i.start i.stop := by
  rw [le_iff] at hij hji
  simp only [endsAt, Bool.and_eq_true, beq_iff_eq]
  omega

/-- The first of some intervals in order may stand before each of them. -/
theorem head_le {i j : Interval κ ν} {is : List (Interval κ ν)}
    (h : (i :: is).Pairwise fun i j => i.le j) (hj : j ∈ i :: is) : i.le j := by
  rcases List.mem_cons.mp hj with rfl | hj
  · exact le_iff.mpr (Or.inr ⟨rfl, Nat.le_refl _⟩)
  · exact (List.pairwise_cons.mp h).1 j hj

theorem mem_iff_of_filter_endsAt_eq {is js : List (Interval κ ν)}
    (h : ∀ start stop, is.filter (endsAt start stop) = js.filter (endsAt start stop))
    (i : Interval κ ν) : i ∈ is ↔ i ∈ js := by
  have hi : i ∈ is.filter (endsAt i.start i.stop) ↔ i ∈ js.filter (endsAt i.start i.stop) := by
    rw [h]
  simpa [List.mem_filter] using hi

/-- **Order and ties determine a list.** Two lists in order with the same intervals, in the same
sequence, for each pair of ends are the same. -/
theorem eq_of_filter_endsAt_eq {is js : List (Interval κ ν)}
    (his : is.Pairwise fun i j => i.le j) (hjs : js.Pairwise fun i j => i.le j)
    (h : ∀ start stop, is.filter (endsAt start stop) = js.filter (endsAt start stop)) :
    is = js := by
  induction is generalizing js with
  | nil =>
    cases js with
    | nil => rfl
    | cons j js =>
      have hj := (mem_iff_of_filter_endsAt_eq h j).mpr (List.mem_cons_self ..)
      cases hj
  | cons i is ih =>
    cases js with
    | nil =>
      have hi := (mem_iff_of_filter_endsAt_eq h i).mp (List.mem_cons_self ..)
      cases hi
    | cons j js =>
      -- each list has the first interval of the other, so the two first ones have the same ends
      have hij : i.le j :=
        head_le his ((mem_iff_of_filter_endsAt_eq h j).mpr (List.mem_cons_self ..))
      have hji : j.le i :=
        head_le hjs ((mem_iff_of_filter_endsAt_eq h i).mp (List.mem_cons_self ..))
      have hfirst := h i.start i.stop
      rw [List.filter_cons_of_pos i.endsAt_self,
        List.filter_cons_of_pos (endsAt_of_le_of_le hij hji)] at hfirst
      obtain ⟨rfl, -⟩ := List.cons.inj hfirst
      refine congrArg (i :: ·) (ih (List.pairwise_cons.mp his).2 (List.pairwise_cons.mp hjs).2 ?_)
      intro start stop
      have hrest := h start stop
      rw [List.filter_cons, List.filter_cons] at hrest
      split at hrest
      · exact (List.cons.inj hrest).2
      · exact hrest

theorem StablySorted.unique {is js ks : List (Interval κ ν)} (hj : StablySorted is js)
    (hk : StablySorted is ks) : js = ks :=
  eq_of_filter_endsAt_eq hj.ordered hk.ordered fun start stop =>
    (hj.stable start stop).trans (hk.stable start stop).symm

/-! ## The place of a new interval -/

/-- An interval goes between those that may stand before it and those that may not, if they are
apart. -/
theorem insertInto_append {i : Interval κ ν} {front back : List (Interval κ ν)}
    (hfront : ∀ j ∈ front, j.le i) (hback : ∀ j ∈ back, ¬ j.le i) :
    i.insertInto (front ++ back) = front ++ i :: back := by
  induction front with
  | nil =>
    cases back with
    | nil => rfl
    | cons j back => exact if_neg (hback j (List.mem_cons_self ..))
  | cons j front ih =>
    rw [List.cons_append, insertInto, if_pos (hfront j (List.mem_cons_self ..)),
      ih fun k hk => hfront k (List.mem_cons_of_mem _ hk)]
    rfl

/-- In a list in order they are apart. -/
theorem exists_insertInto_eq (i : Interval κ ν) {js : List (Interval κ ν)}
    (h : js.Pairwise fun i j => i.le j) :
    ∃ front back, js = front ++ back ∧ (∀ j ∈ front, j.le i) ∧ (∀ j ∈ back, ¬ j.le i) ∧
      i.insertInto js = front ++ i :: back := by
  have hsplit : ∃ front back, js = front ++ back ∧ (∀ j ∈ front, j.le i) ∧
      ∀ j ∈ back, ¬ j.le i := by
    induction js with
    | nil => exact ⟨[], [], rfl, List.forall_mem_nil _, List.forall_mem_nil _⟩
    | cons j js ih =>
      obtain ⟨hj, hjs⟩ := List.pairwise_cons.mp h
      by_cases hji : j.le i
      · obtain ⟨front, back, rfl, hfront, hback⟩ := ih hjs
        exact ⟨j :: front, back, rfl, List.forall_mem_cons.mpr ⟨hji, hfront⟩, hback⟩
      · -- whatever stands behind `j` may stand before `i` no more than `j` may
        refine ⟨[], j :: js, rfl, List.forall_mem_nil _, List.forall_mem_cons.mpr ⟨hji, ?_⟩⟩
        exact fun k hk hki => hji (le_trans (hj k hk) hki)
  obtain ⟨front, back, rfl, hfront, hback⟩ := hsplit
  exact ⟨front, back, rfl, hfront, hback, insertInto_append hfront hback⟩

/-! ## Moved intervals -/

/-- Both ends are words. -/
def IsWord (i : Interval κ ν) : Prop := i.start < Word.bound ∧ i.stop < Word.bound

/-- `j` is what the operation makes of `i`: it carries what `i` carries, and each of its ends is
where the end of `i` has gone, on the right of inserted text. -/
structure MovedBy (op : Operation) (i j : Interval κ ν) : Prop where
  label_eq : j.label = i.label
  start_eq : op.mapOffset i.start .right = .ok j.start
  stop_eq : op.mapOffset i.stop .right = .ok j.stop

theorem move_eq_ok_iff {op : Operation} {i j : Interval κ ν} :
    i.move op = .ok j ↔ i.MovedBy op j := by
  unfold move
  rw [bind_eq_ok]
  constructor
  · rintro ⟨start, hstart, h⟩
    obtain ⟨stop, hstop, hok⟩ := bind_eq_ok.mp h
    cases hok
    exact ⟨rfl, hstart, hstop⟩
  · rintro ⟨hlabel, hstart, hstop⟩
    obtain ⟨hkey, hvalue⟩ := Prod.mk.inj hlabel
    refine ⟨_, hstart, bind_eq_ok.mpr ⟨_, hstop, ?_⟩⟩
    cases j
    cases hkey
    cases hvalue
    rfl

end Interval

/-! ## Which offsets have a place -/

/-- Where an offset goes is a word. -/
theorem lt_bound_of_moveOffset {side : Side} {cs : List Component} {o before after r : Nat}
    (h : before ≤ o) (hafter : after + outputLength cs < Word.bound)
    (hr : moveOffset side o cs before after = .ok r) : r < Word.bound := by
  induction cs generalizing before after with
  | nil =>
    obtain ⟨sum, hsum, hok⟩ := bind_eq_ok.mp hr
    cases hok
    unfold Word.add at hsum
    split at hsum
    · cases hsum
      omega
    · cases hsum
  | cons c cs ih =>
    rw [outputLength_cons] at hafter
    rw [moveOffset_cons h] at hr
    split at hr
    · next hheld =>
      have hplace := Component.place_le_lenAfter hheld
      cases hr
      omega
    · next hpass =>
      have hpassed := Component.lenBefore_le_of_not_holds hpass
      exact ih (by omega) (by omega) hr

namespace Operation

variable {op : Operation} {o r : Nat}

theorem lt_bound_of_mapOffset {side : Side} (h : op.mapOffset o side = .ok r) : r < Word.bound :=
  lt_bound_of_moveOffset (Nat.zero_le o) (by rw [Nat.zero_add]; exact op.outputLength_lt) h

/-- An offset has a place on the right exactly if the operation carries it. -/
theorem exists_mapOffset_right_iff : (∃ r, op.mapOffset o .right = .ok r) ↔ op.Carries o := by
  constructor
  · rintro ⟨r, hr⟩
    by_contra hnot
    obtain ⟨hend, hsum⟩ := not_or.mp hnot
    rw [lenBefore, Nat.not_lt] at hend
    rw [lenAfter] at hsum
    rw [mapOffset, moveOffset_of_behind (by omega) (Or.inl rfl), moveOffset, Word.add,
      Nat.zero_add, if_neg hsum] at hr
    cases hr
  · exact (op.lands_of_carries .right id).exists_ok

theorem carries_of_isEmpty (h : op.isEmpty) (ho : o < Word.bound) : op.Carries o := by
  refine Or.inr ?_
  rw [lenAfter, List.isEmpty_iff.mp h, outputLength_nil, Nat.zero_add]
  exact ho

/-- The operation without components leaves words where they are. -/
theorem mapOffset_of_isEmpty (h : op.isEmpty) (ho : o < Word.bound) :
    op.mapOffset o .right = .ok o := by
  obtain ⟨r, hr⟩ := exists_mapOffset_right_iff.mpr (carries_of_isEmpty h ho)
  rw [hr, eq_of_mapOffset h hr]

end Operation

namespace Interval

variable {op : Operation} {i j : Interval κ ν}

theorem movedBy_of_isEmpty (h : op.isEmpty) (hi : i.IsWord) : i.MovedBy op i :=
  ⟨rfl, Operation.mapOffset_of_isEmpty h hi.1, Operation.mapOffset_of_isEmpty h hi.2⟩

theorem MovedBy.isWord (h : i.MovedBy op j) : j.IsWord :=
  ⟨Operation.lt_bound_of_mapOffset h.start_eq, Operation.lt_bound_of_mapOffset h.stop_eq⟩

/-- Ends that are in order stay in order. -/
theorem MovedBy.start_le_stop (h : i.MovedBy op j) (hi : i.start ≤ i.stop) : j.start ≤ j.stop :=
  moveOffset_mono (Nat.zero_le _) hi (Or.inl rfl) h.start_eq h.stop_eq

theorem exists_movedBy_iff : (∃ j, i.MovedBy op j) ↔ op.Carries i.start ∧ op.Carries i.stop := by
  rw [← Operation.exists_mapOffset_right_iff, ← Operation.exists_mapOffset_right_iff]
  constructor
  · rintro ⟨j, hj⟩
    exact ⟨⟨_, hj.start_eq⟩, _, hj.stop_eq⟩
  · rintro ⟨⟨start, hstart⟩, stop, hstop⟩
    exact ⟨{ i with start, stop }, rfl, hstart, hstop⟩

end Interval

namespace IntervalSet

variable {s s' : IntervalSet κ ν} {op : Operation} {added : List (Interval κ ν)}

/-! ## What an edit does -/

/-- `s'` is what the operation makes of `s`: each interval moved, and all of them sorted stably. -/
def EditedBy (op : Operation) (s s' : IntervalSet κ ν) : Prop :=
  ∃ moved, List.Forall₂ (Interval.MovedBy op) s.entries moved ∧
    Interval.StablySorted moved s'.entries

theorem eq_of_stablySorted {is : List (Interval κ ν)} (h : Interval.StablySorted is s.entries)
    (h' : Interval.StablySorted is s'.entries) : s = s' := by
  cases s
  exact congrArg mk (h.unique h')

/-- **An edit moves both ends of every interval and sorts stably**, and nothing else is an edit. -/
theorem Ordered.edit_eq_ok_iff (h : s.Ordered) (hwords : ∀ i ∈ s.entries, i.IsWord) :
    s.edit op = .ok s' ↔ s.EditedBy op s' := by
  have hmoves : ∀ moved, s.entries.mapM (fun i => i.move op) = .ok moved ↔
      List.Forall₂ (Interval.MovedBy op) s.entries moved := by
    intro moved
    rw [mapM_eq_ok_iff]
    simp only [Interval.move_eq_ok_iff]
  unfold IntervalSet.edit
  split
  · next hop =>
    -- nothing moves, and what is in order is sorted already
    have hself : List.Forall₂ (Interval.MovedBy op) s.entries s.entries :=
      List.forall₂_same.mpr fun i hi => Interval.movedBy_of_isEmpty hop (hwords i hi)
    constructor
    · rintro ⟨⟩
      exact ⟨s.entries, hself, Interval.stablySorted_self h⟩
    · rintro ⟨moved, hmoved, hsorted⟩
      have hsame := ((hmoves moved).mpr hmoved).symm.trans ((hmoves s.entries).mpr hself)
      cases hsame
      rw [eq_of_stablySorted (Interval.stablySorted_self h) hsorted]
  · rw [bind_eq_ok]
    constructor
    · rintro ⟨moved, hmoved, hok⟩
      cases hok
      exact ⟨moved, (hmoves moved).mp hmoved, stablySorted_ofList moved⟩
    · rintro ⟨moved, hmoved, hsorted⟩
      refine ⟨moved, (hmoves moved).mpr hmoved, ?_⟩
      rw [eq_of_stablySorted (stablySorted_ofList moved) hsorted]

/-- An edit has a result exactly if each end of each interval has a place. -/
theorem exists_editedBy_iff :
    (∃ s', s.EditedBy op s') ↔ ∀ i ∈ s.entries, op.Carries i.start ∧ op.Carries i.stop := by
  simp only [← Interval.exists_movedBy_iff, ← exists_forall₂_iff]
  constructor
  · rintro ⟨s', moved, hmoved, -⟩
    exact ⟨moved, hmoved⟩
  · rintro ⟨moved, hmoved⟩
    exact ⟨ofList moved, moved, hmoved, stablySorted_ofList moved⟩

/-! ## However a set came about -/

/-- What holds of a set into which the intervals `added` were put. -/
structure Sound (added : List (Interval κ ν)) (s : IntervalSet κ ν) : Prop where
  /-- The intervals are in order. -/
  ordered : s.Ordered
  isWord : ∀ i ∈ s.entries, i.IsWord
  /-- There is one interval for each that was put in, with its key and its value. -/
  labels : (s.entries.map Interval.label).Perm (added.map Interval.label)
  /-- Ends are in order if they all were. -/
  start_le_stop : (∀ i ∈ added, i.start ≤ i.stop) → ∀ i ∈ s.entries, i.start ≤ i.stop

/-- Sorting stably keeps all of it. -/
theorem sound_of_stablySorted {is : List (Interval κ ν)}
    (hsorted : Interval.StablySorted is s.entries) (hwords : ∀ i ∈ is, i.IsWord)
    (hlabels : (is.map Interval.label).Perm (added.map Interval.label))
    (hends : (∀ i ∈ added, i.start ≤ i.stop) → ∀ i ∈ is, i.start ≤ i.stop) : s.Sound added where
  ordered := hsorted.ordered
  isWord i hi := hwords i (hsorted.perm.mem_iff.mp hi)
  labels := (hsorted.perm.map _).trans hlabels
  start_le_stop hadded i hi := hends hadded i (hsorted.perm.mem_iff.mp hi)

theorem insert_eq_ok_iff {i : Interval κ ν} :
    s.insert i = .ok s' ↔ i.start ≤ i.stop ∧ s' = ⟨i.insertInto s.entries⟩ := by
  unfold IntervalSet.insert
  split
  · next hends => simp [hends, eq_comm]
  · next hends => simp [hends]

theorem Sound.insert (h : s.Sound added) {i : Interval κ ν} (hi : i.IsWord)
    (hinsert : s.insert i = .ok s') : s'.Sound (added ++ [i]) := by
  obtain ⟨hends, rfl⟩ := insert_eq_ok_iff.mp hinsert
  refine sound_of_stablySorted ((Interval.stablySorted_self h.ordered).insertInto i) ?_ ?_ ?_
  · exact List.forall_mem_append.mpr ⟨h.isWord, List.forall_mem_singleton.mpr hi⟩
  · rw [List.map_append, List.map_append]
    exact h.labels.append_right _
  · intro hadded
    have hearlier := h.start_le_stop (List.forall_mem_append.mp hadded).1
    exact List.forall_mem_append.mpr ⟨hearlier, List.forall_mem_singleton.mpr hends⟩

theorem Sound.edit (h : s.Sound added) (hedit : s.edit op = .ok s') : s'.Sound added := by
  obtain ⟨moved, hmoved, hsorted⟩ := (h.ordered.edit_eq_ok_iff h.isWord).mp hedit
  refine sound_of_stablySorted hsorted ?_ ?_ ?_
  · exact forall_mem_of_forall₂ hmoved (fun i j hij _ => hij.isWord) h.isWord
  · rw [Interval.map_label_eq (hmoved.imp fun _ _ hij => hij.label_eq)]
    exact h.labels
  · intro hadded
    exact forall_mem_of_forall₂ hmoved (fun i j hij => hij.start_le_stop) (h.start_le_stop hadded)

theorem relocate_eq_ok_iff {target : Nat → Except Fault Nat} :
    s.relocate target = .ok s' ↔ ∃ op, s.operationTo target = .ok op ∧ s.edit op = .ok s' :=
  bind_eq_ok

/-- Calls have led to the set, and `added` is what intervals they were given. The ends of an
interval are words; a list that is read in may have intervals whose ends are not in order. -/
inductive Assembled : List (Interval κ ν) → IntervalSet κ ν → Prop
  | empty : Assembled [] .empty
  | ofList {is : List (Interval κ ν)} : (∀ i ∈ is, i.IsWord) → Assembled is (.ofList is)
  | insert {added : List (Interval κ ν)} {s s' : IntervalSet κ ν} {i : Interval κ ν} :
    Assembled added s → i.IsWord → s.insert i = .ok s' → Assembled (added ++ [i]) s'
  | edit {added : List (Interval κ ν)} {s s' : IntervalSet κ ν} {op : Operation} :
    Assembled added s → s.edit op = .ok s' → Assembled added s'
  | relocate {added : List (Interval κ ν)} {s s' : IntervalSet κ ν}
    {target : Nat → Except Fault Nat} :
    Assembled added s → s.relocate target = .ok s' → Assembled added s'

theorem Assembled.sound (h : Assembled added s) : s.Sound added := by
  induction h with
  | empty =>
    exact sound_of_stablySorted (stablySorted_ofList []) (List.forall_mem_nil _) (.refl _) id
  | ofList hwords => exact sound_of_stablySorted (stablySorted_ofList _) hwords (.refl _) id
  | insert _ hi hinsert ih => exact ih.insert hi hinsert
  | edit _ hedit ih => exact ih.edit hedit
  | relocate _ hrelocate ih =>
    obtain ⟨op, -, hedit⟩ := relocate_eq_ok_iff.mp hrelocate
    exact ih.edit hedit

/-- Inserting intervals whose ends are in order goes through. -/
theorem foldlM_insert {is : List (Interval κ ν)} (his : ∀ i ∈ is, i.start ≤ i.stop) :
    is.foldlM IntervalSet.insert s =
      .ok ⟨is.foldl (fun entries i => i.insertInto entries) s.entries⟩ := by
  induction is generalizing s with
  | nil => rfl
  | cons i is ih =>
    obtain ⟨hi, hrest⟩ := List.forall_mem_cons.mp his
    rw [List.foldlM_cons, insert_eq_ok_iff.mpr ⟨hi, rfl⟩]
    exact ih hrest

/-- **Inserting one by one is reading in what there is, and then the rest.** -/
theorem Ordered.foldlM_insert_eq (h : s.Ordered) {is : List (Interval κ ν)}
    (his : ∀ i ∈ is, i.start ≤ i.stop) :
    is.foldlM IntervalSet.insert s = .ok (ofList (s.entries ++ is)) := by
  -- both sides are stable sorts of the same list
  have hsorted := (Interval.stablySorted_self h).foldl_insertInto is
  rw [foldlM_insert his]
  exact congrArg Except.ok (eq_of_stablySorted hsorted (stablySorted_ofList _))

/-- **However a set was put together, its intervals are in order and all there.** Take any set that
calls have led to. Its intervals stand in order of start and then end, there is one for each
interval that was put in, with its key and its value, and their ends are in order if they were in
all that were put in. An edit gives exactly the stable sort of the intervals with both ends moved to
the right of inserted text, and so does a relocation, with the operation made for it. The only edits
without a result are those for which an end has no place. A new interval finds those that may stand
before it apart from those that may not, and goes between them. Inserting any intervals with ends in
order, one after the other, leads to the same set as reading in those of the set followed by the new
ones, and that is the one stable sort of these. -/
theorem Assembled.order_and_entries (h : Assembled added s) :
    s.Sound added ∧
      (∀ op s', s.edit op = .ok s' ↔ s.EditedBy op s') ∧
      (∀ op, (∃ s', s.edit op = .ok s') ↔
        ∀ i ∈ s.entries, op.Carries i.start ∧ op.Carries i.stop) ∧
      (∀ target s', s.relocate target = .ok s' ↔
        ∃ op, s.operationTo target = .ok op ∧ s.EditedBy op s') ∧
      (∀ i : Interval κ ν, i.start ≤ i.stop → ∃ front back, s.entries = front ++ back ∧
        (∀ j ∈ front, j.le i) ∧ (∀ j ∈ back, ¬ j.le i) ∧
        s.insert i = .ok ⟨front ++ i :: back⟩) ∧
      ∀ is : List (Interval κ ν), (∀ i ∈ is, i.start ≤ i.stop) →
        is.foldlM IntervalSet.insert s = .ok (IntervalSet.ofList (s.entries ++ is)) ∧
          ∀ js, Interval.StablySorted (s.entries ++ is) js ↔
            js = (IntervalSet.ofList (s.entries ++ is)).entries := by
  have hsound := h.sound
  have hedit : ∀ op s', s.edit op = .ok s' ↔ s.EditedBy op s' := fun op s' =>
    hsound.ordered.edit_eq_ok_iff hsound.isWord
  refine ⟨hsound, hedit, ?_, ?_, ?_, ?_⟩
  · intro op
    rw [← exists_editedBy_iff]
    exact exists_congr (hedit op)
  · intro target s'
    rw [relocate_eq_ok_iff]
    exact exists_congr fun op => and_congr_right fun _ => hedit op s'
  · intro i hi
    obtain ⟨front, back, hsplit, hfront, hback, heq⟩ := i.exists_insertInto_eq hsound.ordered
    exact ⟨front, back, hsplit, hfront, hback, insert_eq_ok_iff.mpr ⟨hi, by rw [heq]⟩⟩
  · intro is his
    have hsorted := stablySorted_ofList (s.entries ++ is)
    refine ⟨hsound.ordered.foldlM_insert_eq his, fun js => ⟨fun hjs => hjs.unique hsorted, ?_⟩⟩
    rintro rfl
    exact hsorted

/-- A short interval inside a long one. -/
def nested : IntervalSet Nat String := .ofList [⟨0, 2, 10, "long"⟩, ⟨1, 3, 5, "short"⟩]

/-- Deletes the third and the fourth of twelve characters. -/
def shortening : Operation :=
  ⟨[.retain 2, .replace ['c', 'd'] [], .retain 8], by decide, by decide⟩

/-- The deletion takes both starts to the same offset, so the two change places. What is inserted
later stands behind what has the same ends. -/
theorem Assembled.order_and_entries_nested :
    ∃ s, nested.edit shortening = .ok s ∧ s.entries = [⟨1, 2, 3, "short"⟩, ⟨0, 2, 8, "long"⟩] ∧
      nested.EditedBy shortening s ∧
      s.Sound [⟨0, 2, 10, "long"⟩, ⟨1, 3, 5, "short"⟩] ∧
      [⟨2, 2, 8, "late"⟩, ⟨3, 2, 3, "later"⟩].foldlM IntervalSet.insert s =
        .ok ⟨[⟨1, 2, 3, "short"⟩, ⟨3, 2, 3, "later"⟩, ⟨0, 2, 8, "long"⟩, ⟨2, 2, 8, "late"⟩]⟩ := by
  have hnested : Assembled [⟨0, 2, 10, "long"⟩, ⟨1, 3, 5, "short"⟩] nested :=
    .ofList (by simp [Interval.IsWord, Word.bound])
  have hedit : nested.edit shortening = .ok ⟨[⟨1, 2, 3, "short"⟩, ⟨0, 2, 8, "long"⟩]⟩ := rfl
  obtain ⟨-, hedits, -⟩ := hnested.order_and_entries
  obtain ⟨hsound, -, -, -, -, hinserts⟩ := (hnested.edit hedit).order_and_entries
  obtain ⟨hlate, -⟩ := hinserts [⟨2, 2, 8, "late"⟩, ⟨3, 2, 3, "later"⟩] (by simp)
  exact ⟨_, hedit, rfl, (hedits _ _).mp hedit, hsound, hlate⟩

end IntervalSet

end Coedit
