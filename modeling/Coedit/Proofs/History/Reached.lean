import Coedit.Proofs.History.Chronicle
import Coedit.Proofs.Operation.Lengths
import Mathlib.Data.List.DropRight

/-!
# Histories that can be reached

A history comes about by recording, trimming and rewinding, in any order and number. Beside each
history so reached stands the list of what has been recorded and not been rewound, of which the
history itself may have evicted the oldest part:

> `Reached all h`: calls that succeed lead from the empty history to `h`, and `all` is what has been
> recorded on the way.

What is evicted is gone for the history, and yet it never loses its place. Every history reached is
a window onto that list (`Reached.isWindow`), its columns are of one length and its weight is that
of the entries in the window (`Reached.consistent`), and the operations in the window are linked
(`Reached.linked`). All three are inductions over the calls, with one lemma for each kind of call.
-/

namespace Coedit

namespace History

/-- The entries up to the newest one with the given id. -/
def upTo (id : EditId) (all : List Entry) : List Entry := all.rdropWhile fun e => e.id != id

/-- Calls that succeed lead from the empty history to the second one, and the list holds what has
been recorded on the way, as far as it has not been rewound. -/
inductive Reached : List Entry → History → Prop
  | start : Reached [] empty
  | record {all : List Entry} {h h' : History} {id : EditId} {op : Operation} :
    Reached all h → h.record id op = .ok h' → Reached (all ++ [⟨id, op⟩]) h'
  | trim {all : List Entry} {h : History} (policy : Retention) :
    Reached all h → Reached all (h.trim policy)
  | rewind {all : List Entry} {h h' : History} {t : Nat} :
    Reached all h → h.rewind t = .ok h' → Reached (all.take t) h'
  | rewindTo {all : List Entry} {h h' : History} {id : EditId} :
    Reached all h → h.rewindTo (some id) = .ok h' → Reached (upTo id all) h'

variable {all : List Entry} {h h' : History} {entry : Entry}

/-! ## Rewinding to an edit -/

theorem upTo_append {id : EditId} {front back : List Entry} {entry : Entry} (hid : entry.id = id)
    (hback : ∀ e ∈ back, e.id ≠ id) : upTo id (front ++ entry :: back) = front ++ [entry] := by
  induction back using List.reverseRecOn with
  | nil => exact List.rdropWhile_concat_neg _ _ _ (by simpa using hid)
  | append_singleton back last ih =>
    have hlast : last.id ≠ id := hback last (List.mem_append_right _ (List.mem_singleton_self _))
    have hrest : ∀ e ∈ back, e.id ≠ id := fun e he => hback e (List.mem_append_left _ he)
    rw [← ih hrest, show front ++ entry :: (back ++ [last]) = (front ++ entry :: back) ++ [last] by
      simp]
    exact List.rdropWhile_concat_pos _ _ _ (by simpa using hlast)

/-- An id that is retained has a newest place, and one that is not is refused. -/
theorem position_cases (h : History) (id : EditId) :
    (id ∉ h.ids ∧ h.position id = .error .notRetained) ∨
      ∃ i, h.position id = .ok i ∧ h.ids[i]? = some id ∧ id ∉ h.ids.drop (i + 1) := by
  unfold position
  split
  · next i hi =>
    obtain ⟨other, hget, hother, hback⟩ := TrieVec.lastIndex?_eq_some hi
    rw [eq_of_beq hother] at hget
    refine Or.inr ⟨i, rfl, hget, fun hmem => ?_⟩
    simpa using hback id hmem
  · next hnone =>
    refine Or.inl ⟨fun hmem => ?_, rfl⟩
    simpa using TrieVec.lastIndex?_eq_none hnone id hmem

/-- The entry at the newest place of an id. -/
theorem Paired.exists_entry (hp : h.Paired) {id : EditId} {i : Nat} (hget : h.ids[i]? = some id)
    (hlast : id ∉ h.ids.drop (i + 1)) :
    ∃ entry, h.entries[i]? = some entry ∧ entry.id = id ∧
      ∀ e ∈ h.entries.drop (i + 1), e.id ≠ id := by
  rw [← hp.map_id, List.getElem?_map, Option.map_eq_some_iff] at hget
  obtain ⟨entry, hentry, hid⟩ := hget
  refine ⟨entry, hentry, hid, fun e he heq => hlast ?_⟩
  rw [← hp.map_id, ← List.map_drop, ← heq]
  exact List.mem_map_of_mem he

theorem rewindTo_some (h : History) (id : EditId) :
    h.rewindTo (some id) = (h.position id >>= fun i => .ok (h.cutBack (i + 1))) := rfl

/-- What came after a place is a slice within the vector. -/
theorem since_eq_ok {id : EditId} {i : Nat} (hpos : h.position id = .ok i)
    (hi : i + 1 ≤ h.length) : h.since (some id) = .ok (h.operations.drop (i + 1)) := by
  have hslice : h.operationColumn.slice (i + 1) h.length =
      .ok (h.operationColumn.drop (i + 1)) := h.operationColumn.slice_eq_drop hi
  rw [since, hpos]
  show (Failure.ofFault (h.operationColumn.slice (i + 1) h.length) >>= _) = _
  rw [hslice]
  show Except.ok (h.operationColumn.drop (i + 1)).toList = _
  rw [TrieVec.toList_drop]
  rfl

/-- Cutting back does not move the window. -/
theorem IsWindow.oldestTimestamp_cutBack (w : IsWindow all h) {count : Nat}
    (hcount : count ≤ h.length) : (h.cutBack count).oldestTimestamp = h.oldestTimestamp := by
  have hle := w.length_le
  have htime := (w.cutBack hcount).length_all
  rw [List.length_take, w.length_all] at htime
  unfold oldestTimestamp at htime ⊢
  rw [length_cutBack hcount]
  omega

/-- Rewinding to a timestamp within the window does not move the window. -/
theorem IsWindow.exists_rewind (w : IsWindow all h) {t : Nat} (hfirst : h.oldestTimestamp ≤ t)
    (ht : t ≤ h.timestamp) :
    ∃ g, h.rewind t = .ok g ∧ g.IsWindow (all.take t) ∧
      g.oldestTimestamp = h.oldestTimestamp := by
  have hle := w.length_le
  have hcount : t - h.oldestTimestamp ≤ h.length := by
    unfold oldestTimestamp at hfirst ⊢
    omega
  have hok := w.rewind_eq hfirst ht
  exact ⟨_, hok, (w.rewind hok).2.2, w.oldestTimestamp_cutBack hcount⟩

/-- Rewinding to an edit and listing what came after it cut the retained entries at the newest
occurrence of the id. -/
theorem IsWindow.exists_rewindTo (w : IsWindow all h) {i : Nat} {id : EditId} {entry : Entry}
    (hpos : h.position id = .ok i) (hget : h.entries[i]? = some entry)
    (hid : entry.id = id) (hback : ∀ e ∈ h.entries.drop (i + 1), e.id ≠ id) :
    ∃ g, h.rewindTo (some id) = .ok g ∧ g.IsWindow (upTo id all) ∧
      g.oldestTimestamp = h.oldestTimestamp ∧ g.entries = h.entries.take (i + 1) ∧
      h.since (some id) = .ok ((h.entries.drop (i + 1)).map Entry.operation) := by
  have hcount : i + 1 ≤ h.length := by
    have hi := (List.getElem?_eq_some_iff.mp hget).1
    rw [w.paired.length_entries] at hi
    exact hi
  have hok : h.rewindTo (some id) = .ok (h.cutBack (i + 1)) := by
    rw [rewindTo_some, hpos]
    rfl
  have hsince : h.since (some id) = .ok ((h.entries.drop (i + 1)).map Entry.operation) := by
    rw [since_eq_ok hpos hcount, List.map_drop, w.paired.map_operation]
  refine ⟨_, hok, ?_, w.oldestTimestamp_cutBack hcount, w.paired.entries_cutBack _, hsince⟩
  -- the newest occurrence in the window is the newest of all
  have hsplit := eq_take_append_drop_of_getElem? hget
  have hall : all = (all.take h.oldestTimestamp ++ h.entries.take i) ++
      entry :: h.entries.drop (i + 1) := by
    rw [List.append_assoc, ← hsplit, w.entries_eq, List.take_append_drop]
  have hcut : upTo id all = all.take (h.oldestTimestamp + (i + 1)) := by
    have htake : h.entries.take (i + 1) = h.entries.take i ++ [entry] := by
      rw [List.take_add_one, hget]
      rfl
    rw [List.take_add, ← w.entries_eq, htake, ← List.append_assoc]
    conv_lhs => rw [hall]
    exact upTo_append hid hback
  rw [hcut]
  exact w.cutBack hcount

theorem IsWindow.rewindTo (w : IsWindow all h) {id : EditId} {g : History}
    (hg : h.rewindTo (some id) = .ok g) : g.IsWindow (upTo id all) := by
  rcases h.position_cases id with ⟨_, hpos⟩ | ⟨i, hpos, hplace, hlast⟩
  · rw [rewindTo_some, hpos] at hg
    cases hg
  · obtain ⟨entry, hget, hid, hback⟩ := w.paired.exists_entry hplace hlast
    obtain ⟨g', hok, wg, _⟩ := w.exists_rewindTo hpos hget hid hback
    rw [hok] at hg
    cases hg
    exact wg

/-! ## What holds of every history reached -/

/-- Every history reached is a window onto what has been recorded. -/
theorem Reached.isWindow (hr : Reached all h) : h.IsWindow all := by
  induction hr with
  | start => exact isWindow_empty
  | record _ hrec ih => exact ih.record hrec
  | trim policy _ ih => exact ih.trim policy
  | rewind _ hrew ih => exact (ih.rewind hrew).2.2
  | rewindTo _ hrew ih => exact ih.rewindTo hrew

theorem Reached.excerpt (hr : Reached all h) {g : History} (hg : h.Excerpt g) :
    Reached (all.take g.timestamp) g := by
  induction hg with
  | whole =>
    rw [← hr.isWindow.length_all, List.take_length]
    exact hr
  | @rewind g g' t _ hrew ih =>
    obtain ⟨hle, ht, _⟩ := ih.isWindow.rewind hrew
    have hnext := ih.rewind hrew
    rw [List.take_take, Nat.min_eq_left hle] at hnext
    rw [ht]
    exact hnext
  | trim policy _ ih =>
    rw [timestamp_trim]
    exact ih.trim policy

/-! ### Weight -/

/-- What entries weigh together. -/
def weightOf (entries : List Entry) : Nat := total (fun e => e.operation.size) entries

theorem weightOf_append (entries later : List Entry) :
    weightOf (entries ++ later) = weightOf entries + weightOf later := total_append ..

theorem weightOf_take_add_drop (entries : List Entry) (n : Nat) :
    weightOf (entries.take n) + weightOf (entries.drop n) = weightOf entries := by
  rw [← weightOf_append, List.take_append_drop]

theorem weightOf_eq_total (entries : List Entry) :
    weightOf entries = total Operation.size (entries.map Entry.operation) := by
  rw [weightOf, total, total, List.foldr_map]

theorem Paired.weightAt_eq (hp : h.Paired) {i : Nat} (hget : h.entries[i]? = some entry) :
    h.weightAt i = entry.operation.size := by
  have hop : h.operationColumn.get? i = some entry.operation := by
    rw [TrieVec.get?_eq]
    show h.operations[i]? = _
    rw [← hp.map_operation, List.getElem?_map, hget]
    rfl
  rw [weightAt, hop]
  rfl

/-- The newest `count + 1` entries weigh what the oldest of them and the others weigh. -/
theorem Paired.weightOf_newest_succ (hp : h.Paired) {count : Nat} (hcount : count + 1 ≤ h.length) :
    weightOf (h.entries.drop (h.length - (count + 1))) =
      h.weightAt (h.length - (count + 1)) + weightOf (h.entries.drop (h.length - count)) := by
  have hi : h.length - (count + 1) < h.entries.length := by
    rw [hp.length_entries]
    omega
  rw [List.drop_eq_getElem_cons hi, weightOf, total_cons,
    hp.weightAt_eq (List.getElem?_eq_getElem hi),
    show h.length - (count + 1) + 1 = h.length - count by omega]
  rfl

/-- The bounds are met by some of the newest entries, with the weight that these have. The sum is
kept up entry by entry, so the invariant is that it is the weight of what is left. -/
theorem Paired.withinBounds_weight (hp : h.Paired) (policy : Retention) {count weight : Nat}
    (hcount : count ≤ h.length)
    (hweight : weight = weightOf (h.entries.drop (h.length - count))) :
    (h.withinBounds policy count weight).1 ≤ count ∧
      (h.withinBounds policy count weight).2 =
        weightOf (h.entries.drop (h.length - (h.withinBounds policy count weight).1)) := by
  induction count generalizing weight with
  | zero => exact ⟨Nat.le_refl _, hweight⟩
  | succ count ih =>
    unfold withinBounds
    split
    · exact ⟨Nat.le_refl _, hweight⟩
    · have hnext : weight - h.weightAt (h.length - (count + 1)) =
          weightOf (h.entries.drop (h.length - count)) := by
        rw [hweight, hp.weightOf_newest_succ hcount, Nat.add_sub_cancel_left]
      obtain ⟨hle, heq⟩ := ih (by omega) hnext
      exact ⟨by omega, heq⟩

/-- There are as many ids as operations, and the weight is that of the entries they make up. -/
structure Consistent (h : History) : Prop where
  paired : h.Paired
  weight_eq : h.weight = weightOf h.entries

/-- All entries are the newest of them, so the eviction loop may start with the weight of all. -/
theorem Consistent.weight_eq_newest (hc : h.Consistent) :
    h.weight = weightOf (h.entries.drop (h.length - h.length)) := by
  rw [Nat.sub_self, List.drop_zero, hc.weight_eq]

/-- What the eviction loop leaves of the history, and its weight. -/
theorem Consistent.withinBounds (hc : h.Consistent) (policy : Retention) :
    (h.withinBounds policy h.length h.weight).1 ≤ h.length ∧
      (h.withinBounds policy h.length h.weight).2 =
        weightOf (h.entries.drop (h.evictedBy policy)) :=
  hc.paired.withinBounds_weight policy (Nat.le_refl h.length) hc.weight_eq_newest

theorem Consistent.push (hc : h.Consistent) (hpush : h.push entry = .ok h') : h'.Consistent := by
  refine ⟨hc.paired.push hpush, ?_⟩
  rw [hc.paired.entries_push hpush, weightOf_append, ← hc.weight_eq, push_eq_ok hpush]
  rfl

theorem Consistent.trim (hc : h.Consistent) (policy : Retention) :
    (h.trim policy).Consistent := by
  refine ⟨hc.paired.trim policy, ?_⟩
  rw [entries_trim]
  simp only [History.trim]
  split
  · next hkept =>
    rw [evictedBy, hkept]
    exact hc.weight_eq_newest
  · exact (hc.withinBounds policy).2

/-- What is cut off has been weighed. -/
theorem Consistent.weightOf_take_add (hc : h.Consistent) (count : Nat) :
    weightOf (h.entries.take count) + total Operation.size (h.operationColumn.drop count).toList =
      h.weight := by
  have hops : (h.operationColumn.drop count).toList =
      (h.entries.drop count).map Entry.operation := by
    rw [TrieVec.toList_drop, List.map_drop, hc.paired.map_operation]
    rfl
  rw [hops, ← weightOf_eq_total, weightOf_take_add_drop, hc.weight_eq]

theorem Consistent.cutBack (hc : h.Consistent) (count : Nat) : (h.cutBack count).Consistent := by
  refine ⟨hc.paired.cutBack count, ?_⟩
  rw [hc.paired.entries_cutBack]
  have hsum := hc.weightOf_take_add count
  unfold History.cutBack
  split
  · next hall =>
    rw [hall, ← hc.paired.length_entries, List.take_length, hc.weight_eq]
  · show h.weight - _ = _
    omega

theorem rewind_eq_ok {t : Nat} {g : History} (hrew : h.rewind t = .ok g) :
    ∃ count, g = h.cutBack count := by
  unfold rewind at hrew
  split at hrew
  · cases hrew
  · split at hrew
    · cases hrew
    · cases hrew
      exact ⟨_, rfl⟩

theorem rewindTo_eq_ok {id : EditId} {g : History} (hrew : h.rewindTo (some id) = .ok g) :
    ∃ count, g = h.cutBack count := by
  obtain ⟨i, _, hok⟩ := bind_eq_ok.mp hrew
  cases hok
  exact ⟨i + 1, rfl⟩

/-- A history reached has as many ids as operations, since each call does the same to both, and
weighs what its entries weigh, so nothing is ever taken off that was not counted before. -/
theorem Reached.consistent (hr : Reached all h) : h.Consistent := by
  induction hr with
  | start => exact ⟨rfl, rfl⟩
  | record _ hrec ih => exact ih.push (push_of_record hrec)
  | trim policy _ ih => exact ih.trim policy
  | rewind _ hrew ih =>
    obtain ⟨count, rfl⟩ := rewind_eq_ok hrew
    exact ih.cutBack count
  | rewindTo _ hrew ih =>
    obtain ⟨count, rfl⟩ := rewindTo_eq_ok hrew
    exact ih.cutBack count

/-! ### Links -/

/-- The newest retained change is the last of the retained operations that is not empty. -/
theorem lastChange?_eq (h : History) :
    h.lastChange? = (Operation.changes h.operations).getLast? := by
  have hempty : ∀ ops : List Operation, (∀ op ∈ ops, op.isEmpty) → Operation.changes ops = [] :=
    fun ops hall => List.filter_eq_nil_iff.mpr (fun op hop => by simpa using hall op hop)
  cases hlast : h.lastChange? with
  | some op =>
    obtain ⟨front, back, hsplit, hop, hback⟩ := operations_of_lastChange? hlast
    rw [hsplit, Operation.changes_append, Operation.changes_cons hop, hempty back hback,
      List.getLast?_append]
    rfl
  | none =>
    have hnone : h.operationColumn.lastIndex? (fun op => !op.isEmpty) = none := by
      unfold lastChange? at hlast
      cases hi : h.operationColumn.lastIndex? fun op => !op.isEmpty with
      | none => rfl
      | some i =>
        obtain ⟨front, op, back, _, hget, _⟩ := TrieVec.toList_of_lastIndex? hi
        rw [hi] at hlast
        simp only [Option.bind_eq_bind, Option.bind_some, hget] at hlast
        cases hlast
    rw [hempty h.operations]
    · rfl
    · intro op hop
      simpa using TrieVec.lastIndex?_eq_none hnone op hop

/-- What can be recorded follows the newest retained change, unless it is empty. -/
theorem lenBefore_of_record {id : EditId} {op : Operation} {h' : History}
    (hrec : h.record id op = .ok h') (hop : ¬ op.isEmpty) :
    ∀ last ∈ h.lastChange?, last.lenAfter = op.lenBefore := by
  intro last hlast
  unfold record at hrec
  rw [if_neg hop, Option.mem_def.mp hlast] at hrec
  split at hrec
  · next hnone => cases hnone
  · next last' hsome =>
    cases hsome
    split at hrec
    · next hfit => exact hfit
    · cases hrec

/-- The retained operations of a history reached are linked: recording checks the link to the
newest change that is still there, and trimming and rewinding leave a stretch of what was linked. -/
theorem Reached.linked (hr : Reached all h) : Operation.Linked h.operations := by
  induction hr with
  | start => exact .nil
  | @record all h h' id op _ hrec ih =>
    unfold Operation.Linked at ih ⊢
    rw [operations_push (push_of_record hrec), Operation.changes_append]
    by_cases hop : op.isEmpty
    · rw [Operation.changes_cons_of_isEmpty hop]
      show List.IsChain _ (_ ++ [])
      rw [List.append_nil]
      exact ih
    · rw [Operation.changes_cons hop]
      refine ih.append (.singleton _) ?_
      intro last hlast next hnext
      cases hnext
      rw [← lastChange?_eq] at hlast
      exact lenBefore_of_record hrec hop last hlast
  | trim policy _ ih =>
    rw [operations_trim]
    exact ih.infix (List.drop_suffix ..).isInfix
  | rewind _ hrew ih =>
    obtain ⟨count, rfl⟩ := rewind_eq_ok hrew
    rw [operations_cutBack]
    exact ih.infix (List.take_prefix ..).isInfix
  | rewindTo _ hrew ih =>
    obtain ⟨count, rfl⟩ := rewindTo_eq_ok hrew
    rw [operations_cutBack]
    exact ih.infix (List.take_prefix ..).isInfix

end History

/-- The history of a document is reached by its edits. -/
theorem Document.Run.reached {past : Chronicle} {d : Document}
    (hrun : Document.Run past d) : d.history.Reached past.entries := by
  induction hrun with
  | start => exact .start
  | @edit past d d' id op _ hedit ih =>
    obtain ⟨text, history, _, hrec, rfl⟩ := Document.edit_eq_ok.mp hedit
    rw [Chronicle.entries, List.map_append]
    exact .trim d.retention (.record ih hrec)
  | withRetention policy _ ih => exact .trim policy ih

end Coedit
