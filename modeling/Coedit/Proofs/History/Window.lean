import Coedit.History.Trim
import Coedit.Proofs.Operation.Effect

/-!
# A history is a window onto all that was recorded

A history keeps the newest of the entries ever recorded and counts all of them. So there is always
a list of all entries behind it, as long as the timestamp says, and what is retained is the end of
that list:

> `IsWindow all h`: `all` has `h.timestamp` entries, and the retained entries of `h` are its last.

The history itself has no entries. It has a vector of operations and a vector of ids, and an entry is
what stands at the same place of both (`History.entries`). Nothing holds the two vectors together
but the calls, each of which has to leave as many ids as operations (`Paired.push`, `Paired.trim`,
`Paired.cutBack`).

Recording adds an entry to the list behind the window, trimming keeps the list, and rewinding cuts
it off at the new timestamp (`IsWindow.record`, `IsWindow.trim`, `IsWindow.rewind`). Lookups answer
from the list: what `idAt` and `between` give is what stands there at those timestamps
(`IsWindow.idAt`, `IsWindow.between`), never an entry of another timestamp. They find it by a signed
difference, which on a window is the distance from the oldest retained timestamp
(`IsWindow.placeAt_eq`).
-/

namespace Coedit

namespace History

variable {all : List Entry} {h h' : History} {entry : Entry} {policy : Retention}

/-! ## Ids and operations -/

/-- The retained entries, oldest first: the ids and the operations, place by place. -/
def entries (h : History) : List Entry := List.zipWith Entry.mk h.ids h.operations

/-- There are as many ids as operations. -/
def Paired (h : History) : Prop := h.ids.length = h.operations.length

theorem length_operations (h : History) : h.operations.length = h.length :=
  TrieVec.length_toList _

theorem Paired.length_ids (hp : h.Paired) : h.ids.length = h.length := hp.trans h.length_operations

theorem Paired.length_entries (hp : h.Paired) : h.entries.length = h.length := by
  rw [entries, List.length_zipWith, hp.length_ids, h.length_operations, Nat.min_self]

theorem Paired.map_id (hp : h.Paired) : h.entries.map Entry.id = h.ids := by
  have hfirst := List.map_fst_zip (Nat.le_of_eq hp)
  rw [List.zip, List.map_zipWith] at hfirst
  rw [entries, List.map_zipWith]
  exact hfirst

theorem Paired.map_operation (hp : h.Paired) : h.entries.map Entry.operation = h.operations := by
  have hsecond := List.map_snd_zip (Nat.le_of_eq hp.symm)
  rw [List.zip, List.map_zipWith] at hsecond
  rw [entries, List.map_zipWith]
  exact hsecond

/-! ### Recording -/

theorem push_eq_ok (hpush : h.push entry = .ok h') :
    h' = ⟨h.operationColumn.push entry.operation, h.idColumn.push entry.id, h.timestamp + 1,
      h.weight + entry.operation.size⟩ := by
  obtain ⟨weight, hadd, hok⟩ := bind_eq_ok.mp hpush
  cases hok
  unfold Word.add at hadd
  split at hadd
  · cases hadd
    rfl
  · cases hadd

theorem operations_push (hpush : h.push entry = .ok h') :
    h'.operations = h.operations ++ [entry.operation] := by
  rw [push_eq_ok hpush]
  exact TrieVec.toList_push ..

theorem ids_push (hpush : h.push entry = .ok h') : h'.ids = h.ids ++ [entry.id] := by
  rw [push_eq_ok hpush]
  exact TrieVec.toList_push ..

theorem Paired.push (hp : h.Paired) (hpush : h.push entry = .ok h') : h'.Paired := by
  rw [Paired, ids_push hpush, operations_push hpush, List.length_append, List.length_append, hp]
  rfl

theorem Paired.entries_push (hp : h.Paired) (hpush : h.push entry = .ok h') :
    h'.entries = h.entries ++ [entry] := by
  rw [entries, ids_push hpush, operations_push hpush, List.zipWith_append hp]
  rfl

/-- Whatever the check before it says, recording pushes the entry or fails. -/
theorem push_of_record {id : EditId} {op : Operation} (hrec : h.record id op = .ok h') :
    h.push ⟨id, op⟩ = .ok h' := by
  unfold record at hrec
  split at hrec
  · exact hrec
  · split at hrec
    · exact hrec
    · cases hrec

/-- The newest retained change splits the retained operations: only empty ones come after it. -/
theorem operations_of_lastChange? {op : Operation} (hlast : h.lastChange? = some op) :
    ∃ front back, h.operations = front ++ op :: back ∧ ¬ op.isEmpty ∧
      ∀ later ∈ back, later.isEmpty := by
  obtain ⟨i, hi, hget⟩ := Option.bind_eq_some_iff.mp hlast
  obtain ⟨front, op', back, hsplit, hget', hop, hback⟩ := TrieVec.toList_of_lastIndex? hi
  rw [hget'] at hget
  cases hget
  refine ⟨front, back, hsplit, by simpa using hop, ?_⟩
  intro later hlater
  simpa using hback later hlater

/-! ### Trimming -/

/-- The number of entries that trimming evicts. -/
def evictedBy (h : History) (policy : Retention) : Nat :=
  h.length - (h.withinBounds policy h.length h.weight).1

@[simp] theorem timestamp_trim (policy : Retention) : (h.trim policy).timestamp = h.timestamp := by
  simp only [History.trim]
  split <;> rfl

theorem operations_trim (h : History) (policy : Retention) :
    (h.trim policy).operations = h.operations.drop (h.evictedBy policy) := by
  simp only [History.trim, evictedBy]
  split
  · next hkept => rw [hkept, Nat.sub_self, List.drop_zero]
  · exact TrieVec.toList_drop ..

theorem ids_trim (h : History) (policy : Retention) :
    (h.trim policy).ids = h.ids.drop (h.evictedBy policy) := by
  simp only [History.trim, evictedBy]
  split
  · next hkept => rw [hkept, Nat.sub_self, List.drop_zero]
  · exact TrieVec.toList_drop ..

theorem Paired.trim (hp : h.Paired) (policy : Retention) : (h.trim policy).Paired := by
  rw [Paired, ids_trim, operations_trim, List.length_drop, List.length_drop, hp]

theorem entries_trim (h : History) (policy : Retention) :
    (h.trim policy).entries = h.entries.drop (h.evictedBy policy) := by
  rw [entries, ids_trim, operations_trim, entries, List.drop_zipWith]

/-- What is retained after trimming are the newest of the entries retained before. -/
theorem entries_trim_suffix (h : History) (policy : Retention) :
    (h.trim policy).entries <:+ h.entries := by
  rw [entries_trim]
  exact List.drop_suffix ..

/-! ### Cutting back -/

theorem operations_cutBack (h : History) (count : Nat) :
    (h.cutBack count).operations = h.operations.take count := by
  unfold History.cutBack
  split
  · next hall => rw [hall, ← h.length_operations, List.take_length]
  · exact TrieVec.toList_take ..

theorem Paired.ids_cutBack (hp : h.Paired) (count : Nat) :
    (h.cutBack count).ids = h.ids.take count := by
  unfold History.cutBack
  split
  · next hall => rw [hall, ← hp.length_ids, List.take_length]
  · exact TrieVec.toList_take ..

theorem Paired.cutBack (hp : h.Paired) (count : Nat) : (h.cutBack count).Paired := by
  rw [Paired, hp.ids_cutBack, operations_cutBack, List.length_take, List.length_take, hp]

theorem Paired.entries_cutBack (hp : h.Paired) (count : Nat) :
    (h.cutBack count).entries = h.entries.take count := by
  rw [entries, hp.ids_cutBack, operations_cutBack, entries, List.take_zipWith]

theorem length_cutBack {count : Nat} (hcount : count ≤ h.length) :
    (h.cutBack count).length = count := by
  rw [← length_operations, operations_cutBack, List.length_take, length_operations]
  exact Nat.min_eq_left hcount

/-! ## Windows -/

/-- The history retains the last entries of `all`, and its timestamp counts all of them. -/
structure IsWindow (all : List Entry) (h : History) : Prop where
  paired : h.Paired
  length_all : all.length = h.timestamp
  suffix : h.entries <:+ all

theorem IsWindow.length_le (w : IsWindow all h) : h.length ≤ h.timestamp := by
  rw [← w.paired.length_entries, ← w.length_all]
  exact w.suffix.length_le

/-- The retained entries are those from the oldest retained timestamp on. -/
theorem IsWindow.entries_eq (w : IsWindow all h) : h.entries = all.drop h.oldestTimestamp := by
  have hdrop := List.suffix_iff_eq_drop.mp w.suffix
  rw [w.paired.length_entries, w.length_all] at hdrop
  exact hdrop

theorem IsWindow.operations_suffix (w : IsWindow all h) :
    h.operations <:+ all.map Entry.operation := by
  rw [← w.paired.map_operation]
  exact w.suffix.map _

theorem IsWindow.operations_eq (w : IsWindow all h) :
    h.operations = (all.map Entry.operation).drop h.oldestTimestamp := by
  rw [← w.paired.map_operation, w.entries_eq, List.map_drop]

theorem IsWindow.ids_eq (w : IsWindow all h) :
    h.ids = (all.map Entry.id).drop h.oldestTimestamp := by
  rw [← w.paired.map_id, w.entries_eq, List.map_drop]

theorem isWindow_empty : IsWindow [] empty := ⟨rfl, rfl, List.suffix_refl _⟩

theorem IsWindow.push (w : IsWindow all h) (hpush : h.push entry = .ok h') :
    IsWindow (all ++ [entry]) h' := by
  obtain ⟨evicted, hev⟩ := w.suffix
  refine ⟨w.paired.push hpush, ?_, evicted, ?_⟩
  · rw [List.length_append, List.length_singleton, w.length_all, push_eq_ok hpush]
  · rw [w.paired.entries_push hpush, ← List.append_assoc, hev]

theorem IsWindow.record (w : IsWindow all h) {id : EditId} {op : Operation}
    (hrec : h.record id op = .ok h') : IsWindow (all ++ [⟨id, op⟩]) h' :=
  w.push (push_of_record hrec)

theorem IsWindow.trim (w : IsWindow all h) (policy : Retention) : IsWindow all (h.trim policy) where
  paired := w.paired.trim policy
  length_all := by
    rw [timestamp_trim]
    exact w.length_all
  suffix := (h.entries_trim_suffix policy).trans w.suffix

/-- Cutting back to the first `count` retained entries cuts the list of all entries as far. -/
theorem IsWindow.cutBack (w : IsWindow all h) {count : Nat} (hcount : count ≤ h.length) :
    IsWindow (all.take (h.oldestTimestamp + count)) (h.cutBack count) := by
  have hle := w.length_le
  have hold : h.oldestTimestamp = h.timestamp - h.length := rfl
  have htime : (h.cutBack count).timestamp = h.timestamp - (h.length - count) := by
    unfold History.cutBack
    split
    · next hall => rw [hall, Nat.sub_self, Nat.sub_zero]
    · rfl
  -- what was evicted before the cut is what was evicted after it
  refine ⟨w.paired.cutBack count, ?_, all.take h.oldestTimestamp, ?_⟩
  · rw [List.length_take, w.length_all, htime]
    omega
  · rw [w.paired.entries_cutBack, w.entries_eq, List.take_add]

/-! ### Places -/

theorem oldestTimestamp_le (h : History) : h.oldestTimestamp ≤ h.timestamp := Nat.sub_le ..

/-- The place of a timestamp before the oldest retained one is negative. -/
theorem placeAt_of_evicted {t : Nat} (ht : t < h.oldestTimestamp) :
    ∃ k, h.placeAt t = .negSucc k := by
  refine Int.eq_negSucc_of_lt_zero ?_
  unfold oldestTimestamp at ht
  unfold placeAt
  omega

/-- On a window the place of a retained timestamp is its distance from the oldest one. -/
theorem IsWindow.placeAt_eq (w : IsWindow all h) {t : Nat} (hfirst : h.oldestTimestamp ≤ t)
    (ht : t ≤ h.timestamp) : h.placeAt t = .ofNat (t - h.oldestTimestamp) := by
  have hle := w.length_le
  have hold : h.oldestTimestamp = h.timestamp - h.length := rfl
  rw [placeAt, Int.ofNat_eq_natCast]
  omega

/-! ### Rewinding -/

/-- Rewinding to before the window is refused. -/
theorem rewind_of_evicted {t : Nat} (ht : t < h.oldestTimestamp) :
    h.rewind t = .error (.refused (.trimmed t)) := by
  have hle := h.oldestTimestamp_le
  obtain ⟨k, hplace⟩ := placeAt_of_evicted ht
  rw [History.rewind, if_neg (by omega), hplace]

/-- Rewinding within the window cuts back to the entries before the timestamp. -/
theorem IsWindow.rewind_eq (w : IsWindow all h) {t : Nat} (hfirst : h.oldestTimestamp ≤ t)
    (ht : t ≤ h.timestamp) : h.rewind t = .ok (h.cutBack (t - h.oldestTimestamp)) := by
  rw [History.rewind, if_neg (Nat.not_lt.mpr ht), w.placeAt_eq hfirst ht]

theorem le_of_rewind {t : Nat} {g : History} (hrew : h.rewind t = .ok g) :
    h.oldestTimestamp ≤ t ∧ t ≤ h.timestamp := by
  constructor
  · refine Nat.not_lt.mp fun hevicted => ?_
    rw [rewind_of_evicted hevicted] at hrew
    cases hrew
  · unfold History.rewind at hrew
    split at hrew
    · cases hrew
    · next hahead => exact Nat.not_lt.mp hahead

/-- Rewinding to a timestamp leaves a window onto what had been recorded then. -/
theorem IsWindow.rewind (w : IsWindow all h) {t : Nat} {g : History} (hrew : h.rewind t = .ok g) :
    t ≤ h.timestamp ∧ g.timestamp = t ∧ IsWindow (all.take t) g := by
  have hle := w.length_le
  have hold : h.oldestTimestamp = h.timestamp - h.length := rfl
  obtain ⟨hfirst, ht⟩ := le_of_rewind hrew
  rw [w.rewind_eq hfirst ht] at hrew
  cases hrew
  have wcut := w.cutBack (show t - h.oldestTimestamp ≤ h.length by omega)
  rw [Nat.add_sub_cancel' hfirst] at wcut
  have htime := wcut.length_all
  rw [List.length_take, w.length_all] at htime
  exact ⟨ht, by omega, wcut⟩

/-- What can be cut from a history: it may be rewound and trimmed, in any order and any number of
times. -/
inductive Excerpt (h : History) : History → Prop
  | whole : Excerpt h h
  | rewind {g g' : History} {t : Nat} : Excerpt h g → g.rewind t = .ok g' → Excerpt h g'
  | trim {g : History} (policy : Retention) : Excerpt h g → Excerpt h (g.trim policy)

theorem IsWindow.excerpt (w : IsWindow all h) {g : History} (hg : h.Excerpt g) :
    g.timestamp ≤ h.timestamp ∧ IsWindow (all.take g.timestamp) g := by
  induction hg with
  | whole =>
    rw [← w.length_all, List.take_length]
    exact ⟨Nat.le_refl _, w⟩
  | @rewind g g' t _ hrew ih =>
    obtain ⟨hle, ht, wg⟩ := ih.2.rewind hrew
    subst ht
    rw [List.take_take, Nat.min_eq_left hle] at wg
    exact ⟨Nat.le_trans hle ih.1, wg⟩
  | trim policy _ ih =>
    rw [timestamp_trim]
    exact ⟨ih.1, ih.2.trim policy⟩

/-! ## Lookups -/

/-- At a retained timestamp there is the id of the entry recorded then. -/
theorem IsWindow.idAt_eq_ok (w : IsWindow all h) {t : Nat} (hfirst : h.oldestTimestamp ≤ t)
    (hentry : all[t]? = some entry) : h.idAt t = .ok entry.id := by
  have ht := (List.getElem?_eq_some_iff.mp hentry).1
  rw [w.length_all] at ht
  have hget : h.idColumn.get? (t - h.oldestTimestamp) = some entry.id := by
    rw [TrieVec.get?_eq]
    show h.ids[t - h.oldestTimestamp]? = _
    rw [w.ids_eq, List.getElem?_drop, Nat.add_sub_cancel' hfirst, List.getElem?_map, hentry]
    rfl
  rw [History.idAt, if_neg (Nat.not_le.mpr ht), w.placeAt_eq hfirst (Nat.le_of_lt ht)]
  simp only [hget]

theorem idAt_of_ahead {t : Nat} (ht : h.timestamp ≤ t) :
    h.idAt t = .error (.notYet t h.timestamp) := by
  rw [idAt, if_pos ht]

theorem idAt_of_evicted {t : Nat} (ht : t < h.oldestTimestamp) :
    h.idAt t = .error (.trimmed t) := by
  have hle := h.oldestTimestamp_le
  obtain ⟨k, hplace⟩ := placeAt_of_evicted ht
  rw [idAt, if_neg (by omega), hplace]

/-- The id found at a timestamp is the id of the entry recorded then. -/
theorem IsWindow.idAt (w : IsWindow all h) {t : Nat} {id : EditId} (hid : h.idAt t = .ok id) :
    ∃ entry, all[t]? = some entry ∧ entry.id = id := by
  by_cases ht : h.timestamp ≤ t
  · rw [idAt_of_ahead ht] at hid
    cases hid
  by_cases hevicted : t < h.oldestTimestamp
  · rw [idAt_of_evicted hevicted] at hid
    cases hid
  obtain ⟨entry, hentry⟩ : ∃ entry, all[t]? = some entry :=
    ⟨_, List.getElem?_eq_getElem (by rw [w.length_all]; exact Nat.not_le.mp ht)⟩
  rw [w.idAt_eq_ok (Nat.not_lt.mp hevicted) hentry] at hid
  cases hid
  exact ⟨entry, hentry, rfl⟩

/-- The operations from one timestamp up to another are those recorded then, unless the first of
them have been evicted. -/
theorem IsWindow.between (w : IsWindow all h) {start stop : Nat} (hstart : start ≤ stop)
    (hstop : stop ≤ h.timestamp) :
    h.between start stop =
      if start < h.oldestTimestamp then .error (.refused (.trimmed start))
      else .ok (((all.take stop).drop start).map Entry.operation) := by
  have hle := w.length_le
  have hold : h.oldestTimestamp = h.timestamp - h.length := rfl
  rw [History.between, if_neg (fun hn => hn ⟨hstart, hstop⟩)]
  by_cases hevicted : start < h.oldestTimestamp
  · obtain ⟨k, hplace⟩ := placeAt_of_evicted hevicted
    rw [hplace, if_pos hevicted]
  · rw [w.placeAt_eq (Nat.not_lt.mp hevicted) (Nat.le_trans hstart hstop),
      w.placeAt_eq (Nat.le_trans (Nat.not_lt.mp hevicted) hstart) hstop, if_neg hevicted]
    show (Failure.ofFault (h.operationColumn.slice _ (stop - h.oldestTimestamp)) >>= _) = _
    -- the places are within the vector
    have hrange : start - h.oldestTimestamp ≤ stop - h.oldestTimestamp ∧
        stop - h.oldestTimestamp ≤ h.operationColumn.length := by
      have hlen : h.operationColumn.length = h.length := rfl
      omega
    rw [TrieVec.slice_eq_cut _ hrange]
    show Except.ok (TrieVec.cut _ _ _ hrange).toList = _
    rw [TrieVec.toList_cut, List.map_drop, List.map_take, List.drop_take]
    show Except.ok ((h.operations.drop (start - h.oldestTimestamp)).take _) = _
    rw [w.operations_eq, List.drop_drop, Nat.add_sub_cancel' (Nat.not_lt.mp hevicted),
      show stop - h.oldestTimestamp - (start - h.oldestTimestamp) = stop - start by omega]

end History

end Coedit
