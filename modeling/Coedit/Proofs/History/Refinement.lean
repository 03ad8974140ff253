import Coedit.Proofs.History.Bridge
import Coedit.Proofs.History.Reached

/-!
# A history answers for all that was recorded

Trimming and rewinding take entries off a history at either end, and timestamps are worked out from
what is left. This file says that nothing gets out of place by that. Beside a history stands the
list of all that has been recorded, and every call and every lookup is described by that list:

> `Refines all h`: recording extends `all`, trimming keeps it and only moves the start of the
> window, rewinding cuts `all` off and does not move the window, and each lookup answers with what
> stands in `all` at the place that was asked for, or says that this place is evicted or lies ahead.

> `Reached.refines_recorded`: every history that can be reached refines what has been recorded on
> the way to it.

The step lemmas are about windows; the run is the induction behind `Reached.isWindow`.
-/

namespace Coedit

namespace History

variable {all : List Entry} {h : History}

/-! ## The start of the window -/

theorem oldestTimestamp_record {id : EditId} {op : Operation} {h' : History}
    (hrec : h.record id op = .ok h') : h'.oldestTimestamp = h.oldestTimestamp := by
  have hpush := push_of_record hrec
  have hlen : h'.length = h.length + 1 := by
    rw [← length_operations, operations_push hpush, List.length_append, length_operations]
    rfl
  have htime : h'.timestamp = h.timestamp + 1 := by rw [push_eq_ok hpush]
  rw [oldestTimestamp, oldestTimestamp, hlen, htime]
  omega

theorem oldestTimestamp_le_trim (h : History) (policy : Retention) :
    h.oldestTimestamp ≤ (h.trim policy).oldestTimestamp := by
  have hlen : (h.trim policy).length = h.length - h.evictedBy policy := by
    rw [← length_operations, operations_trim, List.length_drop, length_operations]
  rw [oldestTimestamp, oldestTimestamp, timestamp_trim, hlen]
  omega

/-! ## Lookups at a timestamp -/

theorem rewind_eq_fault_iff {t : Nat} {fault : Fault} :
    h.rewind t = .error (.fault fault) ↔
      h.timestamp < t ∧ fault = .aheadOfHistory t h.timestamp := by
  unfold rewind
  split
  · next hahead =>
    constructor
    · intro heq
      cases heq
      exact ⟨hahead, rfl⟩
    · rintro ⟨_, rfl⟩
      rfl
  · next hahead =>
    refine ⟨?_, fun hand => absurd hand.1 hahead⟩
    intro heq
    split at heq <;> cases heq

/-! ## Lookups of an id -/

theorem rewindTo_refused_iff (h : History) (id : EditId) :
    h.rewindTo (some id) = .error .notRetained ↔ id ∉ h.ids := by
  rw [rewindTo_some]
  rcases h.position_cases id with ⟨habsent, hpos⟩ | ⟨i, hpos, hget, _⟩
  · rw [hpos]
    exact ⟨fun _ => habsent, fun _ => rfl⟩
  · rw [hpos]
    refine ⟨fun heq => ?_, fun habsent => absurd (List.mem_of_getElem? hget) habsent⟩
    cases heq

theorem Paired.since_refused_iff (hp : h.Paired) (id : EditId) :
    h.since (some id) = .error (.refused .notRetained) ↔ id ∉ h.ids := by
  rcases h.position_cases id with ⟨habsent, hpos⟩ | ⟨i, hpos, hget, _⟩
  · rw [since, hpos]
    exact ⟨fun _ => habsent, fun _ => rfl⟩
  · have hi := (List.getElem?_eq_some_iff.mp hget).1
    rw [hp.length_ids] at hi
    rw [since_eq_ok hpos hi]
    refine ⟨fun heq => ?_, fun habsent => absurd (List.mem_of_getElem? hget) habsent⟩
    cases heq

/-- At the newest occurrence of an id the retained entries are cut in two: the one part is what is
left by rewinding, the other is what came after. -/
theorem IsWindow.exists_cut (w : IsWindow all h) {id : EditId} (hmem : id ∈ h.ids) :
    ∃ front entry back g, h.entries = front ++ entry :: back ∧ entry.id = id ∧
      (∀ e ∈ back, e.id ≠ id) ∧
      h.rewindTo (some id) = .ok g ∧ g.entries = front ++ [entry] ∧
      g.IsWindow (upTo id all) ∧ g.oldestTimestamp = h.oldestTimestamp ∧
      h.since (some id) = .ok (back.map Entry.operation) ∧
      g.operations ++ back.map Entry.operation = h.operations := by
  rcases h.position_cases id with ⟨habsent, _⟩ | ⟨i, hpos, hplace, hlast⟩
  · exact absurd hmem habsent
  obtain ⟨entry, hget, hid, hback⟩ := w.paired.exists_entry hplace hlast
  obtain ⟨g, hok, wg, hfirst, hlist, hsince⟩ := w.exists_rewindTo hpos hget hid hback
  have hsplit := eq_take_append_drop_of_getElem? hget
  have hfront : g.entries = h.entries.take i ++ [entry] := by
    rw [hlist, List.take_add_one, hget]
    rfl
  refine ⟨_, entry, _, g, hsplit, hid, hback, hok, hfront, wg, hfirst, hsince, ?_⟩
  rw [← wg.paired.map_operation, ← w.paired.map_operation, hlist, ← List.map_append,
    List.take_append_drop]

/-! ## The refinement -/

/-- The history stands for the list of all that was recorded: what it retains, what each call makes
of it and what each lookup answers are read off the list. -/
structure Refines (all : List Entry) (h : History) : Prop where
  /-- Every retained id has its operation, so that the two make an entry. -/
  paired : h.Paired
  /-- The timestamp counts what was recorded. -/
  length_all : all.length = h.timestamp
  /-- What is retained is what was recorded from the oldest retained timestamp on. -/
  retained : h.entries = all.drop h.oldestTimestamp
  /-- The weight that rewinding and trimming take off has been counted before. -/
  weight_eq : h.weight = weightOf h.entries
  /-- Recording extends the list. -/
  record : ∀ {id op h'}, h.record id op = .ok h' →
    h'.IsWindow (all ++ [⟨id, op⟩]) ∧ h'.oldestTimestamp = h.oldestTimestamp
  /-- Trimming keeps the list and only raises the oldest retained timestamp. -/
  trim : ∀ policy, (h.trim policy).IsWindow all ∧
    h.oldestTimestamp ≤ (h.trim policy).oldestTimestamp
  /-- Rewinding within the window cuts the list off and keeps the start of the window. -/
  rewind : ∀ {t}, h.oldestTimestamp ≤ t → t ≤ h.timestamp →
    ∃ g, h.rewind t = .ok g ∧ g.IsWindow (all.take t) ∧ g.oldestTimestamp = h.oldestTimestamp
  /-- Rewinding to before the window is refused. -/
  rewind_evicted : ∀ {t}, t < h.oldestTimestamp → h.rewind t = .error (.refused (.trimmed t))
  /-- Rewinding is a fault only for a timestamp in the future. -/
  rewind_fault : ∀ {t fault}, h.rewind t = .error (.fault fault) ↔
    h.timestamp < t ∧ fault = .aheadOfHistory t h.timestamp
  /-- The id at a retained timestamp is that of the entry recorded then. -/
  idAt : ∀ {t entry}, h.oldestTimestamp ≤ t → all[t]? = some entry → h.idAt t = .ok entry.id
  /-- There is no id at an evicted timestamp. -/
  idAt_evicted : ∀ {t}, t < h.oldestTimestamp → h.idAt t = .error (.trimmed t)
  /-- There is no id yet at a timestamp that has not been reached. -/
  idAt_ahead : ∀ {t}, h.timestamp ≤ t → h.idAt t = .error (.notYet t h.timestamp)
  /-- The operations between two timestamps are those recorded then, unless the first is evicted. -/
  between : ∀ {start stop}, start ≤ stop → stop ≤ h.timestamp →
    h.between start stop =
      if start < h.oldestTimestamp then .error (.refused (.trimmed start))
      else .ok (((all.take stop).drop start).map Entry.operation)
  /-- Rewinding to an edit is refused exactly if the edit is not retained. -/
  rewindTo_refused : ∀ {id}, h.rewindTo (some id) = .error .notRetained ↔ id ∉ h.ids
  /-- Listing what came after an edit is refused exactly if the edit is not retained. -/
  since_refused : ∀ {id}, h.since (some id) = .error (.refused .notRetained) ↔ id ∉ h.ids
  /-- Otherwise both cut the retained entries at the newest occurrence of the id, and the two parts
  are the whole. -/
  cut : ∀ {id}, id ∈ h.ids → ∃ front entry back g,
    h.entries = front ++ entry :: back ∧ entry.id = id ∧ (∀ e ∈ back, e.id ≠ id) ∧
      h.rewindTo (some id) = .ok g ∧ g.entries = front ++ [entry] ∧
      g.IsWindow (upTo id all) ∧ g.oldestTimestamp = h.oldestTimestamp ∧
      h.since (some id) = .ok (back.map Entry.operation) ∧
      g.operations ++ back.map Entry.operation = h.operations

/-- **Histories refine what was recorded.** Whatever calls have led to a history, it stands for the
list of what has been recorded on the way, as far as it has not been rewound. -/
theorem Reached.refines_recorded (hr : Reached all h) : h.Refines all where
  paired := hr.isWindow.paired
  length_all := hr.isWindow.length_all
  retained := hr.isWindow.entries_eq
  weight_eq := hr.consistent.weight_eq
  record hrec := ⟨hr.isWindow.record hrec, oldestTimestamp_record hrec⟩
  trim policy := ⟨hr.isWindow.trim policy, h.oldestTimestamp_le_trim policy⟩
  rewind hfirst ht := hr.isWindow.exists_rewind hfirst ht
  rewind_evicted := rewind_of_evicted
  rewind_fault := rewind_eq_fault_iff
  idAt := hr.isWindow.idAt_eq_ok
  idAt_evicted := idAt_of_evicted
  idAt_ahead := idAt_of_ahead
  between := hr.isWindow.between
  rewindTo_refused := h.rewindTo_refused_iff _
  since_refused := hr.isWindow.paired.since_refused_iff _
  cut := hr.isWindow.exists_cut

end History

/-- The right copy without its first entry and its last: the entry at timestamp 2 stands at place 1
of what is retained, and it is the one that is found. -/
theorem History.Reached.refines_recorded_middle :
    Forked.middle.Reached [Forked.typed, Forked.idle, Forked.theirs] ∧
      Forked.middle.oldestTimestamp = 1 ∧
      Forked.middle.idAt 2 = .ok ⟨4⟩ ∧ Forked.middle.idAt 0 = .error (.trimmed 0) ∧
      Forked.middle.between 1 3 = .ok [Operation.empty, Forked.theirs.operation] := by
  have hmiddle : Forked.right.history.Excerpt Forked.middle :=
    .rewind (t := 3) (.trim ⟨3, 100⟩ .whole) rfl
  have hr : Forked.middle.Reached [Forked.typed, Forked.idle, Forked.theirs] :=
    Forked.run_right.reached.excerpt hmiddle
  have hrefines := refines_recorded hr
  exact ⟨hr, rfl, hrefines.idAt (t := 2) (by decide) rfl, hrefines.idAt_evicted (by decide),
    hrefines.between (by decide) (by decide)⟩

end Coedit
