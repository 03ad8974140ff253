import Coedit.Proofs.History.Chronicle
import Coedit.Proofs.Operation.Normalization

/-!
# A bridge leads from text to text

A bridge is put together from ids and operations alone; no text is looked at. This file proves that
it is right about the texts all the same, for any two histories of documents in which equal ids
stand for equal texts:

> `bridge_sound`: a bridge never ends in a fault, and if there is one, it turns the text at the end
> of the first history into the text at the end of the second.

The walk back stops at entries with the same id, so at equal texts, or at the start of both, where
both texts are empty (`meetingPoint_eq_ok`, `Meet.textAt_eq`). From the point where the histories
part, the operations of each side compose to a change that leads to the end of that side
(`IsWindow.changeSince`). Going back along the one and forward along the other is the bridge.
Evicted entries can only lead to a refusal.
-/

namespace Coedit

theorem Chronicle.textAt_succ {past : Chronicle} {t : Nat} {stage : Stage}
    (h : past[t]? = some stage) : past.textAt (t + 1) = stage.text := by
  rw [textAt, List.take_add_one, h, endText_append]
  rfl

namespace History

/-! ## Where the walk back stops -/

/-- Two histories meet at a pair of timestamps: both are at the start, or the entries just before
have the same id. -/
def Meet (before after : History) (i j : Nat) : Prop :=
  (i = 0 ∧ j = 0) ∨
    ∃ i' j' id, i = i' + 1 ∧ j = j' + 1 ∧ before.idAt i' = .ok id ∧ after.idAt j' = .ok id

/-- The walk back ends within the part of the histories it started with, and where they meet. -/
theorem meetingPoint_eq_ok (before after : History) : ∀ (i j : Nat) {c d : Nat},
    meetingPoint before after i j = .ok (c, d) → c ≤ i ∧ d ≤ j ∧ Meet before after c d
  | 0, j, c, d, h => by
    rw [meetingPoint] at h
    cases h
    exact ⟨Nat.le_refl _, Nat.zero_le _, Or.inl ⟨rfl, rfl⟩⟩
  | i + 1, 0, c, d, h => by
    rw [meetingPoint] at h
    cases h
    exact ⟨Nat.zero_le _, Nat.le_refl _, Or.inl ⟨rfl, rfl⟩⟩
  | i + 1, j + 1, c, d, h => by
    rw [meetingPoint] at h
    obtain ⟨mine, hmine, h⟩ := bind_eq_ok.mp h
    obtain ⟨theirs, htheirs, h⟩ := bind_eq_ok.mp h
    split at h
    · next hsame =>
      cases h
      rw [← hsame] at htheirs
      exact ⟨Nat.le_refl _, Nat.le_refl _, Or.inr ⟨i, j, mine, rfl, rfl, hmine, htheirs⟩⟩
    · split at h
      · obtain ⟨hc, hd, hmeet⟩ := meetingPoint_eq_ok before after (i + 1) j h
        exact ⟨hc, by omega, hmeet⟩
      · obtain ⟨hc, hd, hmeet⟩ := meetingPoint_eq_ok before after i (j + 1) h
        exact ⟨by omega, hd, hmeet⟩
  termination_by i j => i + j
  decreasing_by all_goals omega

theorem parting_eq_ok {before after : History} {i j : Nat} (h : parting before after = .ok (i, j)) :
    i ≤ before.timestamp ∧ j ≤ after.timestamp ∧ Meet before after i j := by
  unfold parting at h
  split at h
  · split at h
    · cases h
    · cases h
      exact ⟨Nat.zero_le _, Nat.zero_le _, Or.inl ⟨rfl, rfl⟩⟩
  · split at h
    · next point hpoint =>
      cases h
      exact meetingPoint_eq_ok before after _ _ hpoint
    · cases h

/-- Where two histories meet, their documents had the same text. -/
theorem Meet.textAt_eq {before after : History} {past past' : Chronicle} {i j : Nat}
    (hmeet : Meet before after i j) (w : before.IsWindow past.entries)
    (w' : after.IsWindow past'.entries) (hagree : past.Agree past') :
    past.textAt i = past'.textAt j := by
  rcases hmeet with ⟨rfl, rfl⟩ | ⟨i', j', id, rfl, rfl, hi, hj⟩
  · rfl
  · obtain ⟨entry, hentry, hid⟩ := w.idAt hi
    obtain ⟨entry', hentry', hid'⟩ := w'.idAt hj
    rw [Chronicle.entries, List.getElem?_map] at hentry hentry'
    obtain ⟨stage, hstage, rfl⟩ := Option.map_eq_some_iff.mp hentry
    obtain ⟨stage', hstage', rfl⟩ := Option.map_eq_some_iff.mp hentry'
    rw [Chronicle.textAt_succ hstage, Chronicle.textAt_succ hstage']
    exact hagree stage (List.mem_of_getElem? hstage) stage' (List.mem_of_getElem? hstage')
      (hid.trans hid'.symm)

/-! ## Back along one history and forward along the other -/

/-- From a timestamp on, the retained operations compose to a change that leads from the text then
to the last text. The only other outcome is that some of them have been evicted. -/
theorem IsWindow.changeSince {h : History} {past : Chronicle} (w : h.IsWindow past.entries)
    (hf : Chronicle.Follows [] past) {t : Nat} (ht : t ≤ h.timestamp) :
    (∃ reason, h.changeSince t = .error (.refused reason)) ∨
      ∃ op, h.changeSince t = .ok op ∧
        op.apply (past.textAt t) = .ok (Chronicle.endText [] past) := by
  unfold History.changeSince
  rw [w.between ht (Nat.le_refl _)]
  by_cases hevicted : t < h.oldestTimestamp
  · rw [if_pos hevicted]
    exact Or.inl ⟨_, rfl⟩
  · rw [if_neg hevicted, List.take_of_length_le (Nat.le_of_eq w.length_all)]
    obtain ⟨op, hcompose, hop⟩ := Operation.foldlM_compose_apply
      (Operation.apply_empty (past.textAt t)) (hf.applyAll_drop t)
    refine Or.inr ⟨op, ?_, hop⟩
    show Failure.ofFault (Operation.composeAll _) = .ok op
    rw [Operation.composeAll, hcompose]
    rfl

/-- Once it is known where the histories part, a bridge is made in three steps. -/
theorem bridge_of_parting {before after : History} {i j : Nat}
    (h : parting before after = .ok (i, j)) :
    before.bridge after = before.changeSince i >>= fun done =>
      after.changeSince j >>= fun missing =>
        Failure.ofFault (done.inverse.compose missing) >>= fun op => .ok op.normalize := by
  unfold bridge
  rw [h]
  rfl

/-- If two windows onto chronicles part at equal texts, their bridge is refused, or it leads from
the last text of the one to the last text of the other. -/
theorem bridge_cases_of_textAt {before after : History} {past past' : Chronicle}
    (w : before.IsWindow past.entries) (w' : after.IsWindow past'.entries)
    (hf : Chronicle.Follows [] past) (hf' : Chronicle.Follows [] past')
    (htext : ∀ i j, parting before after = .ok (i, j) → past.textAt i = past'.textAt j) :
    (∃ reason, before.bridge after = .error (.refused reason)) ∨
      ∃ op, before.bridge after = .ok op ∧
        op.apply (Chronicle.endText [] past) = .ok (Chronicle.endText [] past') := by
  cases hpart : parting before after with
  | error reason =>
    unfold bridge
    rw [hpart]
    exact Or.inl ⟨reason, rfl⟩
  | ok point =>
    obtain ⟨i, j⟩ := point
    obtain ⟨hi, hj, _⟩ := parting_eq_ok hpart
    rw [bridge_of_parting hpart]
    rcases w.changeSince hf hi with ⟨reason, hdone⟩ | ⟨done, hdone, hback⟩
    · rw [hdone]
      exact Or.inl ⟨reason, rfl⟩
    rcases w'.changeSince hf' hj with ⟨reason, hmissing⟩ | ⟨missing, hmissing, hforth⟩
    · rw [hdone, hmissing]
      exact Or.inl ⟨reason, rfl⟩
    -- undo what the first side did since they parted, then do what the second side did
    rw [← htext i j hpart] at hforth
    obtain ⟨op, hcompose, hop⟩ := Operation.compose_apply (Operation.apply_inverse hback) hforth
    refine Or.inr ⟨op.normalize, ?_, Operation.normalize_apply hop⟩
    rw [hdone, hmissing]
    show (Failure.ofFault (done.inverse.compose missing) >>= _) = _
    rw [hcompose]
    rfl

/-- Windows onto chronicles that agree part at equal texts. -/
theorem textAt_parting {before after : History} {past past' : Chronicle}
    (w : before.IsWindow past.entries) (w' : after.IsWindow past'.entries)
    (hagree : past.Agree past') {i j : Nat} (hpart : parting before after = .ok (i, j)) :
    past.textAt i = past'.textAt j :=
  (parting_eq_ok hpart).2.2.textAt_eq w w' hagree

/-- The same for excerpts of the histories of two documents, with the texts that the documents had
at their timestamps. -/
theorem bridge_excerpts {past past' : Chronicle} {d d' : Document} (hrun : Document.Run past d)
    (hrun' : Document.Run past' d') (hagree : past.Agree past') {before after : History}
    (hbefore : d.history.Excerpt before) (hafter : d'.history.Excerpt after) :
    (∃ reason, before.bridge after = .error (.refused reason)) ∨
      ∃ op, before.bridge after = .ok op ∧
        op.apply (past.textAt before.timestamp) = .ok (past'.textAt after.timestamp) := by
  -- an excerpt is a window onto the chronicle as far as its timestamp
  have w : before.IsWindow (Chronicle.entries (past.take before.timestamp)) := by
    rw [Chronicle.entries, List.map_take]
    exact (hrun.isWindow.excerpt hbefore).2
  have w' : after.IsWindow (Chronicle.entries (past'.take after.timestamp)) := by
    rw [Chronicle.entries, List.map_take]
    exact (hrun'.isWindow.excerpt hafter).2
  exact bridge_cases_of_textAt w w' (hrun.follows.take _) (hrun'.follows.take _)
    fun i j => textAt_parting w w' (hagree.take _ _)

/-- **Bridges are sound.** Take two documents, each led to by a run of successful edits, in which
equal ids stand for equal texts, and any excerpts of their histories. Their bridge does not end in
a fault, and if there is one, it applies to the text that the first document had at the timestamp
of its excerpt and makes of it the text that the second had at the timestamp of the other. -/
theorem bridge_sound {past past' : Chronicle} {d d' : Document} (hrun : Document.Run past d)
    (hrun' : Document.Run past' d') (hagree : past.Agree past') {before after : History}
    (hbefore : d.history.Excerpt before) (hafter : d'.history.Excerpt after) :
    (∀ fault, before.bridge after ≠ .error (.fault fault)) ∧
      ∀ op, before.bridge after = .ok op →
        op.apply (past.textAt before.timestamp) = .ok (past'.textAt after.timestamp) := by
  rcases bridge_excerpts hrun hrun' hagree hbefore hafter with
    ⟨reason, hrefused⟩ | ⟨op, hbridge, hop⟩
  · rw [hrefused]
    refine ⟨?_, ?_⟩
    · intro fault h
      cases h
    · intro op h
      cases h
  · rw [hbridge]
    refine ⟨?_, ?_⟩
    · intro fault h
      cases h
    · intro op' h
      cases h
      exact hop

end History

/-! ## A forked document -/

namespace Forked

def typed : Entry := ⟨⟨1⟩, ⟨[.replace [] ['a', 'b']], by decide, by decide⟩⟩

def idle : Entry := ⟨⟨2⟩, .empty⟩

def mine : Entry := ⟨⟨3⟩, ⟨[.replace [] ['x'], .retain 2], by decide, by decide⟩⟩

def theirs : Entry := ⟨⟨4⟩, ⟨[.retain 2, .replace [] ['y']], by decide, by decide⟩⟩

def later : Entry := ⟨⟨5⟩, ⟨[.replace ['a'] [], .retain 2], by decide, by decide⟩⟩

/-- A history from which nothing has been evicted. -/
def history (entries : List Entry) (weight : Nat) : History :=
  ⟨.ofList (entries.map Entry.operation), .ofList (entries.map Entry.id), entries.length, weight⟩

def document (text : Text) (entries : List Entry) (weight : Nat) : Document :=
  ⟨text, history entries weight, .standard⟩

/-- One copy, with one edit of its own. -/
def left : Document := document ['x', 'a', 'b'] [typed, idle, mine] 5

/-- The other copy, with two. -/
def right : Document := document ['b', 'y'] [typed, idle, theirs, later] 8

/-- The right copy's history without its first entry and its last. -/
def middle : History := (right.history.trim ⟨3, 100⟩).cutBack 2

def pastLeft : Chronicle :=
  [⟨typed, ['a', 'b']⟩, ⟨idle, ['a', 'b']⟩, ⟨mine, ['x', 'a', 'b']⟩]

def pastRight : Chronicle :=
  [⟨typed, ['a', 'b']⟩, ⟨idle, ['a', 'b']⟩, ⟨theirs, ['a', 'b', 'y']⟩, ⟨later, ['b', 'y']⟩]

theorem edit_typed : Document.empty.edit ⟨1⟩ typed.operation =
    .ok (document ['a', 'b'] [typed] 2) := rfl

theorem edit_idle : (document ['a', 'b'] [typed] 2).edit ⟨2⟩ idle.operation =
    .ok (document ['a', 'b'] [typed, idle] 2) := rfl

theorem edit_mine : (document ['a', 'b'] [typed, idle] 2).edit ⟨3⟩ mine.operation = .ok left := rfl

theorem edit_theirs : (document ['a', 'b'] [typed, idle] 2).edit ⟨4⟩ theirs.operation =
    .ok (document ['a', 'b', 'y'] [typed, idle, theirs] 5) := rfl

theorem edit_later : (document ['a', 'b', 'y'] [typed, idle, theirs] 5).edit ⟨5⟩ later.operation =
    .ok right := rfl

theorem run_left : Document.Run pastLeft left :=
  .edit (.edit (.edit .start edit_typed) edit_idle) edit_mine

theorem run_right : Document.Run pastRight right :=
  .edit (.edit (.edit (.edit .start edit_typed) edit_idle) edit_theirs) edit_later

theorem agree : pastLeft.Agree pastRight := by
  unfold Chronicle.Agree
  decide

end Forked

/-- The left copy as a whole, and the right copy without its first entry and its last. -/
theorem History.bridge_sound_forked :
    Forked.middle.oldestTimestamp = 1 ∧ Forked.middle.timestamp = 3 ∧
      Forked.right.history.Excerpt Forked.middle ∧
      ∃ op, Forked.left.history.bridge Forked.middle = .ok op ∧
        op.apply ['x', 'a', 'b'] = .ok ['a', 'b', 'y'] := by
  have hmiddle : Forked.right.history.Excerpt Forked.middle :=
    .rewind (t := 3) (.trim ⟨3, 100⟩ .whole) rfl
  have hbridge : Forked.left.history.bridge Forked.middle =
      .ok ⟨[.replace ['x'] [], .retain 2, .replace [] ['y']], by decide, by decide⟩ := by cbv
  exact ⟨rfl, rfl, hmiddle, _, hbridge,
    (bridge_sound Forked.run_left Forked.run_right Forked.agree .whole hmiddle).2 _ hbridge⟩

end Coedit
