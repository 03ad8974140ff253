import Coedit.Proofs.History.Refinement

/-!
# Bridging at the fork

Two histories that part after a common stretch, with all ids different, can be bridged exactly if
both still hold the last common entry, and the bridge then undoes and redoes nothing but what came
after it:

> `Fork.bridge_exact`: with `k` common entries there is a bridge if and only if both oldest retained
> timestamps are at most `max k 1 - 1`; the histories part at `(k, k)`, and the bridge is the normal
> form of the first side's tail undone and the second side's tail done.

Without common entries the walk back has to run through to the start, which needs all of both
histories, hence the `max`.

The walk moves one of two counters at a time, so it is followed by an invariant: neither counter has
gone below `k` (`Fork.meetingPoint_eq`). Equal ids stand at equal timestamps below `k` and nowhere
else (`Fork.id_eq_iff`), so it cannot stop earlier, and it cannot pass `(k, k)`. A walk that
succeeds has seen all entries down to the place where it stopped, so none of them were evicted
(`Fork.oldestTimestamp_le`).
-/

namespace Coedit

namespace History

/-- Two histories that share exactly the entries `shared`, with all ids different. What the two
sides did after that starts from the same length. -/
structure Fork (shared mine theirs : List Entry) (before after : History) : Prop where
  before_reached : before.Reached (shared ++ mine)
  after_reached : after.Reached (shared ++ theirs)
  nodup_ids : ((shared ++ mine ++ theirs).map Entry.id).Nodup
  same_start : ∀ a ∈ (Operation.changes (mine.map Entry.operation)).head?,
    ∀ b ∈ (Operation.changes (theirs.map Entry.operation)).head?, a.lenBefore = b.lenBefore

variable {shared mine theirs : List Entry} {before after : History}

/-! ## Where the ids are the same -/

/-- The same id stands on both sides only at the same timestamp, and only before the fork. -/
theorem Fork.id_eq_iff (f : Fork shared mine theirs before after) {i j : Nat} {e e' : Entry}
    (hi : (shared ++ mine)[i]? = some e) (hj : (shared ++ theirs)[j]? = some e') :
    e.id = e'.id ↔ i = j ∧ i < shared.length := by
  constructor
  · intro hid
    have hilt := (List.getElem?_eq_some_iff.mp hi).1
    rw [List.length_append] at hilt
    -- the place of either entry in the list of both sides together
    have hi' : ((shared ++ mine ++ theirs).map Entry.id)[i]? = some e.id := by
      rw [List.getElem?_map, List.getElem?_append_left (by rw [List.length_append]; omega), hi]
      rfl
    have hbound : i < ((shared ++ mine ++ theirs).map Entry.id).length := by
      rw [List.length_map, List.length_append, List.length_append]
      omega
    by_cases hjs : j < shared.length
    · rw [List.getElem?_append_left hjs] at hj
      have hj' : ((shared ++ mine ++ theirs).map Entry.id)[j]? = some e'.id := by
        rw [List.append_assoc, List.getElem?_map, List.getElem?_append_left hjs, hj]
        rfl
      have hij : i = j := (List.getElem?_inj hbound f.nodup_ids).mp (by rw [hi', hj', hid])
      exact ⟨hij, by omega⟩
    · rw [List.getElem?_append_right (by omega)] at hj
      have hj' : ((shared ++ mine ++ theirs).map Entry.id)[j + mine.length]? = some e'.id := by
        rw [List.getElem?_map, List.getElem?_append_right (by rw [List.length_append]; omega),
          List.length_append, show j + mine.length - (shared.length + mine.length) =
            j - shared.length by omega, hj]
        rfl
      have hij : i = j + mine.length :=
        (List.getElem?_inj hbound f.nodup_ids).mp (by rw [hi', hj', hid])
      omega
  · rintro ⟨rfl, hlt⟩
    rw [List.getElem?_append_left hlt] at hi hj
    rw [hi] at hj
    cases hj
    rfl

theorem Fork.timestamp_before (f : Fork shared mine theirs before after) :
    before.timestamp = shared.length + mine.length := by
  rw [← f.before_reached.isWindow.length_all, List.length_append]

theorem Fork.timestamp_after (f : Fork shared mine theirs before after) :
    after.timestamp = shared.length + theirs.length := by
  rw [← f.after_reached.isWindow.length_all, List.length_append]

/-! ## The walk back -/

/-- **The walk stops at the fork.** As long as the last common entry is retained on both sides, the
walk from anywhere at or after the fork ends there. -/
theorem Fork.meetingPoint_eq (f : Fork shared mine theirs before after)
    (hbefore : before.oldestTimestamp ≤ shared.length - 1)
    (hafter : after.oldestTimestamp ≤ shared.length - 1) :
    ∀ (i j : Nat), shared.length ≤ i → shared.length ≤ j → i ≤ before.timestamp →
      j ≤ after.timestamp → meetingPoint before after i j = .ok (shared.length, shared.length)
  | 0, j, hi, _, _, _ => by
    rw [meetingPoint, Nat.le_zero.mp hi]
  | i + 1, 0, _, hj, _, _ => by
    rw [meetingPoint, Nat.le_zero.mp hj]
  | i + 1, j + 1, hi, hj, hib, hja => by
    have wb := f.before_reached.isWindow
    have wa := f.after_reached.isWindow
    obtain ⟨e, he⟩ : ∃ e, (shared ++ mine)[i]? = some e :=
      ⟨_, List.getElem?_eq_getElem (by rw [wb.length_all]; omega)⟩
    obtain ⟨e', he'⟩ : ∃ e, (shared ++ theirs)[j]? = some e :=
      ⟨_, List.getElem?_eq_getElem (by rw [wa.length_all]; omega)⟩
    have hsame := f.id_eq_iff he he'
    rw [meetingPoint, wb.idAt_eq_ok (by omega) he, wa.idAt_eq_ok (by omega) he']
    show (if e.id = e'.id then Except.ok (i + 1, j + 1)
      else if i < j then meetingPoint before after (i + 1) j
      else meetingPoint before after i (j + 1)) = _
    by_cases hid : e.id = e'.id
    · obtain ⟨rfl, hlt⟩ := hsame.mp hid
      rw [if_pos hid, show i + 1 = shared.length by omega]
    · rw [if_neg hid]
      -- not at the fork yet, so the counter that moves is still above it
      have hnot : ¬ (i = j ∧ i < shared.length) := fun hand => hid (hsame.mpr hand)
      by_cases hij : i < j
      · rw [if_pos hij]
        exact meetingPoint_eq f hbefore hafter (i + 1) j hi (by omega) hib (by omega)
      · rw [if_neg hij]
        exact meetingPoint_eq f hbefore hafter i (j + 1) (by omega) hj (by omega) hja
  termination_by i j => i + j
  decreasing_by all_goals omega

/-- A walk that runs through to the start has read the first entry of both histories. -/
theorem meetingPoint_eq_start (before after : History) : ∀ (i j : Nat),
    meetingPoint before after (i + 1) (j + 1) = .ok (0, 0) →
      (∃ id, before.idAt 0 = .ok id) ∧ ∃ id, after.idAt 0 = .ok id
  | i, j, h => by
    rw [meetingPoint] at h
    obtain ⟨mine, hmine, h⟩ := bind_eq_ok.mp h
    obtain ⟨theirs, htheirs, h⟩ := bind_eq_ok.mp h
    split at h
    · cases h
    · split at h
      · next hij =>
        obtain ⟨j', rfl⟩ : ∃ j', j = j' + 1 := ⟨j - 1, by omega⟩
        exact meetingPoint_eq_start before after i j' h
      · next hij =>
        rcases Nat.eq_zero_or_pos i with rfl | hpos
        · have hj : j = 0 := by omega
          subst hj
          exact ⟨⟨mine, hmine⟩, theirs, htheirs⟩
        · obtain ⟨i', rfl⟩ : ∃ i', i = i' + 1 := ⟨i - 1, by omega⟩
          exact meetingPoint_eq_start before after i' j h
  termination_by i j => i + j
  decreasing_by all_goals omega

theorem oldestTimestamp_le_of_idAt {h : History} {t : Nat} {id : EditId} (hid : h.idAt t = .ok id) :
    h.oldestTimestamp ≤ t := by
  by_contra hlt
  rw [idAt_of_evicted (by omega)] at hid
  cases hid

theorem timestamp_pos_of_not_isEmpty {h : History} {all : List Entry} (w : h.IsWindow all)
    (hne : ¬ h.isEmpty) : 0 < h.timestamp := by
  have hle := w.length_le
  have hlen : h.length ≠ 0 := by
    intro hzero
    exact hne (by rw [isEmpty, TrieVec.isEmpty, beq_iff_eq]; exact hzero)
  omega

theorem oldestTimestamp_of_not_hasEvicted {h : History} (hev : ¬ h.hasEvicted) :
    h.oldestTimestamp = 0 := by
  have hlen : ¬ h.length < h.timestamp := by simpa [hasEvicted] using hev
  unfold oldestTimestamp
  omega

/-- If the walk runs through to the start, neither history has evicted anything. -/
theorem IsWindow.oldestTimestamp_eq_zero_of_meetingPoint {before after : History}
    {all all' : List Entry} (w : before.IsWindow all) (w' : after.IsWindow all')
    (hb : ¬ before.isEmpty) (ha : ¬ after.isEmpty)
    (h : meetingPoint before after before.timestamp after.timestamp = .ok (0, 0)) :
    before.oldestTimestamp = 0 ∧ after.oldestTimestamp = 0 := by
  rw [← Nat.sub_add_cancel (timestamp_pos_of_not_isEmpty w hb),
    ← Nat.sub_add_cancel (timestamp_pos_of_not_isEmpty w' ha)] at h
  obtain ⟨⟨_, hb0⟩, _, ha0⟩ := meetingPoint_eq_start before after _ _ h
  exact ⟨Nat.le_zero.mp (oldestTimestamp_le_of_idAt hb0),
    Nat.le_zero.mp (oldestTimestamp_le_of_idAt ha0)⟩

/-! ## Where the histories part -/

/-- Histories part somewhere only if both have kept the last common entry, or all if there is
none. -/
theorem Fork.oldestTimestamp_le (f : Fork shared mine theirs before after) {i j : Nat}
    (hpart : parting before after = .ok (i, j)) :
    before.oldestTimestamp ≤ shared.length - 1 ∧ after.oldestTimestamp ≤ shared.length - 1 := by
  have wb := f.before_reached.isWindow
  have wa := f.after_reached.isWindow
  unfold parting at hpart
  split at hpart
  · split at hpart
    · cases hpart
    · next hev =>
      rw [oldestTimestamp_of_not_hasEvicted fun hb => hev (Or.inl hb),
        oldestTimestamp_of_not_hasEvicted fun ha => hev (Or.inr ha)]
      omega
  · next hne =>
    split at hpart
    · next point hpoint =>
      cases hpart
      obtain ⟨_, _, hmeet⟩ := meetingPoint_eq_ok before after _ _ hpoint
      rcases hmeet with ⟨rfl, rfl⟩ | ⟨i', j', id, rfl, rfl, hi, hj⟩
      · obtain ⟨hb, ha⟩ := wb.oldestTimestamp_eq_zero_of_meetingPoint wa
          (fun hb => hne (Or.inl hb)) (fun ha => hne (Or.inr ha)) hpoint
        omega
      · obtain ⟨e, he, hid⟩ := wb.idAt hi
        obtain ⟨e', he', hid'⟩ := wa.idAt hj
        obtain ⟨rfl, hlt⟩ := (f.id_eq_iff he he').mp (hid.trans hid'.symm)
        have hib := oldestTimestamp_le_of_idAt hi
        have hja := oldestTimestamp_le_of_idAt hj
        omega
    · cases hpart

theorem Fork.parting_eq (f : Fork shared mine theirs before after)
    (hbefore : before.oldestTimestamp ≤ shared.length - 1)
    (hafter : after.oldestTimestamp ≤ shared.length - 1) :
    parting before after = .ok (shared.length, shared.length) := by
  have htb := f.timestamp_before
  have hta := f.timestamp_after
  unfold parting
  split
  · next hempty =>
    -- a history that retains nothing and has evicted little enough has recorded nothing
    have hlen : before.length = 0 ∨ after.length = 0 := by
      simpa [isEmpty, TrieVec.isEmpty, length] using hempty
    unfold oldestTimestamp at hbefore hafter
    have hev : ¬ (before.hasEvicted ∨ after.hasEvicted) := by
      simp only [hasEvicted, decide_eq_true_eq]
      omega
    rw [if_neg hev, show shared.length = 0 by omega]
  · rw [f.meetingPoint_eq hbefore hafter _ _ (by omega) (by omega) (Nat.le_refl _) (Nat.le_refl _)]

/-! ## The bridge -/

/-- From a timestamp on, a history that retains what came after composes just that. -/
theorem IsWindow.changeSince_eq {h : History} {front back : List Entry}
    (w : h.IsWindow (front ++ back)) (hfirst : h.oldestTimestamp ≤ front.length) :
    h.changeSince front.length =
      Failure.ofFault (Operation.composeAll (back.map Entry.operation)) := by
  have htime := w.length_all
  rw [List.length_append] at htime
  unfold History.changeSince
  rw [w.between (by omega) (Nat.le_refl _), if_neg (by omega),
    List.take_of_length_le (Nat.le_of_eq w.length_all), List.drop_left]
  rfl

/-- What was recorded after a retained timestamp is linked. -/
theorem Reached.linked_tail {h : History} {front back : List Entry} (hr : h.Reached (front ++ back))
    (hfirst : h.oldestTimestamp ≤ front.length) : Operation.Linked (back.map Entry.operation) := by
  refine hr.linked.infix (List.IsSuffix.isInfix ?_)
  rw [← hr.isWindow.paired.map_operation, hr.isWindow.entries_eq,
    List.drop_append_of_le_length hfirst, List.map_append]
  exact List.suffix_append ..

/-- The tail of one side undone and the tail of the other done: both compose, and so do the two. -/
theorem Fork.exists_compose (f : Fork shared mine theirs before after)
    (hbefore : before.oldestTimestamp ≤ shared.length)
    (hafter : after.oldestTimestamp ≤ shared.length) :
    ∃ done missing op, Operation.composeAll (mine.map Entry.operation) = .ok done ∧
      Operation.composeAll (theirs.map Entry.operation) = .ok missing ∧
      done.inverse.compose missing = .ok op := by
  obtain ⟨done, hdone, hnone, hstart, _⟩ :=
    Operation.composeAll_linked (f.before_reached.linked_tail hbefore)
  obtain ⟨missing, hmissing, hnone', hstart', _⟩ :=
    Operation.composeAll_linked (f.after_reached.linked_tail hafter)
  refine ⟨done, missing, ?_⟩
  cases hmine : Operation.changes (mine.map Entry.operation) with
  | nil =>
    rw [hnone hmine]
    exact ⟨missing, hnone hmine ▸ hdone, hmissing, rfl⟩
  | cons a as =>
    cases htheirs : Operation.changes (theirs.map Entry.operation) with
    | nil =>
      rw [hnone' htheirs]
      exact ⟨done.inverse, hdone, hnone' htheirs ▸ hmissing, Operation.compose_empty_right _⟩
    | cons b bs =>
      have hmeet : done.inverse.lenAfter = missing.lenBefore := by
        rw [Operation.lenAfter_inverse, hstart a (by rw [hmine]; rfl),
          hstart' b (by rw [htheirs]; rfl)]
        exact f.same_start a (by rw [hmine]; rfl) b (by rw [htheirs]; rfl)
      obtain ⟨op, hop, _⟩ := Operation.compose_lengths hmeet
      exact ⟨op, hdone, hmissing, hop⟩

/-- The bridge once both sides retain the last common entry. -/
theorem Fork.exists_bridge (f : Fork shared mine theirs before after)
    (hbefore : before.oldestTimestamp ≤ shared.length - 1)
    (hafter : after.oldestTimestamp ≤ shared.length - 1) :
    ∃ done missing op, Operation.composeAll (mine.map Entry.operation) = .ok done ∧
      Operation.composeAll (theirs.map Entry.operation) = .ok missing ∧
      done.inverse.compose missing = .ok op ∧ before.bridge after = .ok op.normalize := by
  obtain ⟨done, missing, op, hdone, hmissing, hop⟩ :=
    f.exists_compose (Nat.le_trans hbefore (Nat.sub_le ..)) (Nat.le_trans hafter (Nat.sub_le ..))
  refine ⟨done, missing, op, hdone, hmissing, hop, ?_⟩
  rw [bridge_of_parting (f.parting_eq hbefore hafter),
    f.before_reached.isWindow.changeSince_eq (by omega),
    f.after_reached.isWindow.changeSince_eq (by omega), hdone, hmissing]
  show (Failure.ofFault (done.inverse.compose missing) >>= _) = _
  rw [hop]
  rfl

/-- **Bridging at the fork is exact.** For two histories that share exactly `shared`, with any
windows: there is a bridge if and only if both retain the last shared entry (or everything, if none
is shared), and otherwise bridging is refused. With a bridge, the histories part right after what is
shared, and the bridge is the normal form of undoing the one tail and doing the other. -/
theorem Fork.bridge_exact (f : Fork shared mine theirs before after) :
    ((∃ op, before.bridge after = .ok op) ↔
      before.oldestTimestamp ≤ max shared.length 1 - 1 ∧
        after.oldestTimestamp ≤ max shared.length 1 - 1) ∧
    (before.oldestTimestamp ≤ max shared.length 1 - 1 →
      after.oldestTimestamp ≤ max shared.length 1 - 1 →
      parting before after = .ok (shared.length, shared.length) ∧
        ∃ done missing op, Operation.composeAll (mine.map Entry.operation) = .ok done ∧
          Operation.composeAll (theirs.map Entry.operation) = .ok missing ∧
          done.inverse.compose missing = .ok op ∧ before.bridge after = .ok op.normalize) ∧
    ((∃ op, before.bridge after = .ok op) ∨
      ∃ reason, before.bridge after = .error (.refused reason)) := by
  rw [show max shared.length 1 - 1 = shared.length - 1 by omega]
  refine ⟨⟨?_, ?_⟩, fun hbefore hafter => ⟨f.parting_eq hbefore hafter,
    f.exists_bridge hbefore hafter⟩, ?_⟩
  · rintro ⟨op, hop⟩
    obtain ⟨⟨i, j⟩, hpart, _⟩ := bind_eq_ok.mp hop
    cases hparting : parting before after with
    | error reason =>
      rw [hparting] at hpart
      cases hpart
    | ok point => exact f.oldestTimestamp_le hparting
  · rintro ⟨hbefore, hafter⟩
    obtain ⟨_, _, op, _, _, _, hbridge⟩ := f.exists_bridge hbefore hafter
    exact ⟨_, hbridge⟩
  · cases hparting : parting before after with
    | error reason =>
      refine Or.inr ⟨reason, ?_⟩
      unfold bridge
      rw [hparting]
      rfl
    | ok point =>
      obtain ⟨hbefore, hafter⟩ := f.oldestTimestamp_le hparting
      obtain ⟨_, _, op, _, _, _, hbridge⟩ := f.exists_bridge hbefore hafter
      exact Or.inl ⟨_, hbridge⟩

end History

namespace Forked

/-- The left copy's history without its first entry. -/
def leftEnd : History := left.history.trim ⟨2, 100⟩

/-- The right copy's history without its first entry. -/
def rightEnd : History := right.history.trim ⟨3, 100⟩

theorem fork : History.Fork [typed, idle] [mine] [theirs, later] leftEnd rightEnd := by
  refine ⟨.trim _ run_left.reached, .trim _ run_right.reached, by decide, ?_⟩
  rintro a ⟨⟩ b ⟨⟩
  rfl

/-- From the left copy to the right one. -/
def there : Operation :=
  ⟨[.replace ['x', 'a'] [], .retain 1, .replace [] ['y']], by decide, by decide⟩

theorem bridge_there : leftEnd.bridge rightEnd = .ok there := by cbv

end Forked

/-- Both copies without their first entry: what is left of the shared part is its last entry, just
enough to bridge them. -/
theorem History.Fork.bridge_exact_forked :
    Fork [Forked.typed, Forked.idle] [Forked.mine] [Forked.theirs, Forked.later]
        Forked.leftEnd Forked.rightEnd ∧
      Forked.leftEnd.oldestTimestamp = 1 ∧ Forked.rightEnd.oldestTimestamp = 1 ∧
      parting Forked.leftEnd Forked.rightEnd = .ok (2, 2) ∧
      Forked.leftEnd.bridge Forked.rightEnd = .ok Forked.there ∧
      ∃ done missing op, Operation.composeAll [Forked.mine.operation] = .ok done ∧
        Operation.composeAll [Forked.theirs.operation, Forked.later.operation] = .ok missing ∧
        done.inverse.compose missing = .ok op ∧ op.normalize = Forked.there := by
  have hleft : Forked.leftEnd.oldestTimestamp = 1 := rfl
  have hright : Forked.rightEnd.oldestTimestamp = 1 := rfl
  obtain ⟨hpart, done, missing, op, hdone, hmissing, hop, hbridge⟩ :=
    (bridge_exact Forked.fork).2.1 (Nat.le_of_eq hleft) (Nat.le_of_eq hright)
  rw [Forked.bridge_there] at hbridge
  injection hbridge with hthere
  exact ⟨Forked.fork, hleft, hright, hpart, Forked.bridge_there, done, missing, op, hdone, hmissing,
    hop, hthere.symm⟩

end Coedit
