import Coedit.Proofs.History.Fork

/-!
# Why a bridge is refused

Bridging walks back over two histories until it finds the same id in both. What has been evicted
from either cannot be compared, and this file shows that nothing else ever stops it: for any two
histories that can be reached, whatever their ids,

> `Reached.refused_by_eviction_only`: bridging is refused only for want of entries, because one
> history retains nothing and one has evicted some, or because the walk comes to a timestamp that
> one of them has evicted.

Two things have to be seen for this. One is that the walk only asks for timestamps that the
histories have reached, so a lookup can only fail at an evicted one (`meetingPoint_eq_error`). The
other is that it does not fall off the beginning unnoticed. It always moves in the history that is
further ahead, so before it gives up it has read the first entry of both (`meetingPoint_eq_start`),
which neither can have evicted then. Hence what comes after the point where two histories part is
always retained (`IsWindow.oldestTimestamp_le_of_parting`), and once that point is found there is no
refusal any more (`IsWindow.bridge_refused_iff`).
-/

namespace Coedit

/-- A refusal in two steps, of which the first can only fault, comes from the second. -/
theorem Failure.ofFault_bind_refused {ε α β : Type} {x : Except Fault α}
    {f : α → Except (Failure ε) β} {reason : ε}
    (h : (ofFault x >>= f) = .error (.refused reason)) :
    ∃ a, x = .ok a ∧ f a = .error (.refused reason) := by
  cases x with
  | error fault => cases h
  | ok a => exact ⟨a, rfl, h⟩

namespace History

variable {all all' : List Entry} {h before after : History}

/-! ## The walk back -/

theorem hasEvicted_iff : h.hasEvicted ↔ 0 < h.oldestTimestamp := by
  rw [hasEvicted, decide_eq_true_iff, oldestTimestamp]
  exact Nat.sub_pos_iff_lt.symm

/-- Looking up a timestamp that has been reached fails only if its entry has been evicted. -/
theorem IsWindow.evicted_of_idAt (w : h.IsWindow all) {t : Nat} (ht : t < h.timestamp)
    {e : LookupError} (hid : h.idAt t = .error e) : e = .trimmed t ∧ t < h.oldestTimestamp := by
  by_cases hlt : t < h.oldestTimestamp
  · rw [idAt_of_evicted hlt] at hid
    cases hid
    exact ⟨rfl, hlt⟩
  · obtain ⟨entry, hentry⟩ : ∃ entry, all[t]? = some entry :=
      ⟨_, List.getElem?_eq_getElem (by rw [w.length_all]; exact ht)⟩
    rw [w.idAt_eq_ok (Nat.not_lt.mp hlt) hentry] at hid
    cases hid

/-- **The walk fails only at evicted entries.** -/
theorem meetingPoint_eq_error (w : before.IsWindow all) (w' : after.IsWindow all') :
    ∀ (i j : Nat) {e : LookupError}, i ≤ before.timestamp → j ≤ after.timestamp →
      meetingPoint before after i j = .error e →
      ∃ t, e = .trimmed t ∧ (t < before.oldestTimestamp ∨ t < after.oldestTimestamp)
  | 0, j, e, _, _, h => by
    rw [meetingPoint] at h
    cases h
  | i + 1, 0, e, _, _, h => by
    rw [meetingPoint] at h
    cases h
  | i + 1, j + 1, e, hi, hj, h => by
    rw [meetingPoint] at h
    cases hmine : before.idAt i with
    | error reason =>
      rw [hmine] at h
      cases h
      obtain ⟨rfl, hlt⟩ := w.evicted_of_idAt (by omega) hmine
      exact ⟨i, rfl, Or.inl hlt⟩
    | ok mine =>
      cases htheirs : after.idAt j with
      | error reason =>
        rw [hmine, htheirs] at h
        cases h
        obtain ⟨rfl, hlt⟩ := w'.evicted_of_idAt (by omega) htheirs
        exact ⟨j, rfl, Or.inr hlt⟩
      | ok theirs =>
        rw [hmine, htheirs] at h
        replace h : (if mine = theirs then Except.ok (i + 1, j + 1)
          else if i < j then meetingPoint before after (i + 1) j
          else meetingPoint before after i (j + 1)) = .error e := h
        split at h
        · cases h
        · split at h
          · exact meetingPoint_eq_error w w' (i + 1) j hi (by omega) h
          · exact meetingPoint_eq_error w w' i (j + 1) (by omega) hj h
  termination_by i j => i + j
  decreasing_by all_goals omega

/-! ## After the walk -/

theorem parting_of_meetingPoint (hb : ¬ before.isEmpty) (ha : ¬ after.isEmpty) {point : Nat × Nat}
    (h : meetingPoint before after before.timestamp after.timestamp = .ok point) :
    parting before after = .ok point := by
  unfold parting
  rw [if_neg fun hempty => hempty.elim hb ha, h]

/-- Both histories retain all that came after they parted. -/
theorem IsWindow.oldestTimestamp_le_of_parting (w : before.IsWindow all) (w' : after.IsWindow all')
    {c d : Nat} (h : parting before after = .ok (c, d)) :
    before.oldestTimestamp ≤ c ∧ after.oldestTimestamp ≤ d := by
  unfold parting at h
  split at h
  · split at h
    · cases h
    · next hev =>
      rw [oldestTimestamp_of_not_hasEvicted fun hb => hev (Or.inl hb),
        oldestTimestamp_of_not_hasEvicted fun ha => hev (Or.inr ha)]
      exact ⟨Nat.zero_le _, Nat.zero_le _⟩
  · next hne =>
    split at h
    · next point hpoint =>
      cases h
      obtain ⟨_, _, hmeet⟩ := meetingPoint_eq_ok before after _ _ hpoint
      rcases hmeet with ⟨rfl, rfl⟩ | ⟨c', d', id, rfl, rfl, hc, hd⟩
      · obtain ⟨hb, ha⟩ := w.oldestTimestamp_eq_zero_of_meetingPoint w'
          (fun hb => hne (Or.inl hb)) (fun ha => hne (Or.inr ha)) hpoint
        exact ⟨Nat.le_of_eq hb, Nat.le_of_eq ha⟩
      · exact ⟨Nat.le_succ_of_le (oldestTimestamp_le_of_idAt hc),
          Nat.le_succ_of_le (oldestTimestamp_le_of_idAt hd)⟩
    · cases h

/-- The operations that a bridge is made of can be had, on both sides. -/
theorem IsWindow.exists_between_of_parting (w : before.IsWindow all) (w' : after.IsWindow all')
    {c d : Nat} (h : parting before after = .ok (c, d)) :
    (∃ ops, before.between c before.timestamp = .ok ops) ∧
      ∃ ops, after.between d after.timestamp = .ok ops := by
  obtain ⟨hc, hd, _⟩ := parting_eq_ok h
  obtain ⟨hb, ha⟩ := w.oldestTimestamp_le_of_parting w' h
  rw [w.between hc (Nat.le_refl _), w'.between hd (Nat.le_refl _), if_neg (Nat.not_lt.mpr hb),
    if_neg (Nat.not_lt.mpr ha)]
  exact ⟨⟨_, rfl⟩, _, rfl⟩

/-- A change since a timestamp from which on everything is retained can only fault. -/
theorem changeSince_of_between {t : Nat} {ops : List Operation}
    (h : before.between t before.timestamp = .ok ops) :
    before.changeSince t = Failure.ofFault (Operation.composeAll ops) := by
  unfold changeSince
  rw [h]
  rfl

/-- Bridging is refused for the reason for which finding the point of parting is. -/
theorem IsWindow.bridge_refused_iff (w : before.IsWindow all) (w' : after.IsWindow all')
    {reason : BridgeError} :
    before.bridge after = .error (.refused reason) ↔ parting before after = .error reason := by
  constructor
  · intro h
    cases hpart : parting before after with
    | error reason' =>
      unfold bridge at h
      rw [hpart] at h
      cases h
      rfl
    | ok point =>
      obtain ⟨c, d⟩ := point
      obtain ⟨⟨ops, hops⟩, ops', hops'⟩ := w.exists_between_of_parting w' hpart
      rw [bridge_of_parting hpart, changeSince_of_between hops, changeSince_of_between hops'] at h
      -- three steps are left, and each of them can only fault
      obtain ⟨done, _, h⟩ := Failure.ofFault_bind_refused h
      obtain ⟨missing, _, h⟩ := Failure.ofFault_bind_refused h
      obtain ⟨op, _, h⟩ := Failure.ofFault_bind_refused h
      cases h
  · intro h
    unfold bridge
    rw [h]
    rfl

theorem IsWindow.parting_eq_error (w : before.IsWindow all) (w' : after.IsWindow all')
    {reason : BridgeError} (h : parting before after = .error reason) :
    (reason = .emptyTrimmed ∧ (before.isEmpty ∨ after.isEmpty) ∧
        (before.hasEvicted ∨ after.hasEvicted)) ∨
      ∃ t, reason = .lookup (.trimmed t) ∧
        (t < before.oldestTimestamp ∨ t < after.oldestTimestamp) := by
  unfold parting at h
  split at h
  · next hempty =>
    split at h
    · next hev =>
      cases h
      exact Or.inl ⟨rfl, hempty, hev⟩
    · cases h
  · split at h
    · cases h
    · next e he =>
      cases h
      obtain ⟨t, rfl, ht⟩ := meetingPoint_eq_error w w' _ _ (Nat.le_refl _) (Nat.le_refl _) he
      exact Or.inr ⟨t, rfl, ht⟩

theorem parting_eq_emptyTrimmed (hempty : before.isEmpty ∨ after.isEmpty)
    (hev : before.hasEvicted ∨ after.hasEvicted) :
    parting before after = .error .emptyTrimmed := by
  unfold parting
  rw [if_pos hempty, if_pos hev]

/-- **Only eviction stands in the way of a bridge.** Take any two histories that calls can lead to,
with any ids. If both retain something, the walk back ends, in one of two ways. It gives a point,
and then the operations from there on can be had on both sides, and the point is the start only if
neither history has evicted anything. Or it fails, at a timestamp that one of the two has evicted.
Bridging is refused for want of something to compare exactly if one history is empty and one has
evicted entries, and otherwise only for an evicted timestamp: never because an id was not found or
because a timestamp was out of range. -/
theorem Reached.refused_by_eviction_only (hb : before.Reached all) (ha : after.Reached all') :
    (¬ before.isEmpty → ¬ after.isEmpty →
      (∃ c d, meetingPoint before after before.timestamp after.timestamp = .ok (c, d) ∧
        ((c, d) = (0, 0) → ¬ before.hasEvicted ∧ ¬ after.hasEvicted) ∧
        (∃ ops, before.between c before.timestamp = .ok ops) ∧
        ∃ ops, after.between d after.timestamp = .ok ops) ∨
      ∃ t, meetingPoint before after before.timestamp after.timestamp = .error (.trimmed t) ∧
        (t < before.oldestTimestamp ∨ t < after.oldestTimestamp)) ∧
    (before.bridge after = .error (.refused .emptyTrimmed) ↔
      (before.isEmpty ∨ after.isEmpty) ∧ (before.hasEvicted ∨ after.hasEvicted)) ∧
    ∀ reason, before.bridge after = .error (.refused reason) →
      reason = .emptyTrimmed ∨
        ∃ t, reason = .lookup (.trimmed t) ∧
          (t < before.oldestTimestamp ∨ t < after.oldestTimestamp) := by
  have w := hb.isWindow
  have w' := ha.isWindow
  refine ⟨?_, ?_, ?_⟩
  · intro hbefore hafter
    cases hpoint : meetingPoint before after before.timestamp after.timestamp with
    | error e =>
      obtain ⟨t, rfl, ht⟩ := meetingPoint_eq_error w w' _ _ (Nat.le_refl _) (Nat.le_refl _) hpoint
      exact Or.inr ⟨t, rfl, ht⟩
    | ok point =>
      obtain ⟨c, d⟩ := point
      have hpart := parting_of_meetingPoint hbefore hafter hpoint
      refine Or.inl ⟨c, d, rfl, ?_, w.exists_between_of_parting w' hpart⟩
      intro hstart
      cases hstart
      obtain ⟨hb0, ha0⟩ := w.oldestTimestamp_eq_zero_of_meetingPoint w' hbefore hafter hpoint
      rw [hasEvicted_iff, hasEvicted_iff, hb0, ha0]
      exact ⟨Nat.lt_irrefl 0, Nat.lt_irrefl 0⟩
  · rw [w.bridge_refused_iff w']
    constructor
    · intro h
      rcases w.parting_eq_error w' h with ⟨_, hempty⟩ | ⟨t, ht, _⟩
      · exact hempty
      · cases ht
    · rintro ⟨hempty, hev⟩
      exact parting_eq_emptyTrimmed hempty hev
  · intro reason h
    rcases w.parting_eq_error w' ((w.bridge_refused_iff w').mp h) with ⟨rfl, _⟩ | ht
    · exact Or.inl rfl
    · exact Or.inr ht

/-- The left copy, and the right copy with only its last entry: the walk goes back on the right, to
an entry that is gone. With nothing left on the right, there is nothing to compare. -/
theorem Reached.refused_by_eviction_only_trimmed :
    Forked.left.history.bridge (Forked.right.history.trim ⟨1, 100⟩) =
        .error (.refused (.lookup (.trimmed 2))) ∧
      (Forked.right.history.trim ⟨1, 100⟩).oldestTimestamp = 3 ∧
      (∃ t, BridgeError.lookup (.trimmed 2) = .lookup (.trimmed t) ∧
        (t < Forked.left.history.oldestTimestamp ∨
          t < (Forked.right.history.trim ⟨1, 100⟩).oldestTimestamp)) ∧
      Forked.left.history.bridge (Forked.right.history.trim ⟨0, 0⟩) =
        .error (.refused .emptyTrimmed) := by
  have hleft := Forked.run_left.reached
  have hright := Forked.run_right.reached
  have hbridge : Forked.left.history.bridge (Forked.right.history.trim ⟨1, 100⟩) =
      .error (.refused (.lookup (.trimmed 2))) := by cbv
  refine ⟨hbridge, rfl, ?_, ?_⟩
  · have hreason := (refused_by_eviction_only hleft (hright.trim ⟨1, 100⟩)).2.2 _ hbridge
    refine hreason.resolve_left ?_
    intro h
    cases h
  · exact (refused_by_eviction_only hleft (hright.trim ⟨0, 0⟩)).2.1.mpr
      ⟨Or.inr rfl, Or.inr rfl⟩

end History

end Coedit
