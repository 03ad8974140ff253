import Coedit.Proofs.History.Fork
import Coedit.Proofs.Operation.Inversion

/-!
# The bridge back

A bridge leads from the end of one history to the end of another. Between two histories that part
after a common stretch, there is then a bridge the other way too, and it is no new operation:

> `Fork.bridge_back`: the bridge back is the inverse of the bridge forth, component for component.

The walk that looks for the common entry prefers one of the histories when both are as far ahead, so
it does not look at the same entries in both directions. It stops at the fork all the same, because
two histories fork the other way round as well (`Fork.symm`). From there the two bridges compose the
same tails with the roles exchanged, which is what `Operation.compose_inverse_comm` is about.
-/

namespace Coedit

namespace History

variable {shared mine theirs : List Entry} {before after : History}

/-- A fork seen from the other branch. -/
theorem Fork.symm (f : Fork shared mine theirs before after) :
    Fork shared theirs mine after before where
  before_reached := f.after_reached
  after_reached := f.before_reached
  nodup_ids := by
    refine (List.Perm.nodup_iff (List.Perm.map _ ?_)).mp f.nodup_ids
    rw [List.append_assoc, List.append_assoc]
    exact List.Perm.append_left _ List.perm_append_comm
  same_start := fun b hb a ha => (f.same_start a ha b hb).symm

theorem exists_parting_of_bridge {op : Operation} (h : before.bridge after = .ok op) :
    ∃ i j, parting before after = .ok (i, j) := by
  obtain ⟨⟨i, j⟩, hpart, _⟩ := bind_eq_ok.mp h
  cases hparting : parting before after with
  | error reason =>
    rw [hparting] at hpart
    cases hpart
  | ok point => exact ⟨_, _, rfl⟩

/-- **Bridging back is the exact inverse.** If two histories that share exactly `shared` can be
bridged, with whatever windows they have, then they can be bridged the other way round, and that
bridge has the inverse components. -/
theorem Fork.bridge_back (f : Fork shared mine theirs before after) {op : Operation}
    (h : before.bridge after = .ok op) : after.bridge before = .ok op.inverse := by
  obtain ⟨i, j, hparting⟩ := exists_parting_of_bridge h
  obtain ⟨hbefore, hafter⟩ := f.oldestTimestamp_le hparting
  obtain ⟨done, missing, forth, hdone, hmissing, hforth, hbridge⟩ := f.exists_bridge hbefore hafter
  obtain ⟨done', missing', back, hdone', hmissing', hback, hbridge'⟩ :=
    f.symm.exists_bridge hafter hbefore
  -- what one side has done is what the other side misses
  rw [hmissing] at hdone'
  cases hdone'
  rw [hdone] at hmissing'
  cases hmissing'
  rw [Operation.compose_inverse_comm hforth] at hback
  cases hback
  rw [hbridge] at h
  cases h
  rw [hbridge', Operation.normalize_inverse]

end History

/-- From the right copy to the left one. -/
def Forked.back : Operation :=
  ⟨[.replace [] ['x', 'a'], .retain 1, .replace ['y'] []], by decide, by decide⟩

/-- Both copies without their first entry, bridged in both directions. -/
theorem History.Fork.bridge_back_forked :
    Forked.leftEnd.bridge Forked.rightEnd = .ok Forked.there ∧
      Forked.rightEnd.bridge Forked.leftEnd = .ok Forked.back :=
  ⟨Forked.bridge_there, bridge_back Forked.fork Forked.bridge_there⟩

end Coedit
