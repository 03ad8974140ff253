import Coedit.Proofs.History.Trimming

/-!
# What trimming retains

Trimming evicts the oldest entries one by one and looks at both bounds before each of them, with a
weight that it keeps up as it goes. This file says what is left in the end, and what is left if it
happens twice under different policies:

> `run_trim_longest_end`: of any history that calls have led to, the longest end of the entries that
> is within both bounds is retained, with the weight of just these and the timestamp as before.
> Trimming to one policy and then to another is trimming once to the smaller bounds of both.

There is only one longest end (`Retention.LongestEnd.unique`), so the second part is a matter of
policies alone. Entries are within the smaller bounds of two policies exactly if they are within the
bounds of both (`Retention.allows_meet`). An end of this kind is part of what the first policy
retains, so the second one finds it there, however much else is left (`Retention.kept_kept_meet`).
-/

namespace Coedit

namespace Retention

variable {policy other : Retention} {es part part' : List Entry}

/-- The policy with the smaller bounds of two. -/
def meet (policy other : Retention) : Retention :=
  ⟨min policy.maxEntries other.maxEntries, min policy.maxWeight other.maxWeight⟩

/-- To be within the smaller bounds is to be within those of both policies. -/
theorem allows_meet : (policy.meet other).Allows es ↔ policy.Allows es ∧ other.Allows es := by
  unfold Allows meet
  rw [Nat.le_min, Nat.le_min]
  exact and_and_and_comm

/-- Of all ends of the entries that are within the bounds, `part` is the longest. -/
structure LongestEnd (policy : Retention) (es part : List Entry) : Prop where
  suffix : part <:+ es
  allows : policy.Allows part
  longest : ∀ {part'}, part' <:+ es → policy.Allows part' → part'.length ≤ part.length

theorem LongestEnd.unique (h : policy.LongestEnd es part) (h' : policy.LongestEnd es part') :
    part = part' := by
  have hlength : part.length = part'.length :=
    Nat.le_antisymm (h'.longest h.suffix h.allows) (h.longest h'.suffix h'.allows)
  exact (List.suffix_of_suffix_length_le h.suffix h'.suffix (Nat.le_of_eq hlength)).eq_of_length
    hlength

theorem longestEnd_kept (policy : Retention) (es : List Entry) :
    policy.LongestEnd es (policy.kept es) where
  suffix := policy.kept_suffix es
  allows := policy.allows_kept es
  longest hsuffix hallows := (hallows.suffix_kept hsuffix).length_le

/-- **Keeping twice is keeping within the smaller bounds.** -/
theorem kept_kept_meet (policy other : Retention) (es : List Entry) :
    other.kept (policy.kept es) = (policy.meet other).kept es := by
  have hfirst := policy.longestEnd_kept es
  have hsecond := other.longestEnd_kept (policy.kept es)
  have hboth : (policy.meet other).LongestEnd es (other.kept (policy.kept es)) := by
    refine ⟨hsecond.suffix.trans hfirst.suffix, ?_, ?_⟩
    · exact allows_meet.mpr ⟨hfirst.allows.of_sublist hsecond.suffix.sublist, hsecond.allows⟩
    · intro part hpart hallows
      obtain ⟨hpolicy, hother⟩ := allows_meet.mp hallows
      exact hsecond.longest (hpolicy.suffix_kept hpart) hother
  exact hboth.unique (longestEnd_kept ..)

end Retention

namespace History

variable {h : History}

/-- Trimming twice gives the same history as trimming to the smaller bounds. -/
theorem Consistent.same_trim_trim (hc : h.Consistent) (policy other : Retention) :
    ((h.trim policy).trim other).Same (h.trim (policy.meet other)) := by
  have hfirst := hc.trim policy
  refine (hfirst.trim other).same_of_entries_eq (hc.trim _) ?_ ?_
  · rw [hfirst.entries_trim_eq_kept, hc.entries_trim_eq_kept, hc.entries_trim_eq_kept,
      Retention.kept_kept_meet]
  · rw [timestamp_trim, timestamp_trim, timestamp_trim]

/-- **Trimming retains the longest end within both bounds.** Whatever calls have led to a history,
and whatever the policy, no step of trimming takes off more than there is. The entries retained, ids
and operations alike, are the longest end of those there were that is within the bounds, with an id
for every operation. The timestamp stays, and the weight is what the retained operations weigh
together. Trimming to one more policy afterwards is the same as trimming once to the smaller bounds
of both. -/
theorem run_trim_longest_end {calls : List Call} (hrun : run calls = .ok h) (policy : Retention) :
    h.trimChecked policy = .ok (h.trim policy) ∧
      policy.LongestEnd h.entries (h.trim policy).entries ∧ h.Paired ∧ (h.trim policy).Paired ∧
      (∃ evicted, (h.trim policy).ids = h.ids.drop evicted ∧
        (h.trim policy).operations = h.operations.drop evicted) ∧
      (h.trim policy).timestamp = h.timestamp ∧
      (h.trim policy).weight = total Operation.size (h.trim policy).operations ∧
      ∀ other, ((h.trim policy).trim other).Same (h.trim (policy.meet other)) := by
  obtain ⟨all, hr⟩ := reached_of_run hrun
  have hc := hr.consistent
  have htrim := hc.trim policy
  refine ⟨hc.trimChecked_eq policy, ?_, hc.paired, htrim.paired,
    ⟨h.evictedBy policy, h.ids_trim policy, h.operations_trim policy⟩, timestamp_trim policy, ?_,
    hc.same_trim_trim policy⟩
  · rw [hc.entries_trim_eq_kept]
    exact policy.longestEnd_kept _
  · rw [htrim.weight_eq, weightOf_eq_total, htrim.paired.map_operation]

/-- Of entries that weigh 2, 0, 3, 3 and 2, the first policy retains all but the oldest; the empty
operation stays, since it weighs nothing and there is room for four. The second one is met by the
last two only. -/
theorem run_trim_longest_end_weightless :
    ∃ h, run (Call.recording Forked.written) = .ok h ∧
      (h.trim ⟨4, 8⟩).ids = [⟨2⟩, ⟨4⟩, ⟨5⟩, ⟨6⟩] ∧ (h.trim ⟨4, 8⟩).weight = 8 ∧
      (h.trim ⟨4, 8⟩).timestamp = h.timestamp ∧
      Retention.LongestEnd ⟨4, 8⟩ h.entries (h.trim ⟨4, 8⟩).entries ∧
      ((h.trim ⟨4, 8⟩).trim ⟨9, 7⟩).ids = [⟨5⟩, ⟨6⟩] ∧
      ((h.trim ⟨4, 8⟩).trim ⟨9, 7⟩).Same (h.trim ⟨4, 7⟩) := by
  obtain ⟨h, hrun⟩ : ∃ h, run (Call.recording Forked.written) = .ok h := ⟨_, rfl⟩
  obtain ⟨-, hlongest, -, -, -, htime, -, hsame⟩ := run_trim_longest_end hrun ⟨4, 8⟩
  refine ⟨h, hrun, ?_, ?_, htime, hlongest, ?_, hsame ⟨9, 7⟩⟩
  · cases hrun
    rfl
  · cases hrun
    rfl
  · cases hrun
    rfl

end History

end Coedit
