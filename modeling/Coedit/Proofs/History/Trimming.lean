import Coedit.Proofs.History.Invariant

/-!
# Trimming as one goes

A document trims its history after every edit. It could as well wait: whatever has been evicted early
would be evicted in the end, and nothing else. This file proves it for any moments of trimming:

> `run_trimmed_as_recorded`: if entries can be recorded one after the other, they can also be
> recorded with trimming after some or all of them, and a last trimming leads to the same history.

Trimming keeps the longest end of the entries that is within both bounds, `Retention.kept`. That it
does so is an induction along the eviction loop (`Consistent.entries_trim_eq_kept`). Longest ends within bounds can be
taken in stages (`Retention.kept_kept_append`): an end of all entries that is within the bounds has no
room for what an earlier trimming evicted, because bounds that hold of a list hold of each part of
it. This is so for one entry that is too heavy by itself, too. Everything up to it is evicted then,
and so is the entry.

An early trimming also takes away what a new entry is checked against. What is left to check against
is still the newest change, or there is nothing left (`Trails.record`).
-/

namespace Coedit

theorem History.weightOf_le_of_sublist {es fs : List Entry} (h : es.Sublist fs) :
    weightOf es ≤ weightOf fs := by
  induction h with
  | slnil => exact Nat.le_refl _
  | cons e _ ih => exact Nat.le_trans ih (Nat.le_add_left ..)
  | cons_cons e _ ih => exact Nat.add_le_add_left ih _

namespace Retention

variable {policy : Retention} {es fs : List Entry}

/-- The entries are within both bounds. -/
def Allows (policy : Retention) (es : List Entry) : Prop :=
  es.length ≤ policy.maxEntries ∧ History.weightOf es ≤ policy.maxWeight

instance : Decidable (policy.Allows es) := inferInstanceAs (Decidable (_ ∧ _))

/-- The longest end of the entries that is within the bounds. -/
def kept (policy : Retention) : List Entry → List Entry
  | [] => []
  | e :: es => if policy.Allows (e :: es) then e :: es else policy.kept es

/-- What holds within bounds has parts within bounds. -/
theorem Allows.of_sublist (h : policy.Allows fs) (hes : es.Sublist fs) : policy.Allows es :=
  ⟨Nat.le_trans hes.length_le h.1, Nat.le_trans (History.weightOf_le_of_sublist hes) h.2⟩

theorem kept_suffix (policy : Retention) (es : List Entry) : policy.kept es <:+ es := by
  induction es with
  | nil => exact List.suffix_refl _
  | cons e es ih =>
    unfold kept
    split
    · exact List.suffix_refl _
    · exact ih.trans (List.suffix_cons ..)

theorem allows_kept (policy : Retention) (es : List Entry) : policy.Allows (policy.kept es) := by
  induction es with
  | nil => exact ⟨Nat.zero_le _, Nat.zero_le _⟩
  | cons e es ih =>
    unfold kept
    split
    · next hall => exact hall
    · exact ih

/-- Every end within the bounds is an end of what is kept. -/
theorem Allows.suffix_kept (h : policy.Allows es) (hes : es <:+ fs) : es <:+ policy.kept fs := by
  induction fs with
  | nil => exact hes
  | cons f fs ih =>
    unfold kept
    split
    · exact hes
    · next hall =>
      rcases List.suffix_cons_iff.mp hes with rfl | hes
      · exact absurd h hall
      · exact ih hes

/-- What is kept of the entries decides what is kept of them and later ones. -/
theorem kept_kept_append (policy : Retention) (es later : List Entry) :
    policy.kept (policy.kept es ++ later) = policy.kept (es ++ later) := by
  -- each of the two is an end of the other
  have hthere : policy.kept (policy.kept es ++ later) <:+ policy.kept (es ++ later) := by
    refine (policy.allows_kept _).suffix_kept ((policy.kept_suffix _).trans ?_)
    obtain ⟨evicted, hev⟩ := policy.kept_suffix es
    exact ⟨evicted, by rw [← List.append_assoc, hev]⟩
  have hback : policy.kept (es ++ later) <:+ policy.kept (policy.kept es ++ later) := by
    have hallows := policy.allows_kept (es ++ later)
    refine hallows.suffix_kept ?_
    rcases List.suffix_or_suffix_of_suffix (policy.kept_suffix (es ++ later))
      (List.suffix_append es later) with hin | ⟨early, hearly⟩
    · exact hin.trans (List.suffix_append ..)
    · -- the part of it among the early entries was within the bounds then
      have hearlies : early <:+ es := by
        obtain ⟨evicted, hev⟩ := policy.kept_suffix (es ++ later)
        rw [← hearly, ← List.append_assoc] at hev
        exact ⟨evicted, List.append_cancel_right hev⟩
      have hearlyAllows : policy.Allows early := by
        rw [← hearly] at hallows
        exact hallows.of_sublist (List.sublist_append_left ..)
      obtain ⟨more, hmore⟩ := hearlyAllows.suffix_kept hearlies
      exact ⟨more, by rw [← hearly, ← List.append_assoc, hmore]⟩
  exact hthere.eq_of_length_le hback.length_le

theorem kept_kept (policy : Retention) (es : List Entry) :
    policy.kept (policy.kept es) = policy.kept es := by
  have happend := policy.kept_kept_append es []
  rw [List.append_nil, List.append_nil] at happend
  exact happend

end Retention

namespace History

variable {policy : Retention} {h g : History}

/-! ## What trimming keeps -/

/-- The eviction loop stops at the longest end within the bounds. -/
theorem Paired.drop_withinBounds (hp : h.Paired) (policy : Retention) {count weight : Nat}
    (hcount : count ≤ h.length)
    (hweight : weight = weightOf (h.entries.drop (h.length - count))) :
    h.entries.drop (h.length - (h.withinBounds policy count weight).1) =
      policy.kept (h.entries.drop (h.length - count)) := by
  have hlen := hp.length_entries
  induction count generalizing weight with
  | zero =>
    rw [withinBounds, Nat.sub_zero, ← hlen, List.drop_length]
    rfl
  | succ count ih =>
    have hsum := hp.weightOf_newest_succ hcount
    have hnext : h.length - (count + 1) + 1 = h.length - count := by omega
    have hcons := List.drop_eq_getElem_cons
      (show h.length - (count + 1) < h.entries.length by omega)
    rw [hnext] at hcons
    have hall : policy.Allows (h.entries.drop (h.length - (count + 1))) ↔
        count + 1 ≤ policy.maxEntries ∧ weight ≤ policy.maxWeight := by
      rw [Retention.Allows, List.length_drop, hlen, ← hweight, Nat.sub_sub_self hcount]
    unfold withinBounds
    by_cases hstop : count + 1 ≤ policy.maxEntries ∧ weight ≤ policy.maxWeight
    · rw [if_pos hstop, hcons, Retention.kept, if_pos (by rw [← hcons]; exact hall.mpr hstop)]
    · rw [if_neg hstop, hcons, Retention.kept,
        if_neg (by rw [← hcons]; exact fun hn => hstop (hall.mp hn))]
      exact ih (by omega) (by omega)

/-- Trimming keeps the longest end of the entries that is within the bounds. -/
theorem Consistent.entries_trim_eq_kept (hc : h.Consistent) (policy : Retention) :
    (h.trim policy).entries = policy.kept h.entries := by
  have hdrop := hc.paired.drop_withinBounds policy (Nat.le_refl h.length) hc.weight_eq_newest
  rw [Nat.sub_self, List.drop_zero] at hdrop
  rw [entries_trim, evictedBy, hdrop]

/-! ## A history that has been trimmed early -/

/-- The first history is the second one trimmed early: it has evicted nothing that the policy would
not evict from the second. -/
structure Trails (policy : Retention) (h g : History) : Prop where
  timestamp_eq : h.timestamp = g.timestamp
  suffix : h.entries <:+ g.entries
  kept_eq : policy.kept h.entries = policy.kept g.entries
  consistent : h.Consistent
  consistent' : g.Consistent

theorem Trails.operations_suffix (ht : Trails policy h g) : h.operations <:+ g.operations := by
  rw [← ht.consistent.paired.map_operation, ← ht.consistent'.paired.map_operation]
  exact ht.suffix.map _

/-- What is retained of the changes ends with the newest of them, or there is none. -/
theorem lastChange?_of_suffix (hs : h.operations <:+ g.operations) {last : Operation}
    (hlast : h.lastChange? = some last) : g.lastChange? = some last := by
  obtain ⟨evicted, hev⟩ := hs
  rw [lastChange?_eq] at hlast
  rw [lastChange?_eq, ← hev, Operation.changes_append, List.getLast?_append, hlast]
  rfl

/-- An entry can be added if the weight then is still a number. -/
theorem exists_push_iff {entry : Entry} :
    (∃ h', h.push entry = .ok h') ↔ h.weight + entry.operation.size < Word.bound := by
  constructor
  · rintro ⟨h', hpush⟩
    obtain ⟨weight, hadd, _⟩ := bind_eq_ok.mp hpush
    unfold Word.add at hadd
    split at hadd
    · next hfit => exact hfit
    · cases hadd
  · intro hfit
    exact ⟨_, bind_eq_ok.mpr ⟨_, Word.add_eq_ok hfit, rfl⟩⟩

/-- A history can take an entry that one with more entries can take. -/
theorem exists_record_of_suffix (hs : h.operations <:+ g.operations)
    (hw : h.weight ≤ g.weight) {id : EditId} {op : Operation} {g' : History}
    (hrec : g.record id op = .ok g') : ∃ h', h.record id op = .ok h' := by
  have hfit := exists_push_iff.mp ⟨g', push_of_record hrec⟩
  have hpush : ∃ h', h.push ⟨id, op⟩ = .ok h' := exists_push_iff.mpr (by omega)
  unfold record
  by_cases hop : op.isEmpty
  · rw [if_pos hop]
    exact hpush
  · rw [if_neg hop]
    split
    · exact hpush
    · next last hlast =>
      rw [if_pos (lenBefore_of_record hrec hop last (lastChange?_of_suffix hs hlast))]
      exact hpush

theorem Trails.record (ht : Trails policy h g) {id : EditId} {op : Operation} {g' : History}
    (hrec : g.record id op = .ok g') : ∃ h', h.record id op = .ok h' ∧ Trails policy h' g' := by
  have hle : h.weight ≤ g.weight := by
    rw [ht.consistent.weight_eq, ht.consistent'.weight_eq]
    exact weightOf_le_of_sublist ht.suffix.sublist
  obtain ⟨h', hrec'⟩ := exists_record_of_suffix ht.operations_suffix hle hrec
  have hpush := push_of_record hrec'
  have hpush' := push_of_record hrec
  have hentries := ht.consistent.paired.entries_push hpush
  have hentries' := ht.consistent'.paired.entries_push hpush'
  refine ⟨h', hrec', ?_, ?_, ?_, ht.consistent.push hpush, ht.consistent'.push hpush'⟩
  · rw [push_eq_ok hpush, push_eq_ok hpush']
    exact congrArg (· + 1) ht.timestamp_eq
  · obtain ⟨evicted, hev⟩ := ht.suffix
    rw [hentries, hentries']
    exact ⟨evicted, by rw [← List.append_assoc, hev]⟩
  · rw [hentries, hentries', ← policy.kept_kept_append, ht.kept_eq, policy.kept_kept_append]

theorem Trails.trim (ht : Trails policy h g) : Trails policy (h.trim policy) g where
  timestamp_eq := by rw [timestamp_trim]; exact ht.timestamp_eq
  suffix := (h.entries_trim_suffix policy).trans ht.suffix
  kept_eq := by rw [ht.consistent.entries_trim_eq_kept, policy.kept_kept, ht.kept_eq]
  consistent := ht.consistent.trim policy
  consistent' := ht.consistent'

/-! ## Runs of calls -/

/-- The history after calls with checked subtractions and slices. -/
def runChecked (calls : List Call) : Except Fault History :=
  calls.foldlM (fun h call => call.performChecked h) empty

/-- No calls whatsoever take off more than there is, or slice beyond the end of a vector. -/
theorem runChecked_eq (calls : List Call) : runChecked calls = run calls := by
  have hfold : ∀ {all : List Entry} {h : History}, Reached all h →
      calls.foldlM (fun h call => call.performChecked h) h =
        calls.foldlM (fun h call => call.perform h) h := by
    induction calls with
    | nil => intro all h _; rfl
    | cons call calls ih =>
      intro all h hr
      rw [List.foldlM_cons, List.foldlM_cons, hr.performChecked_eq]
      cases hcall : call.perform h with
      | error fault => rfl
      | ok next =>
        obtain ⟨all', hnext⟩ := hr.perform hcall
        exact ih hnext
  exact hfold .start

/-- The calls lead to the history without a fault, also if every subtraction and every slice on the
way is checked. -/
def Call.LeadTo (calls : List Call) (h : History) : Prop :=
  run calls = .ok h ∧ runChecked calls = .ok h

/-- Records entries. -/
def Call.recording (entries : List Entry) : List Call :=
  entries.map fun e => .record e.id e.operation

/-- Records entries, and trims after each one that is marked. -/
def Call.recordingTrimmed (policy : Retention) (steps : List (Entry × Bool)) : List Call :=
  steps.flatMap fun step =>
    .record step.1.id step.1.operation :: if step.2 then [.trim policy] else []

/-- The histories have the same value in every field, and so they are equal. -/
structure Same (h g : History) : Prop where
  operations_eq : h.operations = g.operations
  ids_eq : h.ids = g.ids
  timestamp_eq : h.timestamp = g.timestamp
  weight_eq : h.weight = g.weight
  beq : h == g

theorem Consistent.same_of_entries_eq (hc : h.Consistent) (hc' : g.Consistent)
    (hentries : h.entries = g.entries) (htime : h.timestamp = g.timestamp) : h.Same g := by
  have hops : h.operations = g.operations := by
    rw [← hc.paired.map_operation, hentries, hc'.paired.map_operation]
  have hids : h.ids = g.ids := by rw [← hc.paired.map_id, hentries, hc'.paired.map_id]
  have hweight : h.weight = g.weight := by rw [hc.weight_eq, hc'.weight_eq, hentries]
  refine ⟨hops, hids, htime, hweight, ?_⟩
  show (h.operations == g.operations && h.ids == g.ids && h.timestamp == g.timestamp &&
    h.weight == g.weight) = true
  rw [hops, hids, htime, hweight]
  simp

theorem Trails.same_trim (ht : Trails policy h g) : (h.trim policy).Same (g.trim policy) := by
  refine (ht.consistent.trim policy).same_of_entries_eq (ht.consistent'.trim policy) ?_ ?_
  · rw [ht.consistent.entries_trim_eq_kept, ht.consistent'.entries_trim_eq_kept, ht.kept_eq]
  · rw [timestamp_trim, timestamp_trim, ht.timestamp_eq]

/-- Recording with trimming in between goes through where recording goes through, and trails it.
After trimming every time, nothing is left to trim. -/
theorem Trails.foldlM_perform (ht : Trails policy h g) {steps : List (Entry × Bool)} {g' : History}
    (hrun : (Call.recording (steps.map Prod.fst)).foldlM (fun h call => call.perform h) g =
      .ok g') :
    ∃ h', (Call.recordingTrimmed policy steps).foldlM (fun h call => call.perform h) h = .ok h' ∧
      Trails policy h' g' ∧
      (policy.kept h.entries = h.entries → (∀ step ∈ steps, step.2) →
        policy.kept h'.entries = h'.entries) := by
  induction steps generalizing h g with
  | nil =>
    cases hrun
    exact ⟨h, rfl, ht, fun hkept _ => hkept⟩
  | cons step steps ih =>
    obtain ⟨entry, trimmed⟩ := step
    rw [List.map_cons, Call.recording, List.map_cons, List.foldlM_cons] at hrun
    obtain ⟨next, hrec, hrest⟩ := bind_eq_ok.mp hrun
    obtain ⟨h₁, hrec', ht₁⟩ := ht.record hrec
    have hfirst : ∀ rest, (Call.record entry.id entry.operation :: rest).foldlM
        (fun h call => call.perform h) h = rest.foldlM (fun h call => call.perform h) h₁ := by
      intro rest
      rw [List.foldlM_cons]
      show (h.record entry.id entry.operation >>= _) = _
      rw [hrec']
      rfl
    rw [Call.recordingTrimmed, List.flatMap_cons, List.cons_append, hfirst]
    cases trimmed with
    | false =>
      obtain ⟨h', hrun', ht', _⟩ := ih ht₁ hrest
      refine ⟨h', hrun', ht', ?_⟩
      intro _ hall
      exact absurd (hall _ (List.mem_cons_self ..)) Bool.false_ne_true
    | true =>
      obtain ⟨h', hrun', ht', hkept'⟩ := ih ht₁.trim hrest
      refine ⟨h', hrun', ht', ?_⟩
      intro _ hall
      refine hkept' ?_ fun step hstep => hall step (List.mem_cons_of_mem _ hstep)
      rw [ht₁.consistent.entries_trim_eq_kept, policy.kept_kept]

theorem trails_empty (policy : Retention) : Trails policy empty empty :=
  ⟨rfl, List.suffix_refl _, rfl, ⟨rfl, rfl⟩, ⟨rfl, rfl⟩⟩

theorem Call.leadTo_of_run {calls : List Call} (hrun : run calls = .ok h) : LeadTo calls h :=
  ⟨hrun, (runChecked_eq calls).trans hrun⟩

/-- A last trimming is one more call. -/
theorem run_concat_trim {calls : List Call} (hrun : run calls = .ok h) (policy : Retention) :
    run (calls ++ [.trim policy]) = .ok (h.trim policy) := by
  rw [run, List.foldlM_append]
  exact bind_eq_ok.mpr ⟨h, hrun, rfl⟩

/-- **Trimming as one goes is trimming once.** If entries can be recorded one after the other, then
recording them and trimming at the end leads to the same history as trimming after each of them,
and as trimming after any of them and once more at the end. -/
theorem run_trimmed_as_recorded (policy : Retention) {entries : List Entry} {full : History}
    (hfull : run (Call.recording entries) = .ok full) :
    ∃ once, Call.LeadTo (Call.recording entries ++ [.trim policy]) once ∧
      (∃ h, Call.LeadTo (Call.recordingTrimmed policy (entries.map fun e => (e, true))) h ∧
        h.Same once) ∧
      ∀ steps : List (Entry × Bool), steps.map Prod.fst = entries →
        ∃ h, Call.LeadTo (Call.recordingTrimmed policy steps ++ [.trim policy]) h ∧
          h.Same once := by
  have htrail : ∀ steps : List (Entry × Bool), steps.map Prod.fst = entries → ∃ h,
      run (Call.recordingTrimmed policy steps) = .ok h ∧ Trails policy h full ∧
        ((∀ step ∈ steps, step.2) → policy.kept h.entries = h.entries) := by
    intro steps hsteps
    subst hsteps
    obtain ⟨h, hrun, ht, hkept⟩ := (trails_empty policy).foldlM_perform hfull
    exact ⟨h, hrun, ht, hkept rfl⟩
  refine ⟨full.trim policy, Call.leadTo_of_run (run_concat_trim hfull policy), ?_, ?_⟩
  · obtain ⟨h, hrun, ht, hkept⟩ := htrail (entries.map fun e => (e, true))
      (by rw [List.map_map]; exact List.map_id' _)
    refine ⟨h, Call.leadTo_of_run hrun, ?_⟩
    have hlast := hkept (by simp)
    refine ht.consistent.same_of_entries_eq (ht.consistent'.trim policy) ?_ ?_
    · rw [ht.consistent'.entries_trim_eq_kept, ← ht.kept_eq, hlast]
    · rw [timestamp_trim, ht.timestamp_eq]
  · intro steps hsteps
    obtain ⟨h, hrun, ht, _⟩ := htrail steps hsteps
    exact ⟨_, Call.leadTo_of_run (run_concat_trim hrun policy), ht.same_trim⟩

end History

namespace Forked

/-- Takes off the last letter of what the right copy has. -/
def shorter : Entry := ⟨⟨6⟩, ⟨[.retain 1, .replace ['y'] []], by decide, by decide⟩⟩

/-- The edits of the right copy and one more. -/
def written : List Entry := [typed, idle, theirs, later, shorter]

/-- The same, with trimming after the second and the fourth. -/
def marked : List (Entry × Bool) :=
  [(typed, false), (idle, true), (theirs, false), (later, true), (shorter, false)]

end Forked

/-- Under a policy for which the third and the fourth entry are too heavy by themselves, the fifth
is recorded onto nothing, and it is what is left. -/
theorem History.run_trimmed_as_recorded_too_heavy :
    ∃ full once h, run (Call.recording Forked.written) = .ok full ∧ full.weight = 10 ∧
      Forked.marked.map Prod.fst = Forked.written ∧
      Call.LeadTo (Call.recording Forked.written ++ [.trim ⟨2, 2⟩]) once ∧
      once.ids = [⟨6⟩] ∧ once.timestamp = 5 ∧
      Call.LeadTo (Call.recordingTrimmed ⟨2, 2⟩ Forked.marked ++ [.trim ⟨2, 2⟩]) h ∧
      h.Same once := by
  obtain ⟨full, hfull⟩ : ∃ full, run (Call.recording Forked.written) = .ok full := ⟨_, rfl⟩
  obtain ⟨once, honce, _, hsteps⟩ := run_trimmed_as_recorded ⟨2, 2⟩ hfull
  obtain ⟨h, hrun, hsame⟩ := hsteps Forked.marked rfl
  refine ⟨full, once, h, hfull, ?_, rfl, honce, ?_, ?_, hrun, hsame⟩
  · cases hfull
    rfl
  · cases honce.1
    rfl
  · cases honce.1
    rfl

end Coedit
