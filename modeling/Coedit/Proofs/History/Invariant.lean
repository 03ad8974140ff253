import Coedit.Proofs.History.Bridge
import Coedit.Proofs.History.Reached

/-!
# What every history keeps

A history counts all that was recorded and weighs what it retains, and both are worked out by adding
and taking off, call by call. This file says what holds of a history after any calls whatsoever:

> `run_sound`: a history that calls have led to, and none of them has ended in a fault, is `Sound`.

To be sound is to have as many ids as operations, no more of them than the timestamp says, the
weight of just these, and operations of which each fits onto the one before it, where empty ones do
not count. Two things follow, and they are part of it. No call takes off more than there is or goes
beyond the end of a vector: with every subtraction and every slice checked, it does the same
(`Reached.performChecked_eq`). And whatever range of timestamps is retained, its operations have a
composition, with the outer lengths of the range.

The calls may come in any order, and a refused one leaves the history as it is. What one call keeps
is the business of `Reached`; here is the run of them (`reached_of_run`).
-/

namespace Coedit

namespace History

/-! ## Runs of calls -/

/-- A call that makes a new history. -/
inductive Call where
  | record (id : EditId) (op : Operation)
  | trim (policy : Retention)
  | rewind (timestamp : Nat)
  | rewindTo (id : Option EditId)
  deriving DecidableEq, Repr

/-- The new history, or the old one if that was refused. -/
def unlessRefused (h : History) : Except (Failure LookupError) History → Except Fault History
  | .ok g => .ok g
  | .error (.refused _) => .ok h
  | .error (.fault fault) => .error fault

/-- The history after a call. -/
def Call.perform : Call → History → Except Fault History
  | record id op, h => h.record id op
  | trim policy, h => .ok (h.trim policy)
  | rewind t, h => h.unlessRefused (h.rewind t)
  | rewindTo id, h => h.unlessRefused (Failure.ofRefusal (h.rewindTo id))

/-- The history after calls, one after the other from the start. -/
def run (calls : List Call) : Except Fault History :=
  calls.foldlM (fun h call => call.perform h) empty

variable {all : List Entry} {h : History}

theorem unlessRefused_eq_ok {result : Except (Failure LookupError) History} {h' : History}
    (hok : h.unlessRefused result = .ok h') : result = .ok h' ∨ h' = h := by
  match result, hok with
  | .ok g, hok =>
    cases hok
    exact Or.inl rfl
  | .error (.refused _), hok =>
    cases hok
    exact Or.inr rfl

/-- A call leads from a history reached to a history reached. -/
theorem Reached.perform (hr : Reached all h) {call : Call} {h' : History}
    (hcall : call.perform h = .ok h') : ∃ all', Reached all' h' := by
  cases call with
  | record id op => exact ⟨_, hr.record hcall⟩
  | trim policy =>
    cases hcall
    exact ⟨_, hr.trim policy⟩
  | rewind t =>
    rcases unlessRefused_eq_ok hcall with hrew | rfl
    · exact ⟨_, hr.rewind hrew⟩
    · exact ⟨_, hr⟩
  | rewindTo id =>
    rcases unlessRefused_eq_ok hcall with hrew | rfl
    · cases id with
      | none =>
        cases hrew
        exact ⟨_, .start⟩
      | some id =>
        cases hpos : h.rewindTo (some id) with
        | error reason =>
          rw [hpos] at hrew
          cases hrew
        | ok g =>
          rw [hpos] at hrew
          cases hrew
          exact ⟨_, hr.rewindTo hpos⟩
    · exact ⟨_, hr⟩

/-- Calls from a history reached lead to a history reached. -/
theorem Reached.foldlM_perform {calls : List Call} (hr : Reached all h) {h' : History}
    (hrun : calls.foldlM (fun h call => call.perform h) h = .ok h') : ∃ all', Reached all' h' := by
  induction calls generalizing all h with
  | nil =>
    cases hrun
    exact ⟨_, hr⟩
  | cons call calls ih =>
    rw [List.foldlM_cons] at hrun
    obtain ⟨next, hcall, hrest⟩ := bind_eq_ok.mp hrun
    obtain ⟨all', hnext⟩ := hr.perform hcall
    exact ih hnext hrest

theorem reached_of_run {calls : List Call} (hrun : run calls = .ok h) : ∃ all, Reached all h :=
  Reached.start.foldlM_perform hrun

/-! ## Checked arithmetic -/

/-- `oldestTimestamp` with a checked subtraction. -/
def oldestTimestampChecked (h : History) : Except Fault Nat := Word.sub h.timestamp h.length

/-- `placeAt` with a checked subtraction. -/
def placeAtChecked (h : History) (t : Nat) : Except Fault Int := do
  let back ← Word.sub h.timestamp t
  .ok ((h.length : Int) - (back : Int))

/-- `withinBounds` with checked subtractions. -/
def withinBoundsChecked (h : History) (policy : Retention) :
    (count weight : Nat) → Except Fault (Nat × Nat)
  | 0, weight => .ok (0, weight)
  | count + 1, weight =>
    if count + 1 ≤ policy.maxEntries ∧ weight ≤ policy.maxWeight then .ok (count + 1, weight)
    else do
      let oldest ← Word.sub h.length (count + 1)
      let rest ← Word.sub weight (h.weightAt oldest)
      h.withinBoundsChecked policy count rest

/-- `trim` with checked subtractions and slices. -/
def trimChecked (h : History) (policy : Retention) : Except Fault History := do
  let (count, weight) ← h.withinBoundsChecked policy h.length h.weight
  let evicted ← Word.sub h.length count
  if count = h.length then .ok h
  else do
    let operations ← h.operationColumn.slice evicted h.length
    let ids ← h.idColumn.slice evicted h.length
    .ok { h with operationColumn := operations, idColumn := ids, weight := weight }

/-- `cutBack` with checked subtractions and slices. -/
def cutBackChecked (h : History) (count : Nat) : Except Fault History :=
  if count = h.length then .ok h
  else do
    let operations ← h.operationColumn.slice 0 count
    let ids ← h.idColumn.slice 0 count
    let dropped ← Word.sub h.length count
    let timestamp ← Word.sub h.timestamp dropped
    let weight ← Word.sub h.weight (total Operation.size (h.operationColumn.drop count).toList)
    .ok ⟨operations, ids, timestamp, weight⟩

/-- `rewind` with checked subtractions and slices. -/
def rewindChecked (h : History) (t : Nat) : Except (Failure LookupError) History :=
  if h.timestamp < t then .error (.fault (.aheadOfHistory t h.timestamp))
  else do
    let place ← Failure.ofFault (h.placeAtChecked t)
    match place with
    | .negSucc _ => .error (.refused (.trimmed t))
    | .ofNat count => Failure.ofFault (h.cutBackChecked count)

/-- `rewindTo` with checked subtractions and slices. -/
def rewindToChecked (h : History) : Option EditId → Except (Failure LookupError) History
  | none => .ok empty
  | some id => do
    let i ← Failure.ofRefusal (h.position id)
    Failure.ofFault (h.cutBackChecked (i + 1))

/-- `Call.perform` with checked subtractions and slices. -/
def Call.performChecked : Call → History → Except Fault History
  | record id op, h => h.record id op
  | trim policy, h => h.trimChecked policy
  | rewind t, h => h.unlessRefused (h.rewindChecked t)
  | rewindTo id, h => h.unlessRefused (h.rewindToChecked id)

theorem Paired.length_idColumn (hp : h.Paired) : h.idColumn.length = h.length := by
  rw [← TrieVec.length_toList]
  exact hp.length_ids

/-- A slice up to the number of operations is within both vectors. -/
theorem Paired.slice_drop (hp : h.Paired) {n : Nat} (hn : n ≤ h.length) :
    h.operationColumn.slice n h.length = .ok (h.operationColumn.drop n) ∧
      h.idColumn.slice n h.length = .ok (h.idColumn.drop n) := by
  refine ⟨TrieVec.slice_eq_drop _ hn, ?_⟩
  rw [← hp.length_idColumn] at hn ⊢
  exact TrieVec.slice_eq_drop _ hn

theorem Paired.slice_take (hp : h.Paired) {n : Nat} (hn : n ≤ h.length) :
    h.operationColumn.slice 0 n = .ok (h.operationColumn.take n) ∧
      h.idColumn.slice 0 n = .ok (h.idColumn.take n) :=
  ⟨TrieVec.slice_eq_take _ hn, TrieVec.slice_eq_take _ (hp.length_idColumn.symm ▸ hn)⟩

theorem Paired.withinBoundsChecked_eq (hp : h.Paired) (policy : Retention) {count weight : Nat}
    (hcount : count ≤ h.length)
    (hweight : weight = weightOf (h.entries.drop (h.length - count))) :
    h.withinBoundsChecked policy count weight = .ok (h.withinBounds policy count weight) := by
  induction count generalizing weight with
  | zero => rfl
  | succ count ih =>
    unfold withinBoundsChecked withinBounds
    split
    · rfl
    · -- the entry that goes has been weighed
      have hsum := hp.weightOf_newest_succ hcount
      rw [Word.sub_eq_ok hcount, ok_bind, Word.sub_eq_ok (by omega), ok_bind]
      exact ih (by omega) (by omega)

theorem Consistent.trimChecked_eq (hc : h.Consistent) (policy : Retention) :
    h.trimChecked policy = .ok (h.trim policy) := by
  have hloop := hc.paired.withinBoundsChecked_eq policy (Nat.le_refl h.length) hc.weight_eq_newest
  have hle := (hc.withinBounds policy).1
  unfold History.trimChecked History.trim
  cases hkept : h.withinBounds policy h.length h.weight with
  | mk count weight =>
    rw [hkept] at hloop hle
    obtain ⟨hops, hids⟩ := hc.paired.slice_drop (Nat.sub_le h.length count)
    simp only [hloop, ok_bind, Word.sub_eq_ok hle, hops, hids]
    split
    · rfl
    · rfl

theorem Consistent.cutBackChecked_eq (hc : h.Consistent) (hle : h.length ≤ h.timestamp)
    {count : Nat} (hcount : count ≤ h.length) :
    h.cutBackChecked count = .ok (h.cutBack count) := by
  have hsum := hc.weightOf_take_add count
  obtain ⟨hops, hids⟩ := hc.paired.slice_take hcount
  unfold History.cutBackChecked History.cutBack
  split
  · rfl
  · rw [hops, ok_bind, hids, ok_bind, Word.sub_eq_ok hcount, ok_bind, Word.sub_eq_ok (by omega),
      ok_bind, Word.sub_eq_ok (by omega), ok_bind]

theorem Consistent.rewindChecked_eq (hc : h.Consistent) (hle : h.length ≤ h.timestamp) (t : Nat) :
    h.rewindChecked t = h.rewind t := by
  unfold History.rewindChecked History.rewind
  split
  · rfl
  · next hahead =>
    have hplace : h.placeAtChecked t = .ok (h.placeAt t) := by
      rw [placeAtChecked, Word.sub_eq_ok (Nat.le_of_not_lt hahead)]
      rfl
    rw [hplace]
    cases hsigned : h.placeAt t with
    | negSucc k => rfl
    | ofNat count =>
      have hcount : count ≤ h.length := by
        rw [placeAt, Int.ofNat_eq_natCast] at hsigned
        omega
      show Failure.ofFault (h.cutBackChecked count) = _
      rw [hc.cutBackChecked_eq hle hcount]
      rfl

theorem Consistent.rewindToChecked_eq (hc : h.Consistent) (hle : h.length ≤ h.timestamp)
    (id : Option EditId) : h.rewindToChecked id = Failure.ofRefusal (h.rewindTo id) := by
  cases id with
  | none => rfl
  | some id =>
    show (Failure.ofRefusal (h.position id) >>= fun i =>
      Failure.ofFault (h.cutBackChecked (i + 1))) = _
    rw [rewindTo_some]
    rcases h.position_cases id with ⟨_, hpos⟩ | ⟨i, hpos, hget, _⟩
    · rw [hpos]
      rfl
    · -- the place of an id is one of an operation
      have hi := (List.getElem?_eq_some_iff.mp hget).1
      rw [hc.paired.length_ids] at hi
      rw [hpos]
      show Failure.ofFault (h.cutBackChecked (i + 1)) = _
      rw [hc.cutBackChecked_eq hle hi]
      rfl

/-- No call takes off more than there is, or slices beyond the end of a vector. -/
theorem Reached.performChecked_eq (hr : Reached all h) (call : Call) :
    call.performChecked h = call.perform h := by
  cases call with
  | record id op => rfl
  | trim policy => exact hr.consistent.trimChecked_eq policy
  | rewind t =>
    exact congrArg h.unlessRefused (hr.consistent.rewindChecked_eq hr.isWindow.length_le t)
  | rewindTo id =>
    exact congrArg h.unlessRefused (hr.consistent.rewindToChecked_eq hr.isWindow.length_le id)

/-! ## What holds after any calls -/

/-- In linked operations, two that are not empty and have only empty ones between them fit. -/
theorem lenAfter_eq_of_linked {front between back : List Operation} {a b : Operation}
    (hlinked : Operation.Linked (front ++ a :: (between ++ b :: back))) (ha : ¬ a.isEmpty)
    (hb : ¬ b.isEmpty) (hbetween : ∀ op ∈ between, op.isEmpty) : a.lenAfter = b.lenBefore := by
  have hnone : Operation.changes between = [] :=
    List.filter_eq_nil_iff.mpr (fun op hop => by simpa using hbetween op hop)
  have hpart := hlinked.infix (List.IsSuffix.isInfix (List.suffix_append front _))
  unfold Operation.Linked at hpart
  rw [Operation.changes_cons ha, Operation.changes_append, hnone, List.nil_append,
    Operation.changes_cons hb] at hpart
  exact (List.isChain_cons_cons.mp hpart).1

/-- The operations between two timestamps have a composition. It is the empty operation if they all
are, and otherwise it has the outer lengths. -/
def Composes (h : History) (start stop : Nat) : Prop :=
  ∃ ops c, h.between start stop = .ok ops ∧ Operation.composeAll ops = .ok c ∧
    ((Operation.changes ops = [] ∧ c = Operation.empty) ∨
      ∃ first last, (Operation.changes ops).head? = some first ∧
        (Operation.changes ops).getLast? = some last ∧
        c.lenBefore = first.lenBefore ∧ c.lenAfter = last.lenAfter)

/-- What holds of a history whatever calls have led to it. -/
structure Sound (h : History) : Prop where
  /-- Every retained operation has its id. -/
  length_ids : h.ids.length = h.operations.length
  /-- No more is retained than was recorded. -/
  length_le : h.operations.length ≤ h.timestamp
  /-- The weight is that of the retained operations. -/
  weight_eq : h.weight = total Operation.size h.operations
  /-- Of two retained operations with only empty ones between them, the second starts from the
  length that the first ends with. -/
  fits : ∀ {front a between b back}, h.operations = front ++ a :: (between ++ b :: back) →
    ¬ a.isEmpty → ¬ b.isEmpty → (∀ op ∈ between, op.isEmpty) → a.lenAfter = b.lenBefore
  /-- The oldest retained timestamp is the exact difference. -/
  oldestTimestamp_exact : h.oldestTimestampChecked = .ok h.oldestTimestamp
  /-- All subtractions of all calls are exact, and all slices are within the vectors. -/
  calls_exact : ∀ call : Call, call.performChecked h = call.perform h
  /-- The operations of a retained range have a composition. -/
  composes : ∀ {start stop}, h.oldestTimestamp ≤ start → start ≤ stop → stop ≤ h.timestamp →
    h.Composes start stop

theorem Reached.composes (hr : Reached all h) {start stop : Nat}
    (hfirst : h.oldestTimestamp ≤ start) (hstart : start ≤ stop) (hstop : stop ≤ h.timestamp) :
    h.Composes start stop := by
  have hbetween := hr.isWindow.between hstart hstop
  rw [if_neg (by omega)] at hbetween
  -- the range lies within what is retained
  have hrange : (all.take stop).drop start <:+: h.entries := by
    rw [hr.isWindow.entries_eq, List.drop_take,
      show start = h.oldestTimestamp + (start - h.oldestTimestamp) by omega, ← List.drop_drop]
    exact (List.take_prefix ..).isInfix.trans (List.drop_suffix ..).isInfix
  have hlinked : Operation.Linked (((all.take stop).drop start).map Entry.operation) := by
    refine hr.linked.infix ?_
    rw [← hr.isWindow.paired.map_operation]
    exact hrange.map _
  obtain ⟨c, hc, hnone, hbefore, hafter⟩ := Operation.composeAll_linked hlinked
  refine ⟨_, c, hbetween, hc, ?_⟩
  cases hchanges : Operation.changes (((all.take stop).drop start).map Entry.operation) with
  | nil => exact Or.inl ⟨rfl, hnone hchanges⟩
  | cons first rest =>
    rw [hchanges] at hbefore hafter
    have hlast : (first :: rest).getLast? = some (rest.getLast?.getD first) := List.getLast?_cons
    exact Or.inr ⟨first, _, rfl, hlast, hbefore first rfl, hafter _ hlast⟩

/-- **What every history keeps.** Whatever calls have led to a history, it is sound. -/
theorem run_sound {calls : List Call} (hrun : run calls = .ok h) : h.Sound := by
  obtain ⟨all, hr⟩ := reached_of_run hrun
  have hc := hr.consistent
  exact {
    length_ids := hc.paired
    length_le := by rw [h.length_operations]; exact hr.isWindow.length_le
    weight_eq := by rw [hc.weight_eq, weightOf_eq_total, hc.paired.map_operation]
    fits := fun hsplit => lenAfter_eq_of_linked (hsplit ▸ hr.linked)
    oldestTimestamp_exact := Word.sub_eq_ok hr.isWindow.length_le
    calls_exact := hr.performChecked_eq
    composes := hr.composes }

end History

/-- Three edits, of which the oldest is evicted, a rewinding that comes too late for it, and a
fourth edit that is taken back. -/
def Forked.calls : List History.Call :=
  [.record ⟨1⟩ typed.operation, .record ⟨2⟩ idle.operation, .record ⟨4⟩ theirs.operation,
    .trim ⟨2, 100⟩, .rewind 0, .record ⟨5⟩ later.operation, .rewindTo (some ⟨4⟩)]

/-- What is left of it is an empty operation and one that starts from two characters. -/
theorem History.run_sound_taken_back :
    ∃ h, run Forked.calls = .ok h ∧ h.Sound ∧ h.timestamp = 3 ∧ h.ids = [⟨2⟩, ⟨4⟩] ∧
      h.operations = [Operation.empty, Forked.theirs.operation] ∧ h.weight = 3 := by
  obtain ⟨h, hrun⟩ : ∃ h, run Forked.calls = .ok h := ⟨_, rfl⟩
  refine ⟨h, hrun, run_sound hrun, ?_⟩
  cases hrun
  exact ⟨rfl, rfl, rfl, rfl⟩

end Coedit
