import Coedit.Proofs.History.Bridge
import Coedit.Proofs.History.Reached

/-!
# A document and its history never disagree

An edit is checked twice. The text has to be one that the operation applies to, and the history has
to end where the operation starts. The history sees only what trimming has left of it, so the second
check might object to what the first one has passed, or miss what the first one objects to. It never
does, for any document that the calls on documents can make:

> `Made.edit_iff_apply`: an edit succeeds if and only if its operation applies to the text. The text
> is then what the operation makes of it, the timestamp is one higher, and the newest retained
> change ends with the length of the text.

The invariant behind it is that of the last sentence (`Run.lenAfter_lastChange`). Evicting takes the
oldest entries, so the newest change that is retained is the newest of all, and since then there
have only been empty operations. If no change is retained, the history asks for nothing.
-/

namespace Coedit

/-- Pushing an entry fails only by its weight. -/
theorem History.fault_of_push {h : History} {entry : Entry} {fault : Fault}
    (hpush : h.push entry = .error fault) : fault = .overflow .add := by
  unfold History.push Word.add at hpush
  split at hpush
  · cases hpush
  · cases hpush
    rfl

namespace Document

/-- A document that calls have made. -/
inductive Made : Document → Prop
  | empty : Made empty
  | ofText {d : Document} {id : EditId} {text : Text} : ofText id text = .ok d → Made d
  | withRetention {d : Document} (policy : Retention) : Made d → Made (d.withRetention policy)
  | edit {d d' : Document} {id : EditId} {op : Operation} :
    Made d → d.edit id op = .ok d' → Made d'
  | withText {d d' : Document} {id : EditId} {text : Text} :
    Made d → d.withText id text = .ok d' → Made d'
  | applyCaptured {d d' : Document} {id : EditId} {c : Captured Operation} :
    Made d → d.applyCaptured id c = .ok (some d') → Made d'

variable {d : Document}

/-- However a document was made, edits and changes of policy make it too. -/
theorem Made.exists_run (hd : Made d) : ∃ past, Run past d := by
  induction hd with
  | empty => exact ⟨_, .start⟩
  | ofText hof =>
    obtain ⟨op, _, hedit⟩ := bind_eq_ok.mp hof
    exact ⟨_, .edit .start hedit⟩
  | withRetention policy _ ih =>
    obtain ⟨past, hrun⟩ := ih
    exact ⟨past, hrun.withRetention policy⟩
  | edit _ hedit ih =>
    obtain ⟨past, hrun⟩ := ih
    exact ⟨_, hrun.edit hedit⟩
  | withText _ hwith ih =>
    obtain ⟨past, hrun⟩ := ih
    obtain ⟨later, hnext⟩ := hrun.withText hwith
    exact ⟨_, hnext⟩
  | applyCaptured _ happly ih =>
    obtain ⟨past, hrun⟩ := ih
    obtain ⟨stage, hnext⟩ := hrun.applyCaptured happly
    exact ⟨_, hnext⟩

/-- What holds after an edit that succeeds. -/
theorem Run.edit_spec {past : Chronicle} (hrun : Run past d) {id : EditId} {op : Operation}
    {d' : Document} (hedit : d.edit id op = .ok d') :
    op.apply d.text = .ok d'.text ∧ d'.history.timestamp = d.history.timestamp + 1 ∧
      ∀ last ∈ (Operation.changes d'.history.operations).getLast?,
        last.lenAfter = d'.text.length := by
  have hnext := hrun.edit hedit
  refine ⟨?_, ?_, ?_⟩
  · obtain ⟨text, history, hap, _, rfl⟩ := edit_eq_ok.mp hedit
    exact hap
  · rw [← hnext.isWindow.length_all, ← hrun.isWindow.length_all, Chronicle.entries,
      Chronicle.entries, List.map_append, List.length_append]
    rfl
  · intro last hlast
    rw [← History.lastChange?_eq] at hlast
    exact hnext.lenAfter_lastChange hlast

/-- **A document and its history never disagree.** Take any document that calls have made, under any
policies, and any edit. As long as the weight of the history does not overflow, the edit succeeds if
and only if its operation applies to the text; weight or not, the history never objects to an
operation that does. After an edit that succeeds the text is what the operation makes of it, the
timestamp is one higher, and the newest retained change ends with the length of the text. -/
theorem Made.edit_iff_apply (hd : Made d) (id : EditId) (op : Operation) :
    (d.history.weight + op.size < Word.bound →
      ((∃ d', d.edit id op = .ok d') ↔ ∃ text, op.apply d.text = .ok text)) ∧
    (∀ text, op.apply d.text = .ok text → ∀ id' current expected,
      d.edit id op ≠ .error (.entryDoesNotFollow id' current expected)) ∧
    ∀ d', d.edit id op = .ok d' →
      op.apply d.text = .ok d'.text ∧ d'.history.timestamp = d.history.timestamp + 1 ∧
        ∀ last ∈ (Operation.changes d'.history.operations).getLast?,
          last.lenAfter = d'.text.length := by
  obtain ⟨past, hrun⟩ := hd.exists_run
  refine ⟨?_, ?_, fun d' hedit => hrun.edit_spec hedit⟩
  · intro hfit
    constructor
    · rintro ⟨d', hedit⟩
      exact ⟨d'.text, (hrun.edit_spec hedit).1⟩
    · rintro ⟨text, hop⟩
      obtain ⟨d', hedit, _⟩ := hrun.exists_edit id hop hfit
      exact ⟨d', hedit⟩
  · intro text hop id' current expected hedit
    unfold Document.edit at hedit
    rw [hop, hrun.record_eq_push id hop] at hedit
    cases hpush : d.history.push ⟨id, op⟩ with
    | ok history =>
      rw [hpush] at hedit
      cases hedit
    | error fault =>
      rw [hpush, History.fault_of_push hpush] at hedit
      cases hedit

end Document

/-- A document that has kept of its history only an edit that changed nothing. -/
def Forked.emptied : Document :=
  (document ['a', 'b'] [typed, idle] 2).withRetention ⟨1, 100⟩

/-- The history has forgotten how long the text is. It takes an operation that fits the text and not
one that is made for a longer one. -/
theorem Document.Made.edit_iff_apply_emptied :
    Forked.emptied.Made ∧ Forked.emptied.history.lastChange? = none ∧
      (∃ d', Forked.emptied.edit ⟨4⟩ Forked.theirs.operation = .ok d' ∧ d'.history.timestamp = 3) ∧
      ¬ ∃ d', Forked.emptied.edit ⟨5⟩ Forked.later.operation = .ok d' := by
  have hmade : Forked.emptied.Made :=
    .withRetention _ (.edit (.edit .empty Forked.edit_typed) Forked.edit_idle)
  have htheirs := edit_iff_apply hmade ⟨4⟩ Forked.theirs.operation
  have hlater := edit_iff_apply hmade ⟨5⟩ Forked.later.operation
  refine ⟨hmade, rfl, ?_, ?_⟩
  · obtain ⟨d', hedit⟩ := (htheirs.1 (by decide)).mpr ⟨['a', 'b', 'y'], rfl⟩
    exact ⟨d', hedit, (htheirs.2.2 d' hedit).2.1⟩
  · intro hedit
    obtain ⟨text, hop⟩ := (hlater.1 (by decide)).mp hedit
    cases hop

end Coedit
