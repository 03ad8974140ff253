import Coedit.Document
import Coedit.Proofs.History.Window
import Coedit.Proofs.Operation.Composition

/-!
# What a document went through

A document only keeps its present text and the end of its history. To say that a value made for an
old text is still right, one has to speak of the texts in between. A *chronicle* lists them: one
stage for each edit ever made, with the text right after it.

> `Document.Run past d`: starting from nothing, successful edits under any retention policies have
> led to the document `d`, and `past` is what happened on the way.

Three facts tie a run to its chronicle, and everything later is derived from them: the operations
lead from each text to the next (`Run.follows`), the last text is the document's (`Run.text_eq`),
and the document's history is a window onto the edits (`Run.isWindow`). Setting a text and applying
a captured operation make no other documents than edits do (`Run.withText`, `Run.applyCaptured`).

Texts are read off by timestamp, `past.textAt t`. From there the operations that were recorded
later, applied one after the other, lead to the last text (`Follows.applyAll_drop`).
-/

namespace Coedit

/-- An edit and the text right after it. -/
structure Stage extends Entry where
  text : Text

/-- All edits of a document from the start, with the texts they led to. -/
abbrev Chronicle := List Stage

namespace Chronicle

/-- The text at the end of a chronicle that starts from a text. -/
def endText (start : Text) (past : Chronicle) : Text := past.foldl (fun _ stage => stage.text) start

/-- The text when the timestamp was `t`. -/
def textAt (past : Chronicle) (t : Nat) : Text := endText [] (past.take t)

/-- The edits of a chronicle. -/
def entries (past : Chronicle) : List Entry := past.map Stage.toEntry

/-- Each operation leads from the text before it to the text of its stage. -/
def Follows : (start : Text) → Chronicle → Prop
  | _, [] => True
  | start, stage :: rest => stage.operation.apply start = .ok stage.text ∧ Follows stage.text rest

/-- Where the same id occurs in two chronicles, it led to the same text in both. -/
def Agree (past past' : Chronicle) : Prop :=
  ∀ stage ∈ past, ∀ stage' ∈ past', stage.id = stage'.id → stage.text = stage'.text

/-- Whatever is left off at the end, the rest agrees. -/
theorem Agree.take {past past' : Chronicle} (h : past.Agree past') (t t' : Nat) :
    Agree (past.take t) (past'.take t') := by
  intro stage hs stage' hs'
  exact h stage (List.mem_of_mem_take hs) stage' (List.mem_of_mem_take hs')

theorem endText_append (start : Text) (past later : Chronicle) :
    endText start (past ++ later) = endText (endText start past) later := List.foldl_append

theorem follows_append {start : Text} {past later : Chronicle} :
    Follows start (past ++ later) ↔ Follows start past ∧ Follows (endText start past) later := by
  induction past generalizing start with
  | nil => exact ⟨fun h => ⟨trivial, h⟩, fun h => h.2⟩
  | cons stage past ih =>
    show _ ∧ Follows stage.text (past ++ later) ↔ (_ ∧ Follows stage.text past) ∧ _
    rw [ih, and_assoc]
    rfl

theorem Follows.take {past : Chronicle} (h : Follows [] past) (t : Nat) :
    Follows [] (past.take t) := by
  rw [← List.take_append_drop t past] at h
  exact (follows_append.mp h).1

/-- The operations of a chronicle, applied one after the other, lead to its last text. -/
theorem Follows.applyAll {start : Text} {past : Chronicle} (h : Follows start past) :
    Operation.applyAll (past.map fun stage => stage.operation) start =
      .ok (endText start past) := by
  induction past generalizing start with
  | nil => rfl
  | cons stage past ih =>
    rw [List.map_cons, Operation.applyAll_cons]
    exact bind_eq_ok.mpr ⟨stage.text, h.1, ih h.2⟩

/-- From the text at a timestamp, the operations recorded since lead to the last text. -/
theorem Follows.applyAll_drop {past : Chronicle} (h : Follows [] past) (t : Nat) :
    Operation.applyAll ((past.entries.drop t).map Entry.operation) (past.textAt t) =
      .ok (endText [] past) := by
  rw [← List.take_append_drop t past] at h
  have hdrop := (follows_append.mp h).2.applyAll
  rw [← endText_append, List.take_append_drop] at hdrop
  rw [entries, ← List.map_drop, List.map_map]
  exact hdrop

/-- Empty operations leave the text alone, however many there are. -/
theorem Follows.endText_eq {start : Text} {past : Chronicle} (h : Follows start past)
    (hempty : ∀ stage ∈ past, stage.operation.isEmpty) : endText start past = start := by
  induction past generalizing start with
  | nil => rfl
  | cons stage past ih =>
    have hstage := hempty stage (List.mem_cons_self ..)
    have htext := h.1
    rw [Operation.apply_of_isEmpty hstage] at htext
    injection htext with htext
    show endText stage.text past = start
    rw [ih h.2 (fun later hlater => hempty later (List.mem_cons_of_mem _ hlater)), htext]

/-- An operation that is not empty fixes the length of the text, until the next one does. -/
theorem Follows.lenAfter_eq {past : Chronicle} (h : Follows [] past) {front back : List Operation}
    {op : Operation} (hsplit : past.entries.map Entry.operation = front ++ op :: back)
    (hop : ¬ op.isEmpty) (hback : ∀ later ∈ back, later.isEmpty) :
    op.lenAfter = (endText [] past).length := by
  rw [entries, List.map_map] at hsplit
  obtain ⟨front', rest, rfl, _, hrest⟩ := List.map_eq_append_iff.mp hsplit
  obtain ⟨stage, back', rfl, rfl, rfl⟩ := List.map_eq_cons_iff.mp hrest
  obtain ⟨happly, hlater⟩ := (follows_append.mp h).2
  have hend : endText [] (front' ++ stage :: back') = stage.text := by
    rw [endText_append]
    exact hlater.endText_eq (fun later hmem => hback _ (List.mem_map_of_mem hmem))
  rw [hend, ← Operation.length_after_of_apply hop happly]

end Chronicle

/-- The timestamp of a history counts the edits, so the text then is the last one. -/
theorem History.IsWindow.textAt_timestamp {h : History} {past : Chronicle}
    (w : h.IsWindow past.entries) : past.textAt h.timestamp = Chronicle.endText [] past := by
  rw [← w.length_all, Chronicle.entries, List.length_map, Chronicle.textAt, List.take_length]

/-! ## Runs of a document -/

namespace Document

/-- Successful edits under any retention policies have led from nothing to the document, and the
chronicle is what happened on the way. -/
inductive Run : Chronicle → Document → Prop
  | start : Run [] empty
  | edit {past : Chronicle} {d d' : Document} {id : EditId} {op : Operation} :
    Run past d → d.edit id op = .ok d' → Run (past ++ [⟨⟨id, op⟩, d'.text⟩]) d'
  | withRetention {past : Chronicle} {d : Document} (policy : Retention) :
    Run past d → Run past (d.withRetention policy)

/-- An edit applies its operation, records it and trims, in that order. -/
theorem edit_eq_ok {d d' : Document} {id : EditId} {op : Operation} :
    d.edit id op = .ok d' ↔
      ∃ text history, op.apply d.text = .ok text ∧ d.history.record id op = .ok history ∧
        d' = ⟨text, history.trim d.retention, d.retention⟩ := by
  unfold Document.edit
  rw [bind_eq_ok]
  constructor
  · intro h
    obtain ⟨text, hap, h⟩ := h
    obtain ⟨history, hrec, h⟩ := bind_eq_ok.mp h
    injection h with h
    exact ⟨text, history, hap, hrec, h.symm⟩
  · intro h
    obtain ⟨text, history, hap, hrec, rfl⟩ := h
    exact ⟨text, hap, bind_eq_ok.mpr ⟨history, hrec, rfl⟩⟩

namespace Run

variable {past : Chronicle} {d : Document}

theorem text_eq (h : Run past d) : d.text = Chronicle.endText [] past := by
  induction h with
  | start => rfl
  | edit _ _ _ =>
    rw [Chronicle.endText_append]
    rfl
  | withRetention policy _ ih => exact ih

theorem follows (h : Run past d) : Chronicle.Follows [] past := by
  induction h with
  | start => trivial
  | @edit past d d' id op hrun hedit ih =>
    obtain ⟨text, history, hap, _, rfl⟩ := edit_eq_ok.mp hedit
    rw [hrun.text_eq] at hap
    exact Chronicle.follows_append.mpr ⟨ih, hap, trivial⟩
  | withRetention policy _ ih => exact ih

theorem isWindow (h : Run past d) : d.history.IsWindow past.entries := by
  induction h with
  | start => exact History.isWindow_empty
  | @edit past d d' id op hrun hedit ih =>
    obtain ⟨text, history, _, hrec, rfl⟩ := edit_eq_ok.mp hedit
    rw [Chronicle.entries, List.map_append]
    exact (ih.record hrec).trim d.retention
  | withRetention policy _ ih => exact ih.trim policy

theorem textAt_timestamp (h : Run past d) : past.textAt d.history.timestamp = d.text := by
  rw [h.isWindow.textAt_timestamp, h.text_eq]

/-- The newest retained change, if there is one, ended at the length that the text has now: what
trimming evicts is older, and what came later is empty. -/
theorem lenAfter_lastChange (h : Run past d) {last : Operation}
    (hlast : d.history.lastChange? = some last) : last.lenAfter = d.text.length := by
  obtain ⟨front, back, hsplit, hop, hback⟩ := History.operations_of_lastChange? hlast
  obtain ⟨evicted, hev⟩ := h.isWindow.operations_suffix
  rw [hsplit, ← List.append_assoc] at hev
  rw [h.text_eq]
  exact h.follows.lenAfter_eq hev.symm hop hback

/-- The history has nothing against an operation that applies to the text: the check against the
newest retained change asks no more than application does. -/
theorem record_eq_push (h : Run past d) (id : EditId) {op : Operation} {text : Text}
    (hop : op.apply d.text = .ok text) :
    d.history.record id op = d.history.push ⟨id, op⟩ := by
  unfold History.record
  by_cases hempty : op.isEmpty
  · rw [if_pos hempty]
  · rw [if_neg hempty]
    split
    · rfl
    · next last hlast =>
      rw [if_pos]
      rw [h.lenAfter_lastChange hlast, Operation.length_before_of_apply hempty hop]

/-- An operation that applies to the text can be recorded, if the history does not become too heavy
to weigh. -/
theorem exists_edit (h : Run past d) (id : EditId) {op : Operation} {text : Text}
    (hop : op.apply d.text = .ok text) (hfit : d.history.weight + op.size < Word.bound) :
    ∃ d', d.edit id op = .ok d' ∧ d'.text = text ∧ d'.retention = d.retention ∧
      d'.history.timestamp = d.history.timestamp + 1 := by
  obtain ⟨history, hpush, htime⟩ : ∃ history, d.history.push ⟨id, op⟩ = .ok history ∧
      history.timestamp = d.history.timestamp + 1 := by
    unfold History.push
    rw [Word.add_eq_ok hfit]
    exact ⟨_, rfl, rfl⟩
  have hrec := h.record_eq_push id hop
  refine ⟨_, edit_eq_ok.mpr ⟨text, _, hop, hrec.trans hpush, rfl⟩, rfl, rfl, ?_⟩
  exact (History.timestamp_trim d.retention).trans htime

/-- A new text is one more edit, or none if the text stays. -/
theorem withText (h : Run past d) {id : EditId} {text : Text} {d' : Document}
    (hd : d.withText id text = .ok d') : ∃ later, Run (past ++ later) d' := by
  unfold Document.withText at hd
  obtain ⟨op, _, hstep⟩ := bind_eq_ok.mp hd
  have hstep : (if op.normalize.isEmpty then .ok d else d.edit id op.normalize) = Except.ok d' :=
    hstep
  split at hstep
  · cases hstep
    exact ⟨[], by rw [List.append_nil]; exact h⟩
  · exact ⟨_, h.edit hstep⟩

/-- A rebased operation is one more edit. -/
theorem applyCaptured (h : Run past d) {id : EditId} {c : Captured Operation} {d' : Document}
    (hd : d.applyCaptured id c = .ok (some d')) : ∃ stage, Run (past ++ [stage]) d' := by
  unfold Document.applyCaptured at hd
  obtain ⟨rebased, _, hd⟩ := bind_eq_ok.mp hd
  cases rebased with
  | none => cases hd
  | some op =>
    obtain ⟨next, hedit, hnext⟩ := bind_eq_ok.mp hd
    cases hnext
    exact ⟨_, h.edit hedit⟩

end Run

end Document

end Coedit
