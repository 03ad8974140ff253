import Coedit.Proofs.History.Fork
import Mathlib.Data.List.Nodup

/-!
# Copies that exchange edits

Two copies of a document go on separately, and each may take over edits of the other. An edit that
was made for another text has to be transformed first, past what the taker has done in the meantime,
and is then recorded under the id it has on the other side.

A bridge compares ids and takes equal ids for equal texts. After a transformation they are not: the
same id stands for the edit as it was made on one side, and on the other for that edit on top of
what the taker had done. So bridges between such copies can be wrong:

> `Exchange.bridge_astray`: after a single edit has been taken over, the bridge is empty although
> the texts differ; after a few more, bridging ends in a fault.

What is left of soundness hangs on the texts where the histories part:

> `Exchange.bridge_sound_of_textAt`: if they are equal, the bridge is right. If the histories part
> at the end of one of them, it is right only then. They are always equal if edits are only taken
> over at the very text they were made for.

The last part needs an invariant of the exchange, that equal ids stand for equal texts
(`Exchange.agree`). It is kept by a copy's own edits, whose ids are new to both sides, and by an
edit that is taken over as it is.
-/

namespace Coedit

namespace Chronicle

/-- The ids of a chronicle. -/
def ids (past : Chronicle) : List EditId := past.map fun stage => stage.id

theorem ids_append (past later : Chronicle) : ids (past ++ later) = past.ids ++ later.ids :=
  List.map_append

theorem Agree.symm {past past' : Chronicle} (h : past.Agree past') : past'.Agree past := by
  intro stage' hs' stage hs hid
  exact (h stage hs stage' hs' hid.symm).symm

/-- Each operation leads from the text at its timestamp to the text of its stage. -/
theorem Follows.apply_at {past : Chronicle} (h : Follows [] past) {t : Nat} {stage : Stage}
    (hstage : past[t]? = some stage) :
    stage.operation.apply (past.textAt t) = .ok stage.text := by
  obtain ⟨hlt, hget⟩ := List.getElem?_eq_some_iff.mp hstage
  rw [← List.take_append_drop t past, List.drop_eq_getElem_cons hlt, hget] at h
  exact (follows_append.mp h).2.1

theorem nodup_ids_concat {past : Chronicle} (hnodup : past.ids.Nodup) {stage : Stage}
    (hnew : stage.id ∉ past.ids) : (ids (past ++ [stage])).Nodup := by
  rw [ids_append]
  exact hnodup.append (List.nodup_singleton _) (List.disjoint_singleton.mpr hnew)

/-- One more stage on one side agrees if it does with every stage of the other. -/
theorem agree_concat {past past' : Chronicle} (hagree : past.Agree past') {stage : Stage}
    (hstage : ∀ stage' ∈ past', stage.id = stage'.id → stage.text = stage'.text) :
    Agree (past ++ [stage]) past' := by
  intro stage₁ hs₁
  rcases List.mem_append.mp hs₁ with hs₁ | hs₁
  · exact hagree stage₁ hs₁
  · rw [List.mem_singleton.mp hs₁]
    exact hstage

end Chronicle

/-! ## Where one side has nothing of its own -/

namespace History

/-- Since now, nothing has changed. -/
theorem IsWindow.changeSince_timestamp {h : History} {all : List Entry} (w : h.IsWindow all) :
    h.changeSince h.timestamp = .ok .empty := by
  have hall : h.IsWindow (all ++ []) := by
    rw [List.append_nil]
    exact w
  rw [← w.length_all, hall.changeSince_eq (by rw [w.length_all]; exact Nat.sub_le ..)]
  rfl

/-- If the histories part at the end of one of them, a bridge that leads to the right text shows
that they part at equal texts: only one side has a change to contribute, and a change leads to a
text from one text only. -/
theorem textAt_eq_of_bridge {before after : History} {past past' : Chronicle}
    (w : before.IsWindow past.entries) (w' : after.IsWindow past'.entries)
    (hf : Chronicle.Follows [] past) (hf' : Chronicle.Follows [] past') {i j : Nat}
    (hpart : parting before after = .ok (i, j))
    (hend : i = before.timestamp ∨ j = after.timestamp) {op : Operation}
    (hbridge : before.bridge after = .ok op)
    (hop : op.apply (Chronicle.endText [] past) = .ok (Chronicle.endText [] past')) :
    past.textAt i = past'.textAt j := by
  obtain ⟨hi, hj, _⟩ := parting_eq_ok hpart
  rw [bridge_of_parting hpart] at hbridge
  rcases hend with rfl | rfl
  · rw [w.changeSince_timestamp] at hbridge
    rcases w'.changeSince hf' hj with ⟨reason, hmissing⟩ | ⟨missing, hmissing, hforth⟩
    · rw [hmissing] at hbridge
      cases hbridge
    · -- the bridge is the normal form of what the second side did
      rw [hmissing] at hbridge
      cases hbridge
      rw [w.textAt_timestamp]
      exact Operation.apply_inj hop (Operation.normalize_apply hforth)
  · rcases w.changeSince hf hi with ⟨reason, hdone⟩ | ⟨done, hdone, hback⟩
    · rw [hdone] at hbridge
      cases hbridge
    · -- the bridge is the normal form of what the first side did, undone
      rw [hdone, w'.changeSince_timestamp] at hbridge
      have hbridge : (Failure.ofFault (done.inverse.compose .empty) >>= fun op =>
        Except.ok op.normalize) = .ok op := hbridge
      rw [Operation.compose_empty_right] at hbridge
      cases hbridge
      rw [Operation.normalize_apply (Operation.apply_inverse hback)] at hop
      injection hop with hop
      rw [w'.textAt_timestamp, hop]

end History

/-! ## The exchange -/

namespace Document

/-- Two copies of a document after they have exchanged edits, each with what it went through. What
an edit may be transformed past when it is taken over is up to `allowed`. -/
inductive Exchange (allowed : Operation → Prop) :
    Chronicle → Chronicle → Document → Document → Prop
  /-- One document, copied. -/
  | fork {past : Chronicle} {d : Document} :
    Run past d → past.ids.Nodup → Exchange allowed past past d d
  /-- Either copy may be the next to act. -/
  | swap {past past' : Chronicle} {d d' : Document} :
    Exchange allowed past past' d d' → Exchange allowed past' past d' d
  | withRetention {past past' : Chronicle} {d d' : Document} (policy : Retention) :
    Exchange allowed past past' d d' → Exchange allowed past past' (d.withRetention policy) d'
  /-- An edit of a copy's own, with an id that neither has seen. -/
  | edit {past past' : Chronicle} {d d' d₁ : Document} {id : EditId} {op : Operation} :
    Exchange allowed past past' d d' → id ∉ past.ids → id ∉ past'.ids → d.edit id op = .ok d₁ →
    Exchange allowed (past ++ [⟨⟨id, op⟩, d₁.text⟩]) past' d₁ d'
  /-- An edit of the other copy that this one does not have yet, transformed past an operation that
  leads from the text it was made for to the text it is to be applied to. -/
  | takeOver {past past' : Chronicle} {d d' d₁ : Document} {t : Nat} {stage : Stage}
    {concurrent op : Operation} {side : Side} :
    Exchange allowed past past' d d' → past'[t]? = some stage → stage.id ∉ past.ids →
    concurrent.apply (past'.textAt t) = .ok d.text → allowed concurrent →
    stage.operation.transform concurrent side = .ok op → d.edit stage.id op = .ok d₁ →
    Exchange allowed (past ++ [⟨⟨stage.id, op⟩, d₁.text⟩]) past' d₁ d'

namespace Exchange

variable {allowed : Operation → Prop} {past past' : Chronicle} {d d' : Document}

theorem runs (h : Exchange allowed past past' d d') : Run past d ∧ Run past' d' := by
  induction h with
  | fork hrun _ => exact ⟨hrun, hrun⟩
  | swap _ ih => exact ⟨ih.2, ih.1⟩
  | withRetention policy _ ih => exact ⟨ih.1.withRetention policy, ih.2⟩
  | edit _ _ _ hedit ih => exact ⟨ih.1.edit hedit, ih.2⟩
  | takeOver _ _ _ _ _ _ hedit ih => exact ⟨ih.1.edit hedit, ih.2⟩

theorem nodup_ids (h : Exchange allowed past past' d d') : past.ids.Nodup ∧ past'.ids.Nodup := by
  induction h with
  | fork _ hnodup => exact ⟨hnodup, hnodup⟩
  | swap _ ih => exact ⟨ih.2, ih.1⟩
  | withRetention policy _ ih => exact ih
  | edit _ hnew _ _ ih => exact ⟨Chronicle.nodup_ids_concat ih.1 hnew, ih.2⟩
  | takeOver _ _ hnew _ _ _ _ ih => exact ⟨Chronicle.nodup_ids_concat ih.1 hnew, ih.2⟩

/-- If edits are only taken over at the text they were made for, equal ids stand for equal texts. -/
theorem agree (h : Exchange allowed past past' d d') (hstep : ∀ op, allowed op → op.isEmpty) :
    past.Agree past' := by
  induction h with
  | fork _ hnodup =>
    intro stage hs stage' hs' hid
    rw [List.inj_on_of_nodup_map hnodup hs hs' hid]
  | swap _ ih => exact ih.symm
  | withRetention policy _ ih => exact ih
  | edit _ _ hnew _ ih =>
    refine Chronicle.agree_concat ih ?_
    intro stage' hs' hid
    exact absurd (List.mem_map.mpr ⟨stage', hs', hid.symm⟩) hnew
  | @takeOver past past' d d' d₁ t stage concurrent op side hx hstage _ hfrom hallowed htransform
      hedit ih =>
    refine Chronicle.agree_concat ih ?_
    intro stage' hs' hid
    rw [← List.inj_on_of_nodup_map hx.nodup_ids.2 (List.mem_of_getElem? hstage) hs' hid]
    -- nothing to be transformed past: it is the same operation on the same text
    have hempty := hstep concurrent hallowed
    rw [Operation.transform, if_pos (Or.inr hempty)] at htransform
    cases htransform
    rw [Operation.apply_of_isEmpty hempty] at hfrom
    injection hfrom with hfrom
    have happly := hx.runs.2.follows.apply_at hstage
    obtain ⟨text, _, htext, _, rfl⟩ := edit_eq_ok.mp hedit
    rw [hfrom, htext] at happly
    injection happly

/-- **Bridging copies that exchange edits.** Take two copies of a document after any number of their
own edits and of edits taken over, in any order. If they had the same text where the histories part,
bridging does not end in a fault, and a bridge turns the text of the one into the text of the other.
If the histories part at the end of one of them, a bridge that does so shows that the texts there
were the same. And they always are if edits are only taken over at the text they were made for. -/
theorem bridge_sound_of_textAt (h : Exchange allowed past past' d d') :
    ((∀ i j, History.parting d.history d'.history = .ok (i, j) → past.textAt i = past'.textAt j) →
      (∀ fault, d.history.bridge d'.history ≠ .error (.fault fault)) ∧
        ∀ op, d.history.bridge d'.history = .ok op → op.apply d.text = .ok d'.text) ∧
    (∀ i j op, History.parting d.history d'.history = .ok (i, j) →
      (i = d.history.timestamp ∨ j = d'.history.timestamp) →
      d.history.bridge d'.history = .ok op → op.apply d.text = .ok d'.text →
        past.textAt i = past'.textAt j) ∧
    ((∀ op, allowed op → op.isEmpty) → ∀ i j,
      History.parting d.history d'.history = .ok (i, j) → past.textAt i = past'.textAt j) := by
  obtain ⟨hrun, hrun'⟩ := h.runs
  rw [hrun.text_eq, hrun'.text_eq]
  refine ⟨?_, ?_, ?_⟩
  · intro htext
    rcases History.bridge_cases_of_textAt hrun.isWindow hrun'.isWindow hrun.follows hrun'.follows
      htext with ⟨reason, hrefused⟩ | ⟨op, hbridge, hop⟩
    · rw [hrefused]
      refine ⟨?_, ?_⟩
      · intro fault hfault
        cases hfault
      · intro op hop
        cases hop
    · rw [hbridge]
      refine ⟨?_, ?_⟩
      · intro fault hfault
        cases hfault
      · intro op' hop'
        cases hop'
        exact hop
  · intro i j op hpart hend hbridge hop
    exact History.textAt_eq_of_bridge hrun.isWindow hrun'.isWindow hrun.follows hrun'.follows
      hpart hend hbridge hop
  · intro hstep i j hpart
    exact History.textAt_parting hrun.isWindow hrun'.isWindow (h.agree hstep) hpart

end Exchange

end Document

/-! ## A forked document whose copies exchange edits -/

namespace Forked

/-- The right copy's insertion, after the left copy's. -/
def theirsMoved : Entry := ⟨⟨4⟩, ⟨[.retain 3, .replace [] ['y']], by decide, by decide⟩⟩

/-- The left copy's insertion, after the right copy's. -/
def mineMoved : Entry := ⟨⟨3⟩, ⟨[.replace [] ['x'], .retain 3], by decide, by decide⟩⟩

/-- One more edit of the copy on the left. -/
def mineNext : Entry := ⟨⟨6⟩, ⟨[.retain 3, .replace [] ['p']], by decide, by decide⟩⟩

/-- One more edit of the copy on the right. -/
def theirsNext : Entry := ⟨⟨7⟩, ⟨[.retain 4, .replace [] ['q']], by decide, by decide⟩⟩

def past : Chronicle := [⟨typed, ['a', 'b']⟩]

def pastMine : Chronicle := past ++ [⟨mine, ['x', 'a', 'b']⟩]

def pastTheirs : Chronicle := past ++ [⟨theirs, ['a', 'b', 'y']⟩]

/-- A copy with one edit of its own. -/
def leftOwn : Document := document ['x', 'a', 'b'] [typed, mine] 5

/-- The other copy with one edit of its own. -/
def rightOwn : Document := document ['a', 'b', 'y'] [typed, theirs] 5

theorem exchange_past (allowed : Operation → Prop) : Document.Exchange allowed past past
    (document ['a', 'b'] [typed] 2) (document ['a', 'b'] [typed] 2) :=
  .fork (.edit .start edit_typed) (by decide)

theorem exchange_mine (allowed : Operation → Prop) : Document.Exchange allowed pastMine past
    leftOwn (document ['a', 'b'] [typed] 2) := by
  have hedit : (document ['a', 'b'] [typed] 2).edit ⟨3⟩ mine.operation = .ok leftOwn := rfl
  exact .edit (exchange_past allowed) (by decide) (by decide) hedit

theorem exchange_own : Document.Exchange (fun _ => True) pastTheirs pastMine rightOwn leftOwn := by
  have hedit : (document ['a', 'b'] [typed] 2).edit ⟨4⟩ theirs.operation = .ok rightOwn := rfl
  exact .edit (exchange_mine _).swap (by decide) (by decide) hedit

/-- The left copy, which has taken over the right copy's edit. -/
def leftJoined : Document := document ['x', 'a', 'b', 'y'] [typed, mine, theirsMoved] 9

theorem exchange_joined : Document.Exchange (fun _ => True)
    (pastMine ++ [⟨theirsMoved, ['x', 'a', 'b', 'y']⟩]) pastTheirs leftJoined rightOwn := by
  have hmoved : theirs.operation.transform mine.operation .left = .ok theirsMoved.operation := by
    cbv
  have hedit : leftOwn.edit ⟨4⟩ theirsMoved.operation = .ok leftJoined := rfl
  exact .takeOver (t := 1) exchange_own.swap rfl (by decide) rfl trivial hmoved hedit

/-- The left copy, which has gone on by itself. -/
def leftNext : Document := document ['x', 'a', 'b', 'p'] [typed, mine, mineNext] 9

/-- The right copy, which has taken over the left copy's first edit. -/
def rightJoined : Document := document ['x', 'a', 'b', 'y'] [typed, theirs, mineMoved] 9

/-- The same, gone on. -/
def rightNext : Document :=
  document ['x', 'a', 'b', 'y', 'q'] [typed, theirs, mineMoved, theirsNext] 14

def pastMineNext : Chronicle := pastMine ++ [⟨mineNext, ['x', 'a', 'b', 'p']⟩]

def pastTheirsNext : Chronicle :=
  pastTheirs ++ [⟨mineMoved, ['x', 'a', 'b', 'y']⟩] ++ [⟨theirsNext, ['x', 'a', 'b', 'y', 'q']⟩]

theorem exchange_next :
    Document.Exchange (fun _ => True) pastMineNext pastTheirsNext leftNext rightNext := by
  have hmoved : mine.operation.transform theirs.operation .left = .ok mineMoved.operation := by cbv
  have hjoin : rightOwn.edit ⟨3⟩ mineMoved.operation = .ok rightJoined := rfl
  have hright : rightJoined.edit ⟨7⟩ theirsNext.operation = .ok rightNext := rfl
  have hleft : leftOwn.edit ⟨6⟩ mineNext.operation = .ok leftNext := rfl
  have htaken := Document.Exchange.takeOver (t := 1) exchange_own rfl (by decide) rfl trivial hmoved
    hjoin
  exact .edit (.swap (.edit htaken (by decide) (by decide) hright)) (by decide) (by decide) hleft

/-- The right copy takes over the left copy's edit before it has one of its own, and the left copy
goes on. -/
theorem exchange_in_step :
    Document.Exchange (fun op => op.isEmpty) pastMineNext pastMine leftNext leftOwn := by
  have hedit : (document ['a', 'b'] [typed] 2).edit ⟨3⟩ mine.operation = .ok leftOwn := rfl
  have hnext : leftOwn.edit ⟨6⟩ mineNext.operation = .ok leftNext := rfl
  have hmoved : mine.operation.transform .empty .left = .ok mine.operation := rfl
  have htaken := Document.Exchange.takeOver (t := 1) (exchange_mine fun op => op.isEmpty).swap rfl
    (by decide) rfl rfl hmoved hedit
  exact .edit htaken.swap (by decide) (by decide) hnext

end Forked

/-- Two ways for a bridge to go wrong. The left copy has taken over the newest edit of the right
copy, on top of one of its own: the newest ids are equal, so there seems to be nothing to do. Or the
right copy has taken over an edit of the left copy, and both have gone on: the walk back stops at
that edit, where the texts do not even have the same length. -/
theorem Document.Exchange.bridge_astray :
    (Exchange (fun _ => True) (Forked.pastMine ++ [⟨Forked.theirsMoved, ['x', 'a', 'b', 'y']⟩])
        Forked.pastTheirs Forked.leftJoined Forked.rightOwn ∧
      Forked.leftJoined.history.bridge Forked.rightOwn.history = .ok .empty ∧
      Operation.empty.apply Forked.leftJoined.text ≠ .ok Forked.rightOwn.text) ∧
    Exchange (fun _ => True) Forked.pastMineNext Forked.pastTheirsNext Forked.leftNext
        Forked.rightNext ∧
      Forked.leftNext.history.bridge Forked.rightNext.history =
        .error (.fault (.cannotCompose 3 4)) := by
  refine ⟨⟨Forked.exchange_joined, by cbv, ?_⟩, Forked.exchange_next, by cbv⟩
  intro h
  cases h

/-- Copies in step are bridged. Where an edit was taken over past another, the histories part at
their ends, where the texts differ, so that no bridge is right. -/
theorem Document.Exchange.bridge_sound_of_textAt_in_step :
    (Exchange (fun op => op.isEmpty) Forked.pastMineNext Forked.pastMine Forked.leftNext
        Forked.leftOwn ∧
      ∃ op, Forked.leftNext.history.bridge Forked.leftOwn.history = .ok op ∧
        op.apply ['x', 'a', 'b', 'p'] = .ok ['x', 'a', 'b']) ∧
    Forked.leftJoined.history.parting Forked.rightOwn.history = .ok (3, 2) ∧
      ∀ op, Forked.leftJoined.history.bridge Forked.rightOwn.history = .ok op →
        op.apply Forked.leftJoined.text ≠ .ok Forked.rightOwn.text := by
  obtain ⟨hsound, _, hstep⟩ := bridge_sound_of_textAt Forked.exchange_in_step
  obtain ⟨_, hend, _⟩ := bridge_sound_of_textAt Forked.exchange_joined
  have hbridge : Forked.leftNext.history.bridge Forked.leftOwn.history =
      .ok ⟨[.retain 3, .replace ['p'] []], by decide, by decide⟩ := by cbv
  have hpart : Forked.leftJoined.history.parting Forked.rightOwn.history = .ok (3, 2) := by cbv
  refine ⟨⟨Forked.exchange_in_step, _, hbridge, ?_⟩, hpart, ?_⟩
  · exact (hsound (hstep fun op hop => hop)).2 _ hbridge
  · intro op hop happly
    cases hend 3 2 op hpart (Or.inl rfl) hop happly

end Coedit
