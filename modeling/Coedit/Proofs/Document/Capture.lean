import Coedit.Proofs.History.Bridge
import Coedit.Proofs.Operation.Merge

/-!
# A captured operation lands where it was meant to

An operation captured against an old text is rebased before it is applied: it is transformed past
the bridge from the history it was made for to the history of the document it meets. So many things
have to fit. The bridge must lead to the text of the document, the transformed operation must find
there what it deletes, and the history must accept it. This file proves that they always do:

> `applyCaptured_converges`: applying a captured operation never ends in a fault. It is turned down
> exactly if there is no bridge. Otherwise it is one more edit, and the new text is the one that
> the bridge, transformed past the operation, makes of what the operation made.

The last part is convergence of the two as concurrent operations from the old text
(`Operation.transform_apply`): the bridge leads from there to the present text
(`History.bridge_excerpts`). That it can be recorded is a fact about runs (`Run.exists_edit`).
-/

namespace Coedit

namespace Captured

variable {α : Type} {c : Captured α} {h : History} {follow : α → Operation → Except Fault α}

/-- A capture holds the value and the history at the timestamp. -/
theorem capture_eq_ok {value : α} {t : Nat} (hc : capture value h t = .ok c) :
    c.value = value ∧ h.rewind t = .ok c.base := by
  obtain ⟨base, hbase, hok⟩ := bind_eq_ok.mp hc
  cases hok
  exact ⟨rfl, hbase⟩

theorem rebaseBy_of_refused {reason : BridgeError}
    (hbridge : c.base.bridge h = .error (.refused reason)) : c.rebaseBy follow h = .ok none := by
  unfold rebaseBy History.bridge?
  rw [hbridge]
  rfl

theorem rebaseBy_of_bridge {op : Operation} (hbridge : c.base.bridge h = .ok op) :
    c.rebaseBy follow h = (follow c.value op >>= fun value => .ok (some value)) := by
  unfold rebaseBy History.bridge?
  rw [hbridge]
  rfl

end Captured

namespace Document

variable {d : Document} {id : EditId} {c : Captured Operation}

/-- Without a bridge nothing is made of the document. -/
theorem applyCaptured_of_refused {reason : BridgeError}
    (hbridge : c.base.bridge d.history = .error (.refused reason)) :
    d.applyCaptured id c = .ok none := by
  unfold applyCaptured Captured.rebaseOperation
  rw [Captured.rebaseBy_of_refused hbridge]
  rfl

/-- With a bridge, the operation transformed past it is one more edit. -/
theorem applyCaptured_of_bridge {bridge op : Operation} {d' : Document}
    (hbridge : c.base.bridge d.history = .ok bridge)
    (hop : c.value.transform bridge .left = .ok op) (hedit : d.edit id op = .ok d') :
    d.applyCaptured id c = .ok (some d') := by
  have hrebase : c.rebaseOperation d.history = .ok (some op) := by
    unfold Captured.rebaseOperation
    rw [Captured.rebaseBy_of_bridge hbridge, hop]
    rfl
  unfold applyCaptured
  rw [hrebase]
  show (d.edit id op >>= fun next => .ok (some next)) = .ok (some d')
  rw [hedit]
  rfl

/-- What becomes of an operation that applied to the text `t` from which the bridge leads to the
document: it is one more edit, and both ways around the square end with the new text. -/
theorem exists_applyCaptured {past : Chronicle} (hrun : Run past d) {bridge : Operation}
    {t r : Text} (hbridge : c.base.bridge d.history = .ok bridge) (hlead : bridge.apply t = .ok d.text)
    (hop : c.value.apply t = .ok r)
    (hfit : d.history.weight + max d.text.length (c.value.merge bridge t).length < Word.bound) :
    ∃ d' bridge', d.applyCaptured id c = .ok (some d') ∧
      d'.history.timestamp = d.history.timestamp + 1 ∧ d'.retention = d.retention ∧
      bridge.transform c.value .right = .ok bridge' ∧ bridge'.apply r = .ok d'.text := by
  have hlen : (c.value.merge bridge t).length < Word.bound := by omega
  obtain ⟨op, htransform, happly⟩ := @Operation.transform_apply c.value bridge .left _ _ _ hop hlead
    hlen
  obtain ⟨bridge', htransform', happly'⟩ := @Operation.transform_apply bridge c.value .right _ _ _
    hlead hop hlen
  have hsize := Operation.size_le_of_apply happly
  obtain ⟨d', hedit, htext, hretention, htime⟩ := hrun.exists_edit id happly
    (Nat.lt_of_le_of_lt (Nat.add_le_add_left hsize _) hfit)
  refine ⟨d', bridge', applyCaptured_of_bridge hbridge htransform hedit, htime, hretention,
    htransform', ?_⟩
  rw [htext]
  exact happly'

/-- **A captured operation applies safely, as a whole or not at all, and converges.** Let an
operation be captured on a document at a timestamp when it applied to the text, and let `e` be any
document in which equal ids stand for equal texts, with lengths that fit. Then applying it to `e`
is never a fault; it gives no document exactly if there is no bridge; and with a bridge it gives
the next document, whose text the bridge reaches from the other side. -/
theorem applyCaptured_converges {past past' : Chronicle} {d e : Document} (hrun : Run past d)
    (hrun' : Run past' e) (hagree : past.Agree past') {op : Operation} {t : Nat}
    {c : Captured Operation} (hc : Captured.capture op d.history t = .ok c) {r : Text}
    (hop : op.apply (past.textAt t) = .ok r)
    (hfit : ∀ bridge, c.base.bridge e.history = .ok bridge →
      e.history.weight + max e.text.length (op.merge bridge (past.textAt t)).length < Word.bound)
    (id : EditId) :
    (∀ fault, e.applyCaptured id c ≠ .error fault) ∧
      (e.applyCaptured id c = .ok none ↔
        ∃ reason, c.base.bridge e.history = .error (.refused reason)) ∧
      ∀ bridge, c.base.bridge e.history = .ok bridge →
        ∃ e' bridge', e.applyCaptured id c = .ok (some e') ∧
          e'.history.timestamp = e.history.timestamp + 1 ∧ e'.retention = e.retention ∧
          bridge.transform op .right = .ok bridge' ∧ bridge'.apply r = .ok e'.text := by
  obtain ⟨rfl, hbase⟩ := Captured.capture_eq_ok hc
  obtain ⟨_, rfl, _⟩ := hrun.isWindow.rewind hbase
  rcases History.bridge_excerpts hrun hrun' hagree (.rewind .whole hbase) .whole with
    ⟨reason, hrefused⟩ | ⟨bridge, hbridge, hlead⟩
  · have hnone := @applyCaptured_of_refused e id c reason hrefused
    rw [hnone, hrefused]
    refine ⟨?_, ⟨fun _ => ⟨reason, rfl⟩, fun _ => rfl⟩, ?_⟩
    · intro fault h
      cases h
    · intro bridge h
      cases h
  · rw [hrun'.textAt_timestamp] at hlead
    obtain ⟨e', bridge', happly, hrest⟩ :=
      exists_applyCaptured hrun' hbridge hlead hop (hfit bridge hbridge)
    rw [happly, hbridge]
    refine ⟨?_, ⟨?_, ?_⟩, ?_⟩
    · intro fault h
      cases h
    · intro h
      cases h
    · intro h
      obtain ⟨reason, h⟩ := h
      cases h
    · intro other h
      cases h
      exact ⟨e', bridge', rfl, hrest⟩

end Document

namespace Forked

/-- Puts another letter for the last one of the text that both copies had. -/
def change : Operation := ⟨[.retain 1, .replace ['b'] ['z']], by decide, by decide⟩

/-- The change, captured on the left copy before its own last edit. -/
def captured : Captured Operation := ⟨change, left.history.cutBack 2⟩

/-- What the right copy made of that text. -/
def crossing : Operation :=
  ⟨[.replace ['a'] [], .retain 1, .replace [] ['y']], by decide, by decide⟩

end Forked

/-- Both copies had "ab" when the change was captured; the right one has "by" now, and "zy" next. -/
theorem Document.applyCaptured_converges_forked :
    Captured.capture Forked.change Forked.left.history 2 = .ok Forked.captured ∧
      Forked.change.apply (Forked.pastLeft.textAt 2) = .ok ['a', 'z'] ∧
      ∃ e', Forked.right.applyCaptured ⟨6⟩ Forked.captured = .ok (some e') ∧
        e'.history.timestamp = 5 ∧ e'.text = ['z', 'y'] := by
  have hcapture : Captured.capture Forked.change Forked.left.history 2 = .ok Forked.captured := rfl
  have happlies : Forked.change.apply (Forked.pastLeft.textAt 2) = .ok ['a', 'z'] := rfl
  have hbridge : Forked.captured.base.bridge Forked.right.history = .ok Forked.crossing := by cbv
  have hfit : ∀ bridge, Forked.captured.base.bridge Forked.right.history = .ok bridge →
      Forked.right.history.weight + max Forked.right.text.length
        (Forked.change.merge bridge (Forked.pastLeft.textAt 2)).length < Word.bound := by
    intro bridge h
    rw [hbridge] at h
    cases h
    decide
  obtain ⟨e', bridge', happly, htime, _, htransform, htext⟩ :=
    (applyCaptured_converges Forked.run_left Forked.run_right Forked.agree hcapture happlies hfit
      ⟨6⟩).2.2 _ hbridge
  -- the letter that the bridge keeps is another one by now, so it looks the same on this side
  have hcrossing : Forked.crossing.transform Forked.change .right = .ok Forked.crossing := by cbv
  rw [hcrossing] at htransform
  cases htransform
  have htext : Except.ok ['z', 'y'] = Except.ok e'.text := htext
  exact ⟨hcapture, happlies, e', happly, htime, (Except.ok.inj htext).symm⟩

end Coedit
