import Coedit.Proofs.Document.Capture
import Coedit.Proofs.Interval.Within

/-!
# Captured positions land inside the document

Offsets, spans, carets and sets of intervals are captured against an old text, and rebased onto a
document they are to lie in the text of that document, with their ends still in order. They are
carried there by the bridge, which leads from the one text to the other, so it is enough to know
what any such operation does with them:

> `Document.receives_rebaseBy`: whatever is so of a value carried by any operation from the old text
> to the text of the document is so of the value rebased onto the document.

The sum of both lengths is made for an offset at the end of the old text, and it can be too large
for a word. This is the only way in which a position that can be rebased is not: `Receives` has a
condition on the lengths there and nowhere else.
-/

namespace Coedit

namespace Document

variable {α : Type}

/-- How a document answers when a value for a text of `n` characters is rebased onto it, given the
history of that text. A value that comes out has the property. If the histories cannot be bridged,
none comes out; otherwise one does, if the lengths of both texts together are a word. -/
structure Receives (e : Document) (n : Nat) (base : History) (P : α → Prop)
    (r : Except Fault (Option α)) : Prop where
  holds : ∀ a, r = .ok (some a) → P a
  none_of_refused : ∀ reason, base.bridge e.history = .error (.refused reason) → r = .ok none
  some_of_bridge : ∀ op, base.bridge e.history = .ok op → n + e.text.length < Word.bound →
    ∃ a, r = .ok (some a)

/-- A value is received as every operation from the old text to the text of the document carries
it. -/
theorem receives_rebaseBy {past past' : Chronicle} {d e : Document} (hrun : Run past d)
    (hrun' : Run past' e) (hagree : past.Agree past') {h : History} (hh : d.history.Excerpt h)
    {t : Nat} {value : α} {c : Captured α} (hc : Captured.capture value h t = .ok c)
    {follow : α → Operation → Except Fault α} {P : α → Prop}
    (hfollow : ∀ op, op.apply (past.textAt t) = .ok e.text →
      Lands ((past.textAt t).length + e.text.length < Word.bound) P (follow value op)) :
    e.Receives (past.textAt t).length c.base P (c.rebaseBy follow e.history) := by
  obtain ⟨rfl, hbase⟩ := Captured.capture_eq_ok hc
  obtain ⟨_, rfl, _⟩ := (hrun.isWindow.excerpt hh).2.rewind hbase
  rcases History.bridge_excerpts hrun hrun' hagree (.rewind hh hbase) .whole with
    ⟨reason, hrefused⟩ | ⟨op, hbridge, hlead⟩
  · rw [Captured.rebaseBy_of_refused hrefused]
    refine ⟨nofun, fun _ _ => rfl, ?_⟩
    intro op hbridge
    rw [hrefused] at hbridge
    cases hbridge
  · rw [hrun'.textAt_timestamp] at hlead
    have hlands := hfollow op hlead
    rw [Captured.rebaseBy_of_bridge hbridge]
    refine ⟨?_, ?_, ?_⟩
    · intro a ha
      obtain ⟨value, hvalue, hok⟩ := bind_eq_ok.mp ha
      cases hok
      exact hlands.holds _ hvalue
    · intro reason hrefused
      rw [hbridge] at hrefused
      cases hrefused
    · intro _ _ hfits
      obtain ⟨a, ha⟩ := hlands.exists_ok hfits
      exact ⟨a, bind_eq_ok.mpr ⟨a, ha, rfl⟩⟩

/-- **Captured positions land inside the document.** Let a position be captured on a document, or on
an excerpt of its history, at a timestamp, within the text that the document had then, and rebased
onto any document `e` in which equal ids stand for equal texts. What comes out is within the text of
`e`: an offset is at most its length, the ends of a span are in order too, whichever side an empty
one is to take, and so are those of a selection beside a caret. A set of intervals comes out with
the same keys and values, in order, and all its intervals within the text. -/
theorem captured_positions_within {past past' : Chronicle} {d e : Document} (hrun : Run past d)
    (hrun' : Run past' e) (hagree : past.Agree past') {h : History} (hh : d.history.Excerpt h)
    (t : Nat) :
    (∀ offset ≤ (past.textAt t).length, ∀ c, Captured.capture offset h t = .ok c →
      e.Receives (past.textAt t).length c.base (fun offset' => offset' ≤ e.text.length)
        (c.rebaseOffset e.history)) ∧
    (∀ span : Span, span.Within (past.textAt t).length → ∀ c,
      Captured.capture span h t = .ok c → ∀ side,
      e.Receives (past.textAt t).length c.base (Span.Within e.text.length)
        (c.rebaseSpan e.history side)) ∧
    (∀ caret : Caret, caret.Within (past.textAt t).length → ∀ c,
      Captured.capture caret h t = .ok c →
      e.Receives (past.textAt t).length c.base (Caret.Within e.text.length)
        (c.rebaseCaret e.history)) ∧
    ∀ (κ ν : Type) (set : IntervalSet κ ν), set.Built → set.Within (past.textAt t).length → ∀ c,
      Captured.capture set h t = .ok c →
      e.Receives (past.textAt t).length c.base (set.MovesTo e.text.length)
        (c.rebaseIntervals e.history) := by
  refine ⟨?_, ?_, ?_, ?_⟩
  · intro offset hoffset c hc
    refine receives_rebaseBy hrun hrun' hagree hh hc fun op hop => ?_
    exact (op.lands_mapOffset hop hoffset .left).imp fun _ hr => hr.2
  · intro span hspan c hc side
    exact receives_rebaseBy hrun hrun' hagree hh hc fun op hop =>
      Span.lands_transform hop hspan side
  · intro caret hcaret c hc
    exact receives_rebaseBy hrun hrun' hagree hh hc fun op hop =>
      Caret.lands_transform hop hcaret .left
  · intro κ ν set hbuilt hset c hc
    exact receives_rebaseBy hrun hrun' hagree hh hc fun op hop =>
      IntervalSet.lands_edit hop hbuilt.ordered hset

end Document

namespace Forked

/-- What both copies had when the left one had made two edits. -/
def shared : History := left.history.cutBack 2

/-- One interval over the whole text that both copies had, and one at its end. -/
def marks : IntervalSet Nat String := .ofList [⟨7, 2, 2, "end"⟩, ⟨3, 0, 2, "all"⟩]

end Forked

/-- Positions in "ab", of which the right copy has made "by". An offset at the end stays on the left
of what was put there, an interval goes to the right of it, and a span over the letter that is gone
collapses. -/
theorem Document.captured_positions_within_forked :
    (Forked.pastLeft.textAt 2).length = 2 ∧ Forked.right.text.length = 2 ∧
      Forked.left.history.rewind 2 = .ok Forked.shared ∧
      (Captured.mk 2 Forked.shared).rebaseOffset Forked.right.history = .ok (some 1) ∧ 1 ≤ 2 ∧
      (Captured.mk ⟨0, 1⟩ Forked.shared).rebaseSpan Forked.right.history .right =
        .ok (some ⟨0, 0⟩) ∧ Span.Within 2 ⟨0, 0⟩ ∧
      (Captured.mk ⟨1, some ⟨2, 2⟩⟩ Forked.shared).rebaseCaret Forked.right.history =
        .ok (some ⟨0, some ⟨1, 1⟩⟩) ∧ Caret.Within 2 ⟨0, some ⟨1, 1⟩⟩ ∧
      ∃ set, (Captured.mk Forked.marks Forked.shared).rebaseIntervals Forked.right.history =
        .ok (some set) ∧ set.entries = [⟨3, 0, 2, "all"⟩, ⟨7, 2, 2, "end"⟩] ∧
        Forked.marks.MovesTo 2 set := by
  have hbridge : Forked.shared.bridge Forked.right.history = .ok Forked.crossing := by cbv
  obtain ⟨hoffset, hspan, hcaret, hset⟩ :=
    captured_positions_within Forked.run_left Forked.run_right Forked.agree .whole 2
  have hoffset' : (Captured.mk 2 Forked.shared).rebaseOffset Forked.right.history =
      .ok (some 1) :=
    (Captured.rebaseBy_of_bridge hbridge).trans rfl
  have hspan' : (Captured.mk ⟨0, 1⟩ Forked.shared).rebaseSpan Forked.right.history .right =
      .ok (some ⟨0, 0⟩) :=
    (Captured.rebaseBy_of_bridge hbridge).trans rfl
  have hcaret' : (Captured.mk ⟨1, some ⟨2, 2⟩⟩ Forked.shared).rebaseCaret Forked.right.history =
      .ok (some ⟨0, some ⟨1, 1⟩⟩) :=
    (Captured.rebaseBy_of_bridge hbridge).trans rfl
  have hset' : (Captured.mk Forked.marks Forked.shared).rebaseIntervals Forked.right.history =
      .ok (some ⟨[⟨3, 0, 2, "all"⟩, ⟨7, 2, 2, "end"⟩]⟩) :=
    (Captured.rebaseBy_of_bridge hbridge).trans rfl
  refine ⟨rfl, rfl, rfl, hoffset', ?_, hspan', ?_, hcaret', ?_, _, hset', rfl, ?_⟩
  · exact (hoffset 2 (by decide) ⟨_, Forked.shared⟩ rfl).holds 1 hoffset'
  · exact (hspan ⟨0, 1⟩ (by decide) ⟨_, Forked.shared⟩ rfl .right).holds _ hspan'
  · exact (hcaret ⟨1, some ⟨2, 2⟩⟩ (by decide) ⟨_, Forked.shared⟩ rfl).holds _ hcaret'
  · exact (hset Nat String Forked.marks (.ofList _) (by decide) ⟨_, Forked.shared⟩ rfl).holds _ hset'

end Coedit
