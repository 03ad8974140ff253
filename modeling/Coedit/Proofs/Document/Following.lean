import Coedit.Proofs.Document.Capture
import Coedit.Proofs.Document.Exchange
import Coedit.Proofs.History.Return
import Coedit.Proofs.Operation.Detour

/-!
# Following a document step by step

A captured operation can be kept up to date while its document goes on: it is rebased and captured
again for the present history, as often as one likes. When it is needed in the end, it is rebased
from there. Or it is left as it was captured and rebased once. Both ways lead somewhere:

> `Document.update_then_rebase`: as long as the history keeps what happened since the capture, the
> operation can be rebased in the end by either way, and what comes out applies to the text. If the
> detour was harmless, both make the same text.

The condition cannot be left out. The bridge to the end is one change, merged and in normal form.
The steps that it was made of say more: that a character was deleted and typed again, or that
another one was written in front of it before it was deleted. Where the captured operation depends
on that, the two ways part (`Captured.bothWays_differ`).

That there are bridges at all is a fact about forks: a history and a later one of the same document
fork where the first one ends (`History.fork_of_run`).
-/

namespace Coedit

/-- With all ids different, a chronicle agrees with every later one. -/
theorem Chronicle.agree_append {past late : Chronicle} (h : (ids (past ++ late)).Nodup) :
    past.Agree (past ++ late) := by
  intro stage hs stage' hs' hid
  rw [List.inj_on_of_nodup_map h (List.mem_append_left _ hs) hs' hid]

namespace Captured

variable {c : Captured Operation} {h : History} {op : Operation}

theorem rebaseOperation_eq_some :
    c.rebaseOperation h = .ok (some op) ↔
      ∃ bridge, c.base.bridge h = .ok bridge ∧ c.value.transform bridge .left = .ok op := by
  constructor
  · intro hrebase
    unfold rebaseOperation at hrebase
    cases hbridge : c.base.bridge h with
    | ok bridge =>
      rw [rebaseBy_of_bridge hbridge] at hrebase
      obtain ⟨value, hop, hvalue⟩ := bind_eq_ok.mp hrebase
      cases hvalue
      exact ⟨bridge, rfl, hop⟩
    | error failure =>
      cases failure with
      | refused reason =>
        rw [rebaseBy_of_refused hbridge] at hrebase
        cases hrebase
      | fault fault =>
        unfold rebaseBy History.bridge? at hrebase
        rw [hbridge] at hrebase
        cases hrebase
  · rintro ⟨bridge, hbridge, hop⟩
    unfold rebaseOperation
    rw [rebaseBy_of_bridge hbridge, hop]
    rfl

/-- An updated operation is the rebased one, captured for the other history. -/
theorem update_eq_some {u : Captured Operation} (hupdate : c.update h = .ok (some u)) :
    c.rebaseOperation h = .ok (some u.value) ∧ u.base = h := by
  obtain ⟨rebased, hrebase, hsome⟩ := bind_eq_ok.mp hupdate
  cases rebased with
  | none => cases hsome
  | some op =>
    cases hsome
    exact ⟨hrebase, rfl⟩

end Captured

namespace History

/-- Bridges are in normal form. -/
theorem settled_of_bridge {before after : History} {op : Operation}
    (h : before.bridge after = .ok op) : op.Settled := by
  unfold bridge at h
  obtain ⟨point, _, h⟩ := bind_eq_ok.mp h
  obtain ⟨done, _, h⟩ := bind_eq_ok.mp h
  obtain ⟨missing, _, h⟩ := bind_eq_ok.mp h
  obtain ⟨change, _, h⟩ := bind_eq_ok.mp h
  cases h
  exact change.settled_normalize

variable {past late : Chronicle} {d e : Document} {base : History}

/-- A history and a later one of the same document fork where the first one ends. -/
theorem fork_of_run (hd : Document.Run past d) (he : Document.Run (past ++ late) e)
    (hids : (Chronicle.ids (past ++ late)).Nodup) (hbase : d.history.Excerpt base) :
    Fork (past.entries.take base.timestamp) []
      ((Chronicle.entries (past ++ late)).drop base.timestamp) base e.history := by
  have hle : base.timestamp ≤ past.entries.length := by
    rw [hd.isWindow.length_all]
    exact (hd.isWindow.excerpt hbase).1
  have hall : past.entries.take base.timestamp ++
      (Chronicle.entries (past ++ late)).drop base.timestamp =
        Chronicle.entries (past ++ late) := by
    have hshared : past.entries.take base.timestamp =
        (Chronicle.entries (past ++ late)).take base.timestamp := by
      rw [Chronicle.entries.eq_def (past ++ late), List.map_append]
      exact (List.take_append_of_le_length hle).symm
    rw [hshared, List.take_append_drop]
  constructor
  · rw [List.append_nil]
    exact hd.reached.excerpt hbase
  · rw [hall]
    exact he.reached
  · rw [List.append_nil, hall, Chronicle.entries, List.map_map]
    exact hids
  · intro a ha
    cases ha

/-- Between a history and a later one of the same document there is a bridge, and it leads from text
to text, exactly if both keep the last entry that the first one has. -/
theorem bridge_ahead (hd : Document.Run past d) (he : Document.Run (past ++ late) e)
    (hids : (Chronicle.ids (past ++ late)).Nodup) (hbase : d.history.Excerpt base) :
    ((∃ op, base.bridge e.history = .ok op) ↔
      base.oldestTimestamp ≤ base.timestamp - 1 ∧ e.history.oldestTimestamp ≤ base.timestamp - 1) ∧
    ∀ op, base.bridge e.history = .ok op → op.apply (past.textAt base.timestamp) = .ok e.text := by
  have hfork := fork_of_run hd he hids hbase
  have hlen : (past.entries.take base.timestamp).length = base.timestamp :=
    hfork.timestamp_before.symm
  refine ⟨⟨?_, ?_⟩, ?_⟩
  · rintro ⟨op, hop⟩
    obtain ⟨i, j, hparting⟩ := exists_parting_of_bridge hop
    have hkept := hfork.oldestTimestamp_le hparting
    rw [hlen] at hkept
    exact hkept
  · rintro ⟨hbefore, hafter⟩
    obtain ⟨_, _, op, _, _, _, hbridge⟩ :=
      hfork.exists_bridge (by rw [hlen]; exact hbefore) (by rw [hlen]; exact hafter)
    exact ⟨_, hbridge⟩
  · intro op hop
    rcases bridge_excerpts hd he (Chronicle.agree_append hids) hbase .whole with
      ⟨reason, hrefused⟩ | ⟨op', hop', hlead⟩
    · rw [hrefused] at hop
      cases hop
    · rw [hop'] at hop
      cases hop
      rw [he.textAt_timestamp] at hlead
      exact hlead

end History

/-! ## The two ways -/

namespace Document

/-- **Following a document.** Let an operation be captured on a document at a timestamp when it
applied to the text, let it be updated for a later state `m` of the document, and let `f` be a state
after that which has kept the last entry before the capture. All ids are different. Then both the
updated operation and the captured one can be rebased to `f`, and what comes out applies to its text
if there is room. If the detour over `m` was harmless, both make the same text. -/
theorem update_then_rebase {past mid late : Chronicle} {d m f : Document} (hd : Run past d)
    (hm : Run (past ++ mid) m) (hf : Run (past ++ mid ++ late) f)
    (hids : (Chronicle.ids (past ++ mid ++ late)).Nodup) {op : Operation} {t : Nat}
    {c u : Captured Operation} (hc : Captured.capture op d.history t = .ok c) {r : Text}
    (hop : op.apply (past.textAt t) = .ok r) (hupdate : c.update m.history = .ok (some u))
    (hretained : f.history.oldestTimestamp ≤ t - 1)
    (hfit : r.length + f.text.length < Word.bound) :
    ∃ first second direct stepped once text text',
      c.base.bridge m.history = .ok first ∧ m.history.bridge f.history = .ok second ∧
      c.base.bridge f.history = .ok direct ∧
      u.rebaseOperation f.history = .ok (some stepped) ∧
      c.rebaseOperation f.history = .ok (some once) ∧
      stepped.apply f.text = .ok text ∧ once.apply f.text = .ok text' ∧
      (op.HarmlessDetour first second direct f.text.length → text = text') := by
  obtain ⟨rfl, hbase⟩ := Captured.capture_eq_ok hc
  obtain ⟨hle, rfl, _⟩ := hd.isWindow.rewind hbase
  have hexcerpt : d.history.Excerpt c.base := .rewind .whole hbase
  obtain ⟨hrebase, hubase⟩ := Captured.update_eq_some hupdate
  obtain ⟨first, hfirst, hupdated⟩ := Captured.rebaseOperation_eq_some.mp hrebase
  have hids' : (Chronicle.ids (past ++ mid)).Nodup := by
    rw [Chronicle.ids_append] at hids
    exact hids.of_append_left
  -- that there was a bridge to the text in between says what was kept then
  obtain ⟨hbridge, hlead⟩ := History.bridge_ahead hd hm hids' hexcerpt
  obtain ⟨hkept, hkept'⟩ := hbridge.mp ⟨first, hfirst⟩
  have hlater : d.history.timestamp ≤ m.history.timestamp := by
    rw [← hd.isWindow.length_all, ← hm.isWindow.length_all, Chronicle.entries, Chronicle.entries,
      List.map_append, List.length_append]
    exact Nat.le_add_right ..
  obtain ⟨hbridge', hlead'⟩ := History.bridge_ahead hm hf hids .whole
  obtain ⟨second, hsecond⟩ := hbridge'.mpr ⟨by omega, by omega⟩
  rw [hm.textAt_timestamp] at hlead'
  rw [List.append_assoc] at hf hids
  obtain ⟨hbridge'', hlead''⟩ := History.bridge_ahead hd hf hids hexcerpt
  obtain ⟨direct, hdirect⟩ := hbridge''.mpr ⟨hkept, hretained⟩
  -- the captured operation inserts no more than stands in its text, and the updated one neither
  have hroom : c.value.entered.length + f.text.length < Word.bound := by
    have hlength := Operation.length_eq_of_apply hop
    omega
  have hroom' : u.value.entered.length + f.text.length < Word.bound := by
    rw [← (Operation.transform_places hupdated).2.length_eq]
    exact hroom
  have hmiddle := Operation.apply_of_transform hupdated hop (hlead first hfirst)
  obtain ⟨stepped, hstepped, htext⟩ :=
    Operation.exists_transform hmiddle (hlead' second hsecond) hroom'
  obtain ⟨once, honce, htext'⟩ := Operation.exists_transform hop (hlead'' direct hdirect) hroom
  refine ⟨first, second, direct, stepped, once, _, _, hfirst, hsecond, hdirect,
    Captured.rebaseOperation_eq_some.mpr ⟨second, by rw [hubase]; exact hsecond, hstepped⟩,
    Captured.rebaseOperation_eq_some.mpr ⟨direct, hdirect, honce⟩, htext, htext', fun h => ?_⟩
  exact h.same_text (History.settled_of_bridge hsecond) (History.settled_of_bridge hdirect) hupdated
    hstepped honce htext htext'

end Document

/-- What an operation captured for a text makes of it after two edits, `there` and `onward`: kept up
to date in between, and rebased once. -/
def Captured.bothWays (text : Text) (mine there onward : List Component) :
    Except Fault (Text × Text) := do
  let mine ← Operation.ofComponents mine
  let there ← Operation.ofComponents there
  let onward ← Operation.ofComponents onward
  let _ ← mine.apply text
  let d ← Document.ofText ⟨1⟩ text
  let m ← d.edit ⟨2⟩ there
  let f ← m.edit ⟨3⟩ onward
  let c : Captured Operation := ⟨mine, d.history⟩
  let u ← require (c.update m.history)
  let stepped ← require (u.rebaseOperation f.history)
  let once ← require (c.rebaseOperation f.history)
  let followed ← stepped.apply f.text
  let rebased ← once.apply f.text
  .ok (followed, rebased)

/-- The two ways part, for a reason of each kind. A letter is written in front, and then the one
between it and my text is deleted; a letter that mine deletes is deleted and typed again; so is the
one in front of my text; and a letter is written where my text has slid over another one. -/
theorem Captured.bothWays_differ :
    bothWays ['a'] [.retain 1, .replace [] ['y']] [.replace [] ['x'], .retain 1]
        [.retain 1, .replace ['a'] []] = .ok (['x', 'y'], ['y', 'x']) ∧
      bothWays ['a'] [.replace ['a'] []] [.replace ['a'] []] [.replace [] ['a']] =
        .ok (['a'], []) ∧
      bothWays ['a', 'b'] [.retain 1, .replace [] ['y'], .retain 1] [.replace ['a'] [], .retain 1]
        [.replace [] ['a'], .retain 1] = .ok (['y', 'a', 'b'], ['a', 'y', 'b']) ∧
      bothWays ['a', 'b', 'c'] [.replace ['a'] ['x'], .retain 1, .replace ['c'] ['y']]
        [.retain 1, .replace ['b'] [], .retain 1] [.retain 1, .replace [] ['z'], .retain 1] =
        .ok (['z', 'x', 'y'], ['x', 'z', 'y']) := by
  refine ⟨?_, ?_, ?_, ?_⟩
  · cbv
  · cbv
  · cbv
  · cbv

namespace Forked

/-- Deletes the first letter of the text that both copies had, behind the left copy's own. -/
def shortening : Entry := ⟨⟨6⟩, ⟨[.retain 1, .replace ['a'] [], .retain 1], by decide, by decide⟩⟩

/-- The left copy after one more edit. -/
def shortened : Document := document ['x', 'b'] [typed, idle, mine, shortening] 8

/-- The change, after the left copy's own letter. -/
def updated : Captured Operation :=
  ⟨⟨[.retain 2, .replace ['b'] ['z']], by decide, by decide⟩, left.history⟩

/-- What the left copy has done in the end to the text that both copies had. -/
def whole : Operation := ⟨[.replace ['a'] ['x'], .retain 1], by decide, by decide⟩

theorem run_shortened : Document.Run (pastLeft ++ [] ++ [⟨shortening, ['x', 'b']⟩]) shortened :=
  .edit run_left (show left.edit ⟨6⟩ shortening.operation = .ok shortened from rfl)

/-- The change replaces the last letter, in front of which everything stays where it is. -/
theorem harmlessDetour_change :
    change.HarmlessDetour mine.operation shortening.operation whole 2 := by
  have hgap : ∀ g, insertedAt change.components g ≠ [] → g = 2 := by
    grind [insertedAt, change]
  constructor
  · decide
  · intro g hg q hq
    rw [hgap g hg]
    exact ⟨fun _ => ⟨1, 1, by omega, rfl, by decide⟩, fun _ => ⟨1, 1, by omega, rfl, by decide⟩⟩
  · intro g hg m q _ hm hq
    rw [hgap g hg] at hm ⊢
    have hlt : q < 2 := (Piece.lt_newGap_iff_of_origin hq 3).mpr hm
    exact ⟨1, 1, by omega, rfl, by decide⟩
  · intro _ g hg k hk hdeleted
    rw [hgap g hg] at hk hdeleted
    exact absurd (hdeleted 3 (by decide) hk) (by decide)

end Forked

/-- The change is captured for "ab" and followed through "xab" to "xb". -/
theorem Document.update_then_rebase_shortened :
    Captured.capture Forked.change Forked.left.history 2 = .ok Forked.captured ∧
      Forked.captured.update Forked.left.history = .ok (some Forked.updated) ∧
      ∃ stepped once, Forked.updated.rebaseOperation Forked.shortened.history = .ok (some stepped) ∧
        Forked.captured.rebaseOperation Forked.shortened.history = .ok (some once) ∧
        stepped.apply ['x', 'b'] = .ok ['x', 'z'] ∧ once.apply ['x', 'b'] = .ok ['x', 'z'] := by
  have hcapture : Captured.capture Forked.change Forked.left.history 2 = .ok Forked.captured := rfl
  have happlies : Forked.change.apply (Forked.pastLeft.textAt 2) = .ok ['a', 'z'] := rfl
  have hupdate : Forked.captured.update Forked.left.history = .ok (some Forked.updated) := by cbv
  have hfirst : Forked.captured.base.bridge Forked.left.history = .ok Forked.mine.operation := by
    cbv
  have hsecond : Forked.left.history.bridge Forked.shortened.history =
      .ok Forked.shortening.operation := by cbv
  have hdirect : Forked.captured.base.bridge Forked.shortened.history = .ok Forked.whole := by cbv
  obtain ⟨first, second, direct, stepped, once, text, text', hfirst', hsecond', hdirect', hstepped,
    honce, htext, htext', hsame⟩ := update_then_rebase Forked.run_left
      (show Run (Forked.pastLeft ++ []) Forked.left from Forked.run_left) Forked.run_shortened
      (by decide) hcapture happlies hupdate (by decide) (by decide)
  rw [hfirst] at hfirst'
  rw [hsecond] at hsecond'
  rw [hdirect] at hdirect'
  cases hfirst'
  cases hsecond'
  cases hdirect'
  have hsame := hsame Forked.harmlessDetour_change
  -- directly, the change is the same one as before
  have hrebased : Forked.captured.rebaseOperation Forked.shortened.history =
      .ok (some Forked.change) := by cbv
  rw [hrebased] at honce
  cases honce
  have hdone : Forked.change.apply Forked.shortened.text = .ok ['x', 'z'] := rfl
  rw [hdone] at htext'
  cases htext'
  rw [hsame] at htext
  exact ⟨hcapture, hupdate, stepped, Forked.change, hstepped, hrebased, htext, hdone⟩

end Coedit
