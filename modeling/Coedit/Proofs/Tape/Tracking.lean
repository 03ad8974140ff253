import Coedit.Proofs.Tape.Placement
import Coedit.Proofs.Operation.Composition

/-!
# Tapes agree with operations

On a tape, text and markers are moved about by hand. The other way is to compute: keep the text
and, for each marker, the offset where it was put together with all operations since. A *ledger*
does that. It turns each replacement into an operation, applies it to its text, and never looks at a
tape.

> `Tape.follows_ledger`: whatever is done to a tape within its bounds, the tape and the ledger have
> the same text, each marker is still on the tape, once and on its own side, and it stands where the
> operations since it was put take its offset.

What one step does is known from `Tape.exists_mark` and `Tape.exists_replace` on the one hand and
from `Operation.exists_replace` on the other: both move offsets by `landing`. The invariant that
carries this over a run is `Tape.Matches`.

Texts are shorter than `Word.signedBound` throughout, as every text is that fits into memory.
-/

namespace Coedit

namespace Tape

/-- What can be done to a tape. -/
inductive Step where
  | mark (offset : Nat) (side : Side)
  | replace (offset count : Nat) (text : Text)

/-- The tape after a step. -/
def step (t : Tape) : Step → Except Fault Tape
  | .mark offset side => do
    let _ ← (t.mark offset side).2
    .ok (t.mark offset side).1
  | .replace offset count text => t.replace offset count text

/-- Steps that stay within a text of this length and those it turns into, none of which is too
long. -/
def InBounds : (length : Nat) → List Step → Prop
  | _, [] => True
  | length, .mark offset _ :: steps => offset ≤ length ∧ InBounds length steps
  | length, .replace offset count text :: steps =>
    offset + count ≤ length ∧ length - count + text.length < Word.signedBound ∧
      InBounds (length - count + text.length) steps

instance decidableInBounds :
    (length : Nat) → (steps : List Step) → Decidable (InBounds length steps)
  | _, [] => inferInstanceAs (Decidable True)
  | length, .mark offset _ :: steps =>
    have := decidableInBounds length steps
    inferInstanceAs (Decidable (offset ≤ length ∧ InBounds length steps))
  | length, .replace offset count text :: steps =>
    have := decidableInBounds (length - count + text.length) steps
    inferInstanceAs (Decidable (offset + count ≤ length ∧
      length - count + text.length < Word.signedBound ∧
      InBounds (length - count + text.length) steps))

end Tape

/-- A position as it was put down, with the operations since. -/
structure Track where
  offset : Nat
  side : Side
  later : List Operation

/-- Where the operations take the offset. -/
def Track.place (track : Track) : Except Fault Nat :=
  track.later.foldlM (fun o op => op.mapOffset o track.side) track.offset

/-- One more operation moves the place on. -/
theorem Track.place_later {track : Track} {op : Operation} {n m : Nat} (hn : track.place = .ok n)
    (hm : op.mapOffset n track.side = .ok m) :
    Track.place { track with later := track.later ++ [op] } = .ok m := by
  unfold Track.place at hn ⊢
  rw [List.foldlM_append]
  exact bind_eq_ok.mpr ⟨n, hn, bind_eq_ok.mpr ⟨m, hm, rfl⟩⟩

/-- A text, and the positions put down in it so far, oldest first. -/
structure Ledger where
  text : Text
  tracks : List Track

namespace Ledger

/-- The ledger after a step: a replacement becomes an operation. -/
def step (l : Ledger) : Tape.Step → Except Fault Ledger
  | .mark offset side => .ok { l with tracks := l.tracks ++ [⟨offset, side, []⟩] }
  | .replace offset count text => do
    let op ← Operation.replace offset ((l.text.drop offset).take count) text l.text.length
    let text ← op.apply l.text
    .ok ⟨text, l.tracks.map fun track => { track with later := track.later ++ [op] }⟩

end Ledger

namespace Tape

open Slot (placements)

/-- The tape and the ledger tell the same: the same text, and for each track a marker where the
operations take it. The markers are numbered as the tracks are, and each is there once. -/
structure Matches (t : Tape) (l : Ledger) : Prop where
  text_eq : t.text = l.text
  markers_eq : t.markers = l.tracks.length
  ids : ((placements 0 t.slots).map Placement.id).Perm (List.range l.tracks.length)
  placed : ∀ id track, l.tracks[id]? = some track →
    ∃ n, track.place = .ok n ∧ ⟨id, track.side, n⟩ ∈ placements 0 t.slots

/-- A marker put down within bounds gets on the tape, and both sides still tell the same. -/
theorem Matches.mark {t : Tape} {l : Ledger} (h : t.Matches l) {offset : Nat}
    (hin : offset ≤ l.text.length) (side : Side) :
    ∃ t', t.step (.mark offset side) = .ok t' ∧
      t'.Matches ⟨l.text, l.tracks ++ [⟨offset, side, []⟩]⟩ := by
  rw [← h.text_eq] at hin
  obtain ⟨t', hmark, htext, hmarkers, hperm⟩ := exists_mark hin side
  refine ⟨t', ?_, ?_, ?_, ?_, ?_⟩
  · rw [step, hmark]
    rfl
  · rw [htext, h.text_eq]
  · rw [hmarkers, h.markers_eq, List.length_append, List.length_singleton]
  · rw [List.length_append, List.length_singleton, List.range_succ]
    refine (hperm.map Placement.id).trans ?_
    rw [List.map_cons, h.markers_eq]
    exact (h.ids.cons _).trans (List.perm_append_singleton ..).symm
  · intro id track htrack
    rcases Nat.lt_or_ge id l.tracks.length with hlt | hge
    · rw [List.getElem?_append_left hlt] at htrack
      obtain ⟨n, hn, hmem⟩ := h.placed id track htrack
      exact ⟨n, hn, hperm.mem_iff.mpr (List.mem_cons_of_mem _ hmem)⟩
    · -- the new track, which nothing has moved yet
      have hid : id = l.tracks.length := by
        have hlen := (List.getElem?_eq_some_iff.mp htrack).1
        rw [List.length_append, List.length_singleton] at hlen
        omega
      subst hid
      rw [List.getElem?_concat_length] at htrack
      cases htrack
      refine ⟨offset, rfl, hperm.mem_iff.mpr ?_⟩
      rw [h.markers_eq]
      exact List.mem_cons_self ..

/-- A replacement within bounds succeeds on both sides, and they still tell the same: on the tape a
marker goes to its landing, and so does its offset in the operation. -/
theorem Matches.replace {t : Tape} {l : Ledger} (h : t.Matches l) {offset count : Nat} {new : Text}
    (hold : l.text.length < Word.signedBound) (hin : offset + count ≤ l.text.length)
    (hnew : l.text.length - count + new.length < Word.signedBound) :
    ∃ t' l', t.step (.replace offset count new) = .ok t' ∧
      l.step (.replace offset count new) = .ok l' ∧ t'.Matches l' ∧
      l'.text.length = l.text.length - count + new.length := by
  have hbound := Word.bound_eq
  have hlen : t.length = l.text.length := congrArg List.length h.text_eq
  obtain ⟨t', u, d, v, hreplace, htext, rfl, rfl, htext', hmarkers, hperm⟩ :=
    exists_replace (hlen ▸ hin) (by omega) new
  rw [h.text_eq] at htext
  have hlen' : (u ++ new ++ v).length = l.text.length - d.length + new.length := by
    rw [htext]
    simp only [List.length_append]
    omega
  obtain ⟨op, hop, happly, hmap⟩ :=
    Operation.exists_replace new (htext ▸ hold) (hlen' ▸ hnew)
  rw [← htext] at hop happly hmap
  have hdeleted : (l.text.drop u.length).take d.length = d := by
    rw [htext, List.append_assoc, List.drop_left, List.take_left]
  have hledger : Operation.replace u.length ((l.text.drop u.length).take d.length) new
      l.text.length = .ok op := by
    rw [hdeleted]
    exact hop
  refine ⟨t', _, hreplace, bind_eq_ok.mpr ⟨op, hledger, bind_eq_ok.mpr ⟨_, happly, rfl⟩⟩,
    ⟨htext', ?_, ?_, ?_⟩, hlen'⟩
  · rw [hmarkers, h.markers_eq, List.length_map]
  · rw [List.length_map]
    refine (hperm.map Placement.id).trans ?_
    rw [List.map_map]
    exact h.ids
  · intro id track htrack
    rw [List.getElem?_map] at htrack
    obtain ⟨old, hget, rfl⟩ := Option.map_eq_some_iff.mp htrack
    obtain ⟨n, hn, hmem⟩ := h.placed id old hget
    have hn_le : n ≤ l.text.length := by
      have hle := (Slot.offset_of_mem hmem).2
      rw [Nat.zero_add] at hle
      exact hlen ▸ hle
    refine ⟨_, Track.place_later hn (hmap n hn_le old.side), hperm.mem_iff.mpr ?_⟩
    exact List.mem_map.mpr ⟨_, hmem, rfl⟩

/-- Steps within bounds succeed on both sides, and at the end they tell the same. -/
theorem Matches.run {t : Tape} {l : Ledger} {steps : List Step} (h : t.Matches l)
    (hlen : l.text.length < Word.signedBound) (hin : InBounds l.text.length steps) :
    ∃ t' l', steps.foldlM step t = .ok t' ∧ steps.foldlM Ledger.step l = .ok l' ∧
      t'.Matches l' := by
  induction steps generalizing t l with
  | nil => exact ⟨t, l, rfl, rfl, h⟩
  | cons s steps ih =>
    cases s with
    | mark offset side =>
      obtain ⟨hoffset, hin⟩ := hin
      obtain ⟨t₁, hstep, h₁⟩ := h.mark hoffset side
      obtain ⟨t', l', ht', hl', h'⟩ := ih h₁ hlen hin
      exact ⟨t', l', bind_eq_ok.mpr ⟨t₁, hstep, ht'⟩, hl', h'⟩
    | replace offset count new =>
      obtain ⟨hstretch, hnew, hin⟩ := hin
      obtain ⟨t₁, l₁, ht₁, hl₁, h₁, hlen₁⟩ := h.replace hlen hstretch hnew
      rw [← hlen₁] at hnew hin
      obtain ⟨t', l', ht', hl', h'⟩ := ih h₁ hnew hin
      exact ⟨t', l', bind_eq_ok.mpr ⟨t₁, ht₁, ht'⟩, bind_eq_ok.mpr ⟨l₁, hl₁, hl'⟩, h'⟩

/-- A tape made of a text has that text, and no markers. -/
theorem exists_ofText (text : Text) : ∃ t, ofText text = .ok t ∧ t.Matches ⟨text, []⟩ := by
  have hin : 0 + 0 ≤ empty.length := Nat.le_refl 0
  obtain ⟨t, u, d, v, hreplace, htext, hu, hd, htext', hmarkers, hperm⟩ :=
    exists_replace hin (by decide) text
  obtain rfl := List.eq_nil_of_length_eq_zero hu
  obtain rfl := List.eq_nil_of_length_eq_zero hd
  obtain rfl : [] = v := htext
  refine ⟨t, hreplace, ?_, hmarkers, hperm.map Placement.id, ?_⟩
  · rw [htext', List.append_nil]
    rfl
  · intro id track htrack
    cases htrack

/-- Whatever is done to a tape within its bounds: it has the text that the operations lead to, all
markers ever put on it are there once, each on its own side, and each is found where the operations
since then take the offset that it was put at. -/
theorem follows_ledger {start : Text} {steps : List Step} (hstart : start.length < Word.signedBound)
    (hin : InBounds start.length steps) :
    ∃ t l, (ofText start >>= fun t => steps.foldlM step t) = .ok t ∧
      steps.foldlM Ledger.step ⟨start, []⟩ = .ok l ∧
      t.text = l.text ∧
      ((placements 0 t.slots).map Placement.id).Perm (List.range l.tracks.length) ∧
      ∀ id track, l.tracks[id]? = some track → ∃ n, track.place = .ok n ∧ t.marker id = some n ∧
        ⟨id, track.side, n⟩ ∈ placements 0 t.slots := by
  obtain ⟨t₀, hof, h₀⟩ := exists_ofText start
  obtain ⟨t, l, ht, hl, h⟩ := h₀.run hstart hin
  refine ⟨t, l, bind_eq_ok.mpr ⟨t₀, hof, ht⟩, hl, h.text_eq, h.ids, ?_⟩
  intro id track htrack
  obtain ⟨n, hn, hmem⟩ := h.placed id track htrack
  have hnodup : ((placements 0 t.slots).map Placement.id).Nodup :=
    h.ids.nodup_iff.mpr List.nodup_range
  obtain ⟨m, hm, hnm⟩ := Slot.markerOffset_eq hnodup hmem
  have hnm : n = 0 + m := hnm
  rw [Nat.zero_add] at hnm
  exact ⟨n, hn, hnm ▸ hm, hmem⟩

/-- Two markers in one gap, one between characters that go and one behind them; then text is put in
and taken out around all of them. -/
def crowded : List Step :=
  [.mark 1 .left, .mark 1 .right, .mark 2 .right, .mark 3 .left, .replace 1 2 ['x', 'y', 'z'],
    .mark 4 .right, .replace 4 0 ['w'], .replace 0 2 []]

/-- A text for them. -/
def abcd : Text := ['a', 'b', 'c', 'd']

theorem follows_ledger_crowded :
    (abcd.length < Word.signedBound ∧ InBounds abcd.length crowded) ∧
    ∃ t l, (ofText abcd >>= fun t => crowded.foldlM step t) = .ok t ∧
      crowded.foldlM Ledger.step ⟨abcd, []⟩ = .ok l ∧ t.text = l.text ∧
      ((placements 0 t.slots).map Placement.id).Perm (List.range l.tracks.length) ∧
      ∀ id track, l.tracks[id]? = some track → ∃ n, track.place = .ok n ∧ t.marker id = some n ∧
        ⟨id, track.side, n⟩ ∈ placements 0 t.slots := by
  have hin : abcd.length < Word.signedBound ∧ InBounds abcd.length crowded := by decide
  exact ⟨hin, follows_ledger hin.1 hin.2⟩

end Tape

end Coedit
