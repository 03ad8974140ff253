import Coedit.Caret
import Coedit.Proofs.Interval.Order
import Coedit.Proofs.Operation.OffsetOrder

/-!
# Positions stay within the text

Spans, carets and sets of intervals mark places in a text. An operation that leads from `s` to `t`
takes them to places in `t`, with their ends still in order. There is a lemma for each kind of
position (`Span.lands_transform`, `Caret.lands_transform`, `IntervalSet.lands_edit`), and all of them
come down to single offsets (`Operation.lands_mapOffset`).

Ends stay in order for two reasons. Both ends of an interval go to the right of inserted text, and
offsets moved to the same side keep their order. The ends of a span move towards each other, and may
even cross; then the span collapses.

An offset at the very end of the text is moved by adding the new length and taking off the old one,
and the sum can be too large for a word. This is the only way in which a position is not moved:
`Lands` has a condition on the lengths here and on nothing else.
-/

namespace Coedit

/-! ## Positions within a text -/

/-- The ends are in order and within a text of `n` characters. -/
def Span.Within (n : Nat) (span : Span) : Prop := span.start ≤ span.stop ∧ span.stop ≤ n

instance (n : Nat) (span : Span) : Decidable (span.Within n) :=
  inferInstanceAs (Decidable (_ ∧ _))

/-- The caret and its selection are within a text of `n` characters. -/
def Caret.Within (n : Nat) (caret : Caret) : Prop :=
  caret.offset ≤ n ∧ ∀ span ∈ caret.selection, span.Within n

instance (n : Nat) (caret : Caret) : Decidable (caret.Within n) :=
  inferInstanceAs (Decidable (_ ∧ _))

section Interval

variable {κ ν : Type}

/-- The ends are in order and within a text of `n` characters. -/
def Interval.Within (n : Nat) (i : Interval κ ν) : Prop := i.start ≤ i.stop ∧ i.stop ≤ n

instance (n : Nat) (i : Interval κ ν) : Decidable (i.Within n) :=
  inferInstanceAs (Decidable (_ ∧ _))

/-- What the interval carries. -/
def Interval.label (i : Interval κ ν) : κ × ν := (i.key, i.value)

/-- Intervals that carry the same, one by one. -/
theorem Interval.map_label_eq {is js : List (Interval κ ν)}
    (h : List.Forall₂ (fun i j => j.label = i.label) is js) : js.map label = is.map label := by
  rw [← List.forall₂_eq_eq_eq, List.forall₂_map_left_iff, List.forall₂_map_right_iff]
  exact h.flip

/-- All intervals of the set are within a text of `n` characters. -/
def IntervalSet.Within (n : Nat) (set : IntervalSet κ ν) : Prop := ∀ i ∈ set.entries, i.Within n

instance (n : Nat) (set : IntervalSet κ ν) : Decidable (set.Within n) :=
  inferInstanceAs (Decidable (∀ i ∈ set.entries, i.Within n))

/-- `set'` carries what `set` carries, is in order, and lies within a text of `n` characters. -/
structure IntervalSet.MovesTo (n : Nat) (set set' : IntervalSet κ ν) : Prop where
  labels : (set'.entries.map Interval.label).Perm (set.entries.map Interval.label)
  ordered : set'.Ordered
  within : set'.Within n

end Interval

/-! ## Positions moved by an operation -/

section Moved

variable {op : Operation} {s t : Text} (happly : op.apply s = .ok t)
include happly

theorem Span.lands_transform {span : Span} (h : span.Within s.length) (side : Side) :
    Lands (s.length + t.length < Word.bound) (Span.Within t.length) (span.transform op side) := by
  have hstart : span.start ≤ s.length := Nat.le_trans h.1 h.2
  unfold Span.transform
  split
  · refine (op.lands_mapOffset happly hstart side).bind ?_
    rintro o ⟨-, ho⟩
    exact .ok ⟨Nat.le_refl o, ho⟩
  · refine (op.lands_mapOffset happly hstart .right).bind ?_
    rintro start -
    refine (op.lands_mapOffset happly h.2 .left).bind ?_
    rintro stop ⟨-, hstop⟩
    refine .ok ?_
    split
    · exact ⟨Nat.le_refl stop, hstop⟩
    · next hcross => exact ⟨Nat.not_lt.mp hcross, hstop⟩

theorem Caret.lands_transform {caret : Caret} (h : caret.Within s.length) (side : Side) :
    Lands (s.length + t.length < Word.bound) (Caret.Within t.length)
      (caret.transform op side) := by
  obtain ⟨offset, selection⟩ := caret
  refine (op.lands_mapOffset happly h.1 side).bind ?_
  rintro o ⟨-, ho⟩
  cases selection with
  | none => exact .ok ⟨ho, fun _ hmem => absurd hmem (by simp)⟩
  | some span =>
    refine Lands.bind (P := fun selection => ∀ span ∈ selection, span.Within t.length) ?_ ?_
    · refine (Span.lands_transform happly (h.2 span rfl) side).bind ?_
      intro span' hspan'
      refine .ok ?_
      rintro _ ⟨⟩
      exact hspan'
    · intro selection' hselection'
      exact .ok ⟨ho, hselection'⟩

variable {κ ν : Type}

theorem Interval.lands_move {i : Interval κ ν} (h : i.Within s.length) :
    Lands (s.length + t.length < Word.bound)
      (fun j : Interval κ ν => j.label = i.label ∧ j.Within t.length) (i.move op) := by
  refine (op.lands_mapOffset happly (Nat.le_trans h.1 h.2) .right).bind ?_
  rintro start ⟨hstart, -⟩
  refine (op.lands_mapOffset happly h.2 .right).bind ?_
  rintro stop ⟨hstop, hle⟩
  exact .ok ⟨rfl, moveOffset_mono (Nat.zero_le _) h.1 (Or.inl rfl) hstart hstop, hle⟩

theorem IntervalSet.lands_edit {set : IntervalSet κ ν} (hord : set.Ordered)
    (h : set.Within s.length) :
    Lands (s.length + t.length < Word.bound) (set.MovesTo t.length) (set.edit op) := by
  unfold IntervalSet.edit
  split
  · next hop =>
    -- both texts are the same, and nothing moves
    rw [Operation.apply_of_isEmpty hop] at happly
    cases happly
    exact .ok ⟨.refl _, hord, h⟩
  · refine (Lands.mapM fun i hi => Interval.lands_move happly (h i hi)).bind ?_
    intro moved hmoved
    have hlabels := Interval.map_label_eq (hmoved.imp fun _ _ hij => hij.1)
    have hwithin := forall_mem_of_forall₂ hmoved (fun _ _ hij _ => hij.2) h
    have hsorted := stablySorted_ofList moved
    refine .ok ⟨?_, hsorted.ordered, fun i hi => hwithin i (hsorted.perm.mem_iff.mp hi)⟩
    rw [← hlabels]
    exact hsorted.perm.map _

end Moved

end Coedit
