import Coedit.Operation.Making
import Coedit.Operation.Offset
import Coedit.Proofs.Operation.Effect

/-!
# Where offsets land

`moveOffset` walks along the components until it has passed the offset. Read from the front, a kept
run either holds the offset or is passed over (`moveOffset_retain`), whether or not it was merged
into the next one (`moveOffset_onto_retain`).

For the replacement of one stretch this adds up to a closed form, `landing`: offsets before the
stretch stay, offsets behind it move by the change in length, and those inside it, or at its start,
go to one end of the new text.

> `Operation.exists_replace`: replacing a stretch of a text is an operation that applies to the
> text, does to it what the words say, and takes each of its offsets to its landing.
-/

namespace Coedit

theorem moveOffset_nil {side : Side} {o before after : Nat} (h : after + o < Word.bound) :
    moveOffset side o [] before after = .ok (after + o - before) := by
  unfold moveOffset Word.add
  rw [if_pos h]
  rfl

theorem eq_of_moveOffset_nil {side : Side} {o before after r : Nat}
    (h : moveOffset side o [] before after = .ok r) : r = after + o - before := by
  obtain ⟨sum, hsum, hr⟩ := bind_eq_ok.mp h
  unfold Word.add at hsum
  split at hsum
  · cases hsum
    cases hr
    rfl
  · cases hsum

/-- A kept run holds the offset or is passed over. An empty one is passed over. -/
theorem moveOffset_retain {side : Side} {o before after : Nat} (h : before ≤ o) (n : Nat)
    (cs : List Component) :
    moveOffset side o (.retain n :: cs) before after =
      if o < before + n then .ok (after + (o - before))
      else moveOffset side o cs (before + n) (after + n) := by
  rw [moveOffset, Word.sub, if_pos h]
  rfl

theorem moveOffset_onto_retain {side : Side} {o before after : Nat} (h : before ≤ o) (n : Nat)
    (cs : List Component) :
    moveOffset side o ((Piece.retain n).onto cs) before after =
      if o < before + n then .ok (after + (o - before))
      else moveOffset side o cs (before + n) (after + n) := by
  unfold Piece.onto
  split
  · next hn =>
    have hn : n = 0 := hn
    rw [hn, if_neg (by omega)]
    rfl
  · cases cs with
    | nil => exact moveOffset_retain h n []
    | cons c cs =>
      cases c with
      | replace d i => exact moveOffset_retain h n (.replace d i :: cs)
      | retain m =>
        -- the two runs are one on the left, and are read one after the other on the right
        show moveOffset side o (.retain (n + m) :: cs) before after = _
        rw [moveOffset_retain h]
        by_cases hfirst : o < before + n
        · rw [if_pos (by omega), if_pos hfirst]
        · rw [if_neg hfirst, moveOffset_retain (by omega), Nat.add_assoc before,
            Nat.add_assoc after n m]
          have hsame : after + n + (o - (before + n)) = after + (o - before) := by omega
          rw [hsame]

/-- The last kept run holds all offsets that are left, its end among them. -/
theorem moveOffset_last {side : Side} {o before after rest : Nat} (h : before ≤ o)
    (ho : o ≤ before + rest) (hfit : after + rest + o < Word.bound) :
    moveOffset side o (gather [.retain rest]) before after = .ok (after + (o - before)) := by
  rw [gather_cons, gather_nil, moveOffset_onto_retain h]
  by_cases hlt : o < before + rest
  · rw [if_pos hlt]
  · rw [if_neg hlt, moveOffset_nil hfit]
    congr 1
    omega

/-- A deletion and an insertion merge, and if both are empty nothing is left of them. -/
theorem gather_change (d i : Text) (rest : Nat) :
    gather [.delete d, .insert i, .retain rest] =
      if d = [] ∧ i = [] then gather [.retain rest]
      else .replace d i :: gather [.retain rest] := by
  by_cases hrest : rest = 0 <;> cases d <;> cases i <;>
    simp [gather, Piece.onto, Piece.size, hrest]

/-- The end of a new text of `added` characters from `start` on that lies to this side. -/
def Side.edge (start added : Nat) : Side → Nat
  | left => start
  | right => start + added

/-- Where an offset goes when `count` characters from `start` on make way for `added` others. -/
def landing (start count added : Nat) (side : Side) (o : Nat) : Nat :=
  if o < start then o
  else if o = start ∨ o < start + count then side.edge start added
  else o - count + added

section Landing

variable {start count added o : Nat} {side : Side}

theorem landing_of_lt (h : o < start) : landing start count added side o = o := if_pos h

theorem landing_of_within (hge : start ≤ o) (h : o = start ∨ o < start + count) :
    landing start count added side o = side.edge start added := by
  unfold landing
  rw [if_neg (Nat.not_lt.mpr hge), if_pos h]

theorem landing_of_behind (hge : start ≤ o) (h : ¬ (o = start ∨ o < start + count)) :
    landing start count added side o = o - count + added := by
  unfold landing
  rw [if_neg (Nat.not_lt.mpr hge), if_neg h]

end Landing

theorem moveOffset_change {side : Side} {o start rest : Nat} {d i : Text} (h : start ≤ o)
    (ho : o ≤ start + d.length + rest) (hfit : start + i.length + rest + o < Word.bound) :
    moveOffset side o (gather [.delete d, .insert i, .retain rest]) start start =
      .ok (landing start d.length i.length side o) := by
  have hlast : ¬ o < start + d.length → moveOffset side o (gather [.retain rest])
      (start + d.length) (start + i.length) = .ok (start + i.length + (o - (start + d.length))) :=
    fun hge => moveOffset_last (Nat.not_lt.mp hge) ho hfit
  rw [gather_change]
  split
  · next hnone =>
    obtain ⟨rfl, rfl⟩ := hnone
    rw [List.length_nil, Nat.add_zero] at hlast
    rw [hlast (Nat.not_lt.mpr h)]
    cases side <;> grind [landing, Side.edge]
  · -- what is left is which branch the offset takes: before the end of the deletion, or behind it
    cases side <;> grind [landing, Side.edge, moveOffset]

namespace Operation

/-- Where nothing is done, an offset that can be moved at all stays. -/
theorem eq_of_mapOffset {op : Operation} (h : op.isEmpty) {o n : Nat} {side : Side}
    (hmap : op.mapOffset o side = .ok n) : n = o := by
  have hnil : op.components = [] := List.isEmpty_iff.mp h
  rw [mapOffset, hnil] at hmap
  have hend := eq_of_moveOffset_nil hmap
  omega

/-- Replacing a stretch of a text is an operation that puts the new text in its place and takes each
offset of the text to its landing. -/
theorem exists_replace {u d v : Text} (i : Text)
    (hold : (u ++ d ++ v).length < Word.signedBound)
    (hnew : (u ++ i ++ v).length < Word.signedBound) :
    ∃ op, replace u.length d i (u ++ d ++ v).length = .ok op ∧
      op.apply (u ++ d ++ v) = .ok (u ++ i ++ v) ∧
      ∀ o ≤ (u ++ d ++ v).length, ∀ side,
        op.mapOffset o side = .ok (landing u.length d.length i.length side o) := by
  have hbound := Word.bound_eq
  have hrew : Rewrites [.retain u.length, .delete d, .insert i, .retain v.length]
      (u ++ d ++ v) (u ++ i ++ v) := by
    refine rewrites_retain.mpr
      ⟨u, d ++ v, i ++ v, rfl, List.append_assoc .., List.append_assoc .., ?_⟩
    refine rewrites_delete.mpr ⟨v, rfl, rewrites_insert.mpr ⟨v, rfl, ?_⟩⟩
    exact rewrites_retain.mpr ⟨v, [], [], rfl, (List.append_nil v).symm, (List.append_nil v).symm,
      rewrites_nil.mpr ⟨rfl, rfl⟩⟩
  obtain ⟨op, hop, happly⟩ := exists_ofPieces_apply hrew (by omega) (by omega)
  rw [List.length_append, List.length_append] at hold hnew ⊢
  have hrest : u.length + d.length + v.length - (u.length + d.length) = v.length :=
    Nat.add_sub_cancel_left ..
  refine ⟨op, ?_, happly, ?_⟩
  · unfold replace Word.add
    rw [if_pos (by omega)]
    show (if u.length + d.length ≤ _ then _ else _) = _
    rw [if_pos (Nat.le_add_right ..), hrest]
    exact hop
  · intro o ho side
    rw [mapOffset, components_of_ofComponents hop, gather_cons,
      moveOffset_onto_retain (Nat.zero_le o), Nat.zero_add]
    by_cases hbefore : o < u.length
    · rw [if_pos hbefore, landing_of_lt hbefore, Nat.sub_zero, Nat.zero_add]
    · rw [if_neg hbefore]
      exact moveOffset_change (Nat.not_lt.mp hbefore) ho (by omega)

end Operation

end Coedit
