import Coedit.Proofs.Operation.Offsets
import Coedit.Tape

/-!
# Where the markers on a tape stand

Read from the left, a tape gives the list of its markers, each with the number of characters before
it: its *placements*. This is all that there is to say about the markers, and the two changes of a
tape come down to what they do to that list, up to order:

* marking adds one placement (`Tape.exists_mark`);
* a replacement moves each placement to its `landing` (`Tape.exists_replace`).

The second is where the slots are taken apart. A tape is cut into what lies before the gap, what is
swept up and the rest. The cuts fall so that the markers before them are exactly those that lie
before the replaced text, and the markers swept up exactly those that go to one end of the new
text.
-/

namespace Coedit

/-- A marker and the number of characters before it. -/
structure Placement where
  id : Nat
  side : Side
  offset : Nat

/-- The marker with its offset taken elsewhere, as its side asks. -/
def Placement.move (f : Side → Nat → Nat) (p : Placement) : Placement :=
  { p with offset := f p.side p.offset }

/-- Of the markers from `start` on, those at `start` itself or among the next `count` characters. -/
def Placement.Within (start count : Nat) (p : Placement) : Prop :=
  p.offset = start ∨ p.offset < start + count

namespace Slot

/-- The markers on slots that have `first` characters before them. -/
def placements : (first : Nat) → List Slot → List Placement
  | _, [] => []
  | first, char _ :: slots => placements (first + 1) slots
  | first, marker id side :: slots => ⟨id, side, first⟩ :: placements first slots

theorem text_append (a b : List Slot) : text (a ++ b) = text a ++ text b := by
  induction a with
  | nil => rfl
  | cons slot a ih =>
    cases slot with
    | char c => exact congrArg (c :: ·) ih
    | marker id side => exact ih

theorem text_map_char (s : Text) : text (s.map char) = s := by
  induction s with
  | nil => rfl
  | cons c s ih => exact congrArg (c :: ·) ih

theorem text_filter_keepsTo (side : Side) (slots : List Slot) :
    text (slots.filter (keepsTo side)) = [] := by
  induction slots with
  | nil => rfl
  | cons slot slots ih =>
    rw [List.filter_cons]
    split
    · cases slot with
      | char c => contradiction
      | marker id side' => exact ih
    · exact ih

theorem placements_append (first : Nat) (a b : List Slot) :
    placements first (a ++ b) = placements first a ++ placements (first + (text a).length) b := by
  induction a generalizing first with
  | nil => rfl
  | cons slot a ih =>
    cases slot with
    | char c =>
      show placements (first + 1) (a ++ b) = placements (first + 1) a ++ _
      rw [ih, text, List.length_cons, Nat.add_assoc, Nat.add_comm 1]
    | marker id side => exact congrArg (_ :: ·) (ih first)

theorem placements_map_char (first : Nat) (s : Text) : placements first (s.map char) = [] := by
  induction s generalizing first with
  | nil => rfl
  | cons c s ih => exact ih (first + 1)

theorem placements_add (first n : Nat) (slots : List Slot) :
    placements (first + n) slots =
      (placements first slots).map fun p => { p with offset := p.offset + n } := by
  induction slots generalizing first with
  | nil => rfl
  | cons slot slots ih =>
    cases slot with
    | char c =>
      show placements (first + n + 1) slots = (placements (first + 1) slots).map _
      rw [Nat.add_right_comm, ih]
    | marker id side => exact congrArg (_ :: ·) (ih first)

/-- A marker stands among the characters around it. -/
theorem offset_of_mem {first : Nat} {slots : List Slot} {p : Placement}
    (h : p ∈ placements first slots) :
    first ≤ p.offset ∧ p.offset ≤ first + (text slots).length := by
  induction slots generalizing first with
  | nil => cases h
  | cons slot slots ih =>
    cases slot with
    | char c =>
      have hrest : first + 1 ≤ p.offset ∧ p.offset ≤ first + 1 + (text slots).length := ih h
      rw [text, List.length_cons]
      omega
    | marker id side =>
      rcases List.mem_cons.mp h with rfl | h
      · exact ⟨Nat.le_refl _, Nat.le_add_right ..⟩
      · exact ih h

/-- A marker whose id is there once is found where it stands. -/
theorem markerOffset_eq {first : Nat} {slots : List Slot} {p : Placement}
    (hnodup : ((placements first slots).map Placement.id).Nodup) (h : p ∈ placements first slots) :
    ∃ n, markerOffset p.id slots = some n ∧ p.offset = first + n := by
  induction slots generalizing first with
  | nil => cases h
  | cons slot slots ih =>
    cases slot with
    | char c =>
      obtain ⟨n, hn, hoffset⟩ : ∃ n, markerOffset p.id slots = some n ∧ p.offset = first + 1 + n :=
        ih hnodup h
      refine ⟨n + 1, ?_, by omega⟩
      rw [markerOffset, hn]
      rfl
    | marker id side =>
      obtain ⟨hfresh, hrest⟩ := List.nodup_cons.mp hnodup
      rw [markerOffset]
      rcases List.mem_cons.mp h with rfl | h
      · exact ⟨0, if_pos rfl, rfl⟩
      · have hne : id ≠ p.id := by
          intro heq
          exact hfresh (List.mem_map.mpr ⟨p, h, heq.symm⟩)
        rw [if_neg hne]
        exact ih hrest h

/-! ## Cutting a tape -/

/-- The gap at an offset starts right after the character before it. -/
theorem splitAt_eq {n : Nat} {slots : List Slot} (h : n ≤ (text slots).length) :
    splitAt n slots = some (splitAfter n slots) := by
  induction slots generalizing n with
  | nil =>
    cases n with
    | zero => rfl
    | succ n => cases h
  | cons slot slots ih =>
    cases n with
    | zero => rfl
    | succ n =>
      cases slot with
      | char c =>
        rw [splitAt, ih (Nat.le_of_succ_le_succ h)]
        rfl
      | marker id side =>
        rw [splitAt, ih h]
        rfl

/-- The cut right after a character. No marker before it stands at the cut itself. -/
theorem splitAfter_spec {n : Nat} {slots : List Slot} (h : n ≤ (text slots).length) :
    slots = (splitAfter n slots).1 ++ (splitAfter n slots).2 ∧
      (text (splitAfter n slots).1).length = n ∧
      ∀ first, ∀ p ∈ placements first (splitAfter n slots).1, p.offset < first + n := by
  induction slots generalizing n with
  | nil =>
    cases n with
    | zero => exact ⟨rfl, rfl, fun _ p hp => nomatch hp⟩
    | succ n => cases h
  | cons slot slots ih =>
    cases n with
    | zero => exact ⟨rfl, rfl, fun _ p hp => nomatch hp⟩
    | succ n =>
      cases slot with
      | char c =>
        obtain ⟨happend, hlen, hbefore⟩ := ih (Nat.le_of_succ_le_succ h)
        refine ⟨congrArg (char c :: ·) happend, congrArg (· + 1) hlen, ?_⟩
        intro first p hp
        have hlt := hbefore (first + 1) p hp
        omega
      | marker id side =>
        obtain ⟨happend, hlen, hbefore⟩ := ih h
        refine ⟨congrArg (marker id side :: ·) happend, hlen, ?_⟩
        intro first p hp
        rcases List.mem_cons.mp hp with rfl | hp
        · exact Nat.lt_add_of_pos_right (Nat.succ_pos n)
        · exact hbefore first p hp

/-- In front of the next character stand only markers. -/
theorem takeWhile_isMarker_spec (slots : List Slot) :
    text (slots.takeWhile isMarker) = [] ∧
      ∀ first, ∀ p ∈ placements first (slots.dropWhile isMarker), first < p.offset := by
  induction slots with
  | nil => exact ⟨rfl, fun _ p hp => nomatch hp⟩
  | cons slot slots ih =>
    cases slot with
    | char c =>
      refine ⟨rfl, ?_⟩
      intro first p hp
      have hmem : p ∈ placements (first + 1) slots := hp
      exact (offset_of_mem hmem).1
    | marker id side => exact ih

/-- The markers swept up are those that stand at the start of the replaced text or inside it. -/
theorem sweep_spec {count : Nat} {slots : List Slot} (h : count ≤ (text slots).length) :
    slots = (sweep count slots).1 ++ (sweep count slots).2 ∧
      (text (sweep count slots).1).length = count ∧
      (∀ first, ∀ p ∈ placements first (sweep count slots).1, p.Within first count) ∧
      ∀ first, ∀ p ∈ placements (first + count) (sweep count slots).2, ¬ p.Within first count := by
  unfold sweep Placement.Within
  split
  · next hzero =>
    subst hzero
    obtain ⟨hnone, hbehind⟩ := takeWhile_isMarker_spec slots
    refine ⟨List.takeWhile_append_dropWhile.symm, congrArg List.length hnone, ?_, ?_⟩
    · intro first p hp
      have hp := offset_of_mem hp
      rw [hnone] at hp
      exact .inl (Nat.le_antisymm hp.2 hp.1)
    · intro first p hp
      have hlt := hbehind first p hp
      omega
  · next hpos =>
    obtain ⟨happend, hlen, hbefore⟩ := splitAfter_spec h
    refine ⟨happend, hlen, fun first p hp => .inr (hbefore first p hp), ?_⟩
    intro first p hp
    have hge := (offset_of_mem hp).1
    omega

/-- Markers that go to two places by their sides are the markers of one side at the one place and
those of the other side at the other. -/
theorem placements_sides (first : Nat) (slots : List Slot) (f : Side → Nat) :
    ((placements first slots).map (Placement.move fun side _ => f side)).Perm
      (placements (f .left) (slots.filter (keepsTo .left)) ++
        placements (f .right) (slots.filter (keepsTo .right))) := by
  induction slots generalizing first with
  | nil => exact .refl _
  | cons slot slots ih =>
    cases slot with
    | char c => exact ih (first + 1)
    | marker id side =>
      cases side with
      | left => exact (ih first).cons _
      | right => exact ((ih first).cons _).trans List.perm_middle.symm

section Landing

variable {start count added : Nat}

theorem map_move_of_before {ps : List Placement} (h : ∀ p ∈ ps, p.offset < start) :
    ps.map (Placement.move (landing start count added)) = ps := by
  have hstay : ∀ p ∈ ps, p.move (landing start count added) = p := by
    intro p hp
    rw [Placement.move, landing_of_lt (h p hp)]
  rw [List.map_congr_left hstay, List.map_id']

theorem map_move_of_within {slots : List Slot}
    (h : ∀ p ∈ placements start slots, p.Within start count) :
    (placements start slots).map (Placement.move (landing start count added)) =
      (placements start slots).map (Placement.move fun side _ => side.edge start added) := by
  refine List.map_congr_left ?_
  intro p hp
  rw [Placement.move, landing_of_within (offset_of_mem hp).1 (h p hp)]
  rfl

theorem map_move_of_behind {slots : List Slot}
    (h : ∀ p ∈ placements (start + count) slots, ¬ p.Within start count) :
    (placements (start + count) slots).map (Placement.move (landing start count added)) =
      placements (start + added) slots := by
  have hmoved : ∀ p ∈ placements (start + count) slots, p.move (landing start count added) =
      { p with offset := p.offset - count + added } := by
    intro p hp
    have hge := (offset_of_mem hp).1
    rw [Placement.move, landing_of_behind (by omega) (h p hp)]
  -- counted from `start`, both lists are the same one, shifted
  rw [List.map_congr_left hmoved, placements_add, placements_add, List.map_map]
  refine List.map_congr_left ?_
  intro p hp
  show Placement.mk _ _ (p.offset + count - count + added) = _
  rw [Nat.add_sub_cancel]

end Landing

/-- The slots after a replacement hold the markers of the slots before it, each at its landing. -/
theorem placements_replaced {before swept rest : List Slot} {offset count : Nat} (new : Text)
    (hoffset : (text before).length = offset) (hcount : (text swept).length = count)
    (hbefore : ∀ p ∈ placements 0 before, p.offset < offset)
    (hswept : ∀ p ∈ placements offset swept, p.Within offset count)
    (hrest : ∀ p ∈ placements (offset + count) rest, ¬ p.Within offset count) :
    (placements 0 (before ++ swept.filter (keepsTo .left) ++ new.map char ++
        swept.filter (keepsTo .right) ++ rest)).Perm
      ((placements 0 (before ++ swept ++ rest)).map
        (Placement.move (landing offset count new.length))) := by
  simp only [placements_append, text_append, text_filter_keepsTo, text_map_char,
    placements_map_char, List.map_append, List.length_append, List.append_nil, Nat.zero_add,
    hoffset, hcount, map_move_of_before hbefore, map_move_of_within hswept,
    map_move_of_behind hrest]
  refine List.Perm.append_right _ ?_
  rw [List.append_assoc]
  exact ((placements_sides offset swept (Side.edge offset new.length)).symm).append_left _

end Slot

namespace Tape

open Slot (placements)

variable {t : Tape} {offset count : Nat}

theorem gap_eq (h : offset ≤ t.length) : t.gap offset = .ok (Slot.splitAfter offset t.slots) := by
  unfold gap
  rw [Slot.splitAt_eq h]

/-- A marker put on the tape stands where it was put, and nothing else changes. -/
theorem exists_mark (h : offset ≤ t.length) (side : Side) :
    ∃ t', t.mark offset side = (t', .ok t.markers) ∧ t'.text = t.text ∧
      t'.markers = t.markers + 1 ∧
      (placements 0 t'.slots).Perm (⟨t.markers, side, offset⟩ :: placements 0 t.slots) := by
  obtain ⟨hslots, hlen, _⟩ := Slot.splitAfter_spec h
  unfold mark
  rw [gap_eq h]
  refine ⟨_, rfl, ?_, rfl, ?_⟩
  · show Slot.text (_ ++ Slot.marker t.markers side :: _) = Slot.text t.slots
    conv => rhs; rw [hslots]
    rw [Slot.text_append, Slot.text_append]
    rfl
  · show (placements 0 (_ ++ Slot.marker t.markers side :: _)).Perm _
    conv => rhs; rw [hslots]
    rw [Slot.placements_append, Slot.placements_append, hlen, Nat.zero_add]
    exact List.perm_middle

/-- A replacement cuts the tape in three: the markers before the gap lie before the replaced text,
and those swept up at its start or inside it. -/
theorem exists_cut (h : offset + count ≤ t.length) :
    ∃ before after swept rest, t.gap offset = .ok (before, after) ∧
      Slot.sweep count after = (swept, rest) ∧ t.slots = before ++ swept ++ rest ∧
      (Slot.text before).length = offset ∧ (Slot.text swept).length = count ∧
      (∀ p ∈ placements 0 before, p.offset < offset) ∧
      (∀ p ∈ placements offset swept, p.Within offset count) ∧
      ∀ p ∈ placements (offset + count) rest, ¬ p.Within offset count := by
  have hoffset : offset ≤ t.length := Nat.le_trans (Nat.le_add_right ..) h
  obtain ⟨hslots, hlen, hbefore⟩ := Slot.splitAfter_spec hoffset
  have hafter : count ≤ (Slot.text (Slot.splitAfter offset t.slots).2).length := by
    have htotal := congrArg (fun slots => (Slot.text slots).length) hslots
    simp only [Slot.text_append, List.length_append, hlen] at htotal
    rw [length, text, htotal] at h
    exact Nat.le_of_add_le_add_left h
  obtain ⟨hcut, hcount, hswept, hrest⟩ := Slot.sweep_spec hafter
  refine ⟨_, _, (Slot.sweep count (Slot.splitAfter offset t.slots).2).1,
    (Slot.sweep count (Slot.splitAfter offset t.slots).2).2, gap_eq hoffset, rfl, ?_, hlen, hcount,
    ?_, hswept offset, hrest offset⟩
  · rw [List.append_assoc, ← hcut]
    exact hslots
  · intro p hp
    rw [← Nat.zero_add offset]
    exact hbefore 0 p hp

/-- A replacement puts the new text in the place of the old, and each marker goes to its landing. -/
theorem exists_replace (h : offset + count ≤ t.length) (ht : t.length < Word.bound) (new : Text) :
    ∃ t' u d v, t.replace offset count new = .ok t' ∧ t.text = u ++ d ++ v ∧ u.length = offset ∧
      d.length = count ∧ t'.text = u ++ new ++ v ∧ t'.markers = t.markers ∧
      (placements 0 t'.slots).Perm
        ((placements 0 t.slots).map (Placement.move (landing offset count new.length))) := by
  obtain ⟨before, after, swept, rest, hgap, hsweep, hslots, hoffset, hcount, hbefore, hswept,
    hrest⟩ := exists_cut h
  obtain ⟨slots, hnew⟩ : ∃ slots, slots = before ++ swept.filter (Slot.keepsTo .left) ++
      new.map Slot.char ++ swept.filter (Slot.keepsTo .right) ++ rest := ⟨_, rfl⟩
  refine ⟨⟨slots, t.markers, t.versions ++ [Slot.text slots]⟩, Slot.text before, Slot.text swept,
    Slot.text rest, ?_, ?_, hoffset, hcount, ?_, rfl, ?_⟩
  · refine bind_eq_ok.mpr ⟨offset + count, if_pos (by omega), ?_⟩
    rw [if_neg (by omega)]
    refine bind_eq_ok.mpr ⟨_, hgap, ?_⟩
    dsimp only
    rw [hsweep, hnew]
  · rw [text, hslots, Slot.text_append, Slot.text_append]
  · simp only [text, hnew, Slot.text_append, Slot.text_filter_keepsTo, Slot.text_map_char,
      List.append_nil]
  · rw [hslots, hnew]
    exact Slot.placements_replaced new hoffset hcount hbefore hswept hrest

end Tape

end Coedit
